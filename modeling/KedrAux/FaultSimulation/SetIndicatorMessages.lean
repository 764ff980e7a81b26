import KedrAux.SyscallConnector.Messages

/-!
# Messages that set indicators

The payload of such a message has two strings with their terminating zeros, and the parameters.
-/

namespace KedrAux
namespace FaultSimulation
namespace Messages

open CharBuffer (Fault strlen text)
open SyscallConnector

/-- A string in a message, without its terminating zero. -/
structure MessageString where
  chars : List UInt8
  noZero : 0 ∉ chars
deriving DecidableEq

structure SetIndicatorPayload where
  pointName : MessageString
  indicatorName : MessageString
  params : List UInt8
deriving DecidableEq

def kedrFsimSetIndicatorPayloadLen (payload : SetIndicatorPayload) : Nat :=
  (payload.pointName.chars.length + 1) + (payload.indicatorName.chars.length + 1) +
    payload.params.length

/-- The bytes that are written to the buffer. -/
def kedrFsimSetIndicatorPayloadPut (payload : SetIndicatorPayload) : List UInt8 :=
  (payload.pointName.chars ++ [0]) ++ ((payload.indicatorName.chars ++ [0]) ++ payload.params)

def stringAt (buf : List UInt8) (i : Nat) : MessageString :=
  ⟨text buf i, CharBuffer.zero_notMem_text buf i⟩

/-- The payload in the buffer; `none` is the result -1. -/
def kedrFsimSetIndicatorPayloadGet (buf : List UInt8) (bufLen : Nat) :
    Except Fault (Option SetIndicatorPayload) := do
  let pointNameLen := (← strlen buf 0) + 1
  if bufLen < pointNameLen then .ok none
  else do
    let indicatorNameLen := (← strlen buf pointNameLen) + 1
    if bufLen - pointNameLen < indicatorNameLen then .ok none
    else
      let paramsLen := bufLen - pointNameLen - indicatorNameLen
      .ok (some ⟨stringAt buf 0, stringAt buf pointNameLen,
        (buf.drop (pointNameLen + indicatorNameLen)).take paramsLen⟩)

/-- No byte behind the message is read, and it is accepted if it is the encoding of a payload. -/
def Exact (buf : List UInt8) : Prop :=
  ∃ result, kedrFsimSetIndicatorPayloadGet buf buf.length = .ok result ∧
    (result ≠ none ↔ ∃ payload, kedrFsimSetIndicatorPayloadPut payload = buf)

theorem length_payloadPut (payload : SetIndicatorPayload) :
    (kedrFsimSetIndicatorPayloadPut payload).length = kedrFsimSetIndicatorPayloadLen payload := by
  simp only [kedrFsimSetIndicatorPayloadPut, kedrFsimSetIndicatorPayloadLen, List.length_append,
    List.length_singleton]
  omega

theorem payloadGet_of_put (payload : SetIndicatorPayload) :
    kedrFsimSetIndicatorPayloadGet (kedrFsimSetIndicatorPayloadPut payload)
      (kedrFsimSetIndicatorPayloadPut payload).length = .ok (some payload) := by
  obtain ⟨⟨point, hpoint⟩, ⟨indicator, hindicator⟩, params⟩ := payload
  have hlength := length_payloadPut ⟨⟨point, hpoint⟩, ⟨indicator, hindicator⟩, params⟩
  simp only [kedrFsimSetIndicatorPayloadLen] at hlength
  rw [hlength]
  simp only [kedrFsimSetIndicatorPayloadPut]
  have hfirst : point ++ [0] <+:
      ((point ++ [0]) ++ ((indicator ++ [0]) ++ params)).drop 0 := List.prefix_append _ _
  have hdrop : ((point ++ [0]) ++ ((indicator ++ [0]) ++ params)).drop (point.length + 1) =
      (indicator ++ [0]) ++ params := List.drop_left' (by simp)
  have hsecond : indicator ++ [0] <+:
      ((point ++ [0]) ++ ((indicator ++ [0]) ++ params)).drop (point.length + 1) := by
    rw [hdrop]
    exact List.prefix_append _ _
  have hrest : ((point ++ [0]) ++ ((indicator ++ [0]) ++ params)).drop
      (point.length + 1 + (indicator.length + 1)) = params := by
    rw [← List.drop_drop, hdrop]
    exact List.drop_left' (by simp)
  rw [kedrFsimSetIndicatorPayloadGet, CharBuffer.strlen_of_at hfirst hpoint]
  simp only [bind, Except.bind]
  rw [if_neg (by omega), CharBuffer.strlen_of_at hsecond hindicator]
  simp only
  rw [if_neg (by omega), hrest, List.take_of_length_le (by omega)]
  simp only [stringAt, CharBuffer.text_of_at hfirst hpoint,
    CharBuffer.text_of_at hsecond hindicator]

theorem exists_string_of_mem {buf : List UInt8} (h : 0 ∈ buf) :
    ∃ (name : MessageString) (rest : List UInt8), buf = (name.chars ++ [0]) ++ rest := by
  obtain ⟨rest, hrest⟩ := @CharBuffer.at_text buf 0 h
  exact ⟨stringAt buf 0, rest, hrest.symm⟩

theorem count_string (name : MessageString) (rest : List UInt8) :
    ((name.chars ++ [0]) ++ rest).count 0 = rest.count 0 + 1 := by
  rw [List.count_append, List.count_append, List.count_eq_zero.mpr name.noZero]
  simp [Nat.add_comm]

theorem exists_payloadPut_iff (buf : List UInt8) :
    (∃ payload, kedrFsimSetIndicatorPayloadPut payload = buf) ↔ 2 ≤ buf.count 0 := by
  constructor
  · rintro ⟨payload, rfl⟩
    rw [kedrFsimSetIndicatorPayloadPut, count_string, count_string]
    omega
  · intro h
    have hpoint : 0 < buf.count 0 := by omega
    obtain ⟨point, rest, rfl⟩ := exists_string_of_mem (List.count_pos_iff.mp hpoint)
    rw [count_string] at h
    have hindicator : 0 < rest.count 0 := by omega
    obtain ⟨indicator, params, rfl⟩ := exists_string_of_mem (List.count_pos_iff.mp hindicator)
    exact ⟨⟨point, indicator, params⟩, rfl⟩

theorem payloadGet_of_count_lt {buf : List UInt8} (h : buf.count 0 < 2) :
    kedrFsimSetIndicatorPayloadGet buf buf.length = .error .outOfBounds := by
  by_cases hzero : 0 ∈ buf
  · obtain ⟨point, rest, rfl⟩ := exists_string_of_mem hzero
    rw [count_string] at h
    have hfirst : point.chars ++ [0] <+: ((point.chars ++ [0]) ++ rest).drop 0 :=
      List.prefix_append _ _
    have hdrop : ((point.chars ++ [0]) ++ rest).drop (point.chars.length + 1) = rest :=
      List.drop_left' (by simp)
    have hrest : 0 ∉ rest := List.count_eq_zero.mp (by omega)
    have hsecond : strlen ((point.chars ++ [0]) ++ rest) (point.chars.length + 1) =
        .error .outOfBounds := by
      rw [strlen, hdrop, if_neg hrest]
    rw [kedrFsimSetIndicatorPayloadGet, CharBuffer.strlen_of_at hfirst point.noZero]
    simp only [bind, Except.bind]
    rw [if_neg (by simp), hsecond]
  · rw [kedrFsimSetIndicatorPayloadGet, strlen, if_neg (by exact hzero)]
    rfl

theorem exact_iff_count (buf : List UInt8) : Exact buf ↔ 2 ≤ buf.count 0 := by
  constructor
  · rintro ⟨result, hget, -⟩
    by_contra hcount
    rw [payloadGet_of_count_lt (by omega)] at hget
    cases hget
  · intro hcount
    obtain ⟨payload, rfl⟩ := (exists_payloadPut_iff buf).mpr hcount
    exact ⟨some payload, payloadGet_of_put payload,
      ⟨fun _ => ⟨payload, rfl⟩, fun _ => Option.some_ne_none _⟩⟩

/-- What the library writes is read by the kernel, messages are unwrapped without reading behind
them, and payloads are decoded so exactly if they have two zeros. -/
theorem setIndicator_messages_iff (host : ByteOrder.Host) (w : Nat) :
    (∀ (payload : SetIndicatorPayload) (inType : BitVec (8 * 4)) (padding : List UInt8),
      kedrFsimSetIndicatorPayloadLen payload < 2 ^ (8 * w) →
      ∃ message msg,
        scMsgPut host ⟨inType, BitVec.ofNat (8 * w) (kedrFsimSetIndicatorPayloadLen payload),
          kedrFsimSetIndicatorPayloadPut payload⟩ = .ok message ∧
        scMsgGet host w (message ++ padding) (message ++ padding).length = .ok (some msg) ∧
        msg.inType = inType ∧
        kedrFsimSetIndicatorPayloadGet msg.payload msg.payloadLength.toNat =
          .ok (some payload)) ∧
    (∀ buffer, ∃ result, scMsgGet host w buffer buffer.length = .ok result) ∧
    ∀ buf, Exact buf ↔ 2 ≤ buf.count 0 := by
  refine ⟨?_, scMsgGet_inside host w, exact_iff_count⟩
  intro payload inType padding hfits
  have hlength := length_payloadPut payload
  have htoNat : (BitVec.ofNat (8 * w) (kedrFsimSetIndicatorPayloadLen payload)).toNat =
      kedrFsimSetIndicatorPayloadLen payload := by
    rw [BitVec.toNat_ofNat, Nat.mod_eq_of_lt hfits]
  have hput : scMsgPut host
      ⟨inType, BitVec.ofNat (8 * w) (kedrFsimSetIndicatorPayloadLen payload),
        kedrFsimSetIndicatorPayloadPut payload⟩ = .ok _ := if_pos (by rw [htoNat, hlength])
  refine ⟨_, _, hput, scMsgGet_of_put hput padding, rfl, ?_⟩
  dsimp only
  rw [htoNat, List.take_of_length_le (Nat.le_of_eq hlength), ← hlength]
  exact payloadGet_of_put payload

/-- The names "p" and "i" with one byte of parameters. -/
def samplePayload : SetIndicatorPayload := ⟨⟨[112], by decide⟩, ⟨[105], by decide⟩, [7]⟩

/-- A payload with two zeros goes through a message and back. -/
theorem setIndicator_messages_iff_sample :
    ∃ message msg,
      scMsgPut .little ⟨1, BitVec.ofNat (8 * 8) (kedrFsimSetIndicatorPayloadLen samplePayload),
        kedrFsimSetIndicatorPayloadPut samplePayload⟩ = .ok message ∧
      scMsgGet .little 8 (message ++ [0, 0, 0]) (message ++ [0, 0, 0]).length = .ok (some msg) ∧
      msg.inType = 1 ∧
      kedrFsimSetIndicatorPayloadGet msg.payload msg.payloadLength.toNat =
        .ok (some samplePayload) :=
  (setIndicator_messages_iff .little 8).1 samplePayload 1 [0, 0, 0] (by decide)

/-- A payload without a zero. -/
theorem not_exact_unterminated : ¬∀ buf, Exact buf := by
  intro h
  obtain ⟨result, hget, -⟩ := h [112, 49]
  cases hget

end Messages
end FaultSimulation
end KedrAux
