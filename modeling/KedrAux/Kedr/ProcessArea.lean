import KedrAux.Lib.LittleEndian

/-!
# Instrumentation of code areas

The controller goes through the code of the target module and redirects the calls of
the functions of interest (`controller.c`, `do_process_insn` and `do_process_area`).

The instruction decoder of the kernel is a parameter: it gives a description of the
instruction at the beginning of a byte sequence.  Addresses have 64 bits, or 32 on
x86-32, where a sign-extended offset is the offset itself.  Positions are counted from
the beginning of the area, which does not reach the end of the address space; the
messages of the functions are left out.
-/

namespace KedrAux
namespace Kedr

open LittleEndian (Byte overwrite)

/-- The fields of `struct insn` that are used here. -/
structure Insn where
  length : Nat
  opcode : Nat
  /-- `immediate.nbytes`. -/
  immediateNbytes : Nat
  /-- `insn_offset_immediate`. -/
  offsetImmediate : Nat
deriving DecidableEq

abbrev Decoder := List Byte → Insn

/-- `call <offset>`. -/
def callOpcode : Nat := 0xe8

section Addresses

variable {w : Nat}

def callAddrFromOffset (insnAddr : BitVec w) (insnLen : Nat) (offset : BitVec 32) : BitVec w :=
  insnAddr + BitVec.ofNat w insnLen + offset.signExtend w

def callOffsetFromAddr (insnAddr : BitVec w) (insnLen : Nat) (destAddr : BitVec w) : BitVec 32 :=
  (destAddr - (insnAddr + BitVec.ofNat w insnLen)).setWidth 32

/-- One address is within 2 GB of another one. -/
def Near (a b : BitVec w) : Prop :=
  -2 ^ 31 ≤ (b - a).toInt ∧ (b - a).toInt < 2 ^ 31

instance (a b : BitVec w) : Decidable (Near a b) :=
  inferInstanceAs (Decidable (_ ∧ _))

theorem signExtend_setWidth
    {x : BitVec w} (hlower : -2 ^ 31 ≤ x.toInt) (hupper : x.toInt < 2 ^ 31) :
    (x.setWidth 32).signExtend w = x := by
  rcases Nat.le_total w 32 with hw | hw
  · rw [BitVec.signExtend_eq_setWidth_of_le _ hw, BitVec.setWidth_setWidth_of_le x hw,
      BitVec.setWidth_eq]
  · apply BitVec.eq_of_toInt_eq
    have hdvd : 2 ^ 32 ∣ 2 ^ w := Nat.pow_dvd_pow 2 hw
    rw [BitVec.toInt_signExtend_of_le hw, BitVec.toInt_setWidth,
      ← Int.bmod_bmod_of_dvd hdvd, ← BitVec.toInt_eq_toNat_bmod]
    exact Int.bmod_eq_of_le (by omega) (by omega)

theorem callAddrFromOffset_callOffsetFromAddr {insnAddr destAddr : BitVec w} {insnLen : Nat}
    (h : Near (insnAddr + BitVec.ofNat w insnLen) destAddr) :
    callAddrFromOffset insnAddr insnLen (callOffsetFromAddr insnAddr insnLen destAddr) =
      destAddr := by
  rw [callAddrFromOffset, callOffsetFromAddr, signExtend_setWidth h.1 h.2]
  rw [BitVec.add_comm, BitVec.sub_add_cancel]

end Addresses

section Process

variable {w : Nat} (decode : Decoder)
/- `from_funcs` and `to_funcs`. -/
variable (funcs : List (BitVec w × BitVec w)) (kbeg : BitVec w)

def addrOf (pos : Nat) : BitVec w :=
  kbeg + BitVec.ofNat w pos

/--
`do_process_insn` for the instruction at the position `pos`: the memory and the length of
the instruction, or `none` for a failed `BUG_ON`.  An instruction that ends after the
area only gives a warning.
-/
def doProcessInsn (mem : List Byte) (pos : Nat) : Option (List Byte × Nat) :=
  let insn := decode (mem.drop pos)
  if insn.length = 0 then some (mem, 0)
  else if insn.opcode ≠ callOpcode then some (mem, insn.length)
  else if insn.immediateNbytes ≠ 4 then some (mem, insn.length)
  else
    let offset := pos + insn.offsetImmediate
    let addr := callAddrFromOffset (addrOf kbeg pos) insn.length
      (LittleEndian.read 4 (mem.drop offset))
    match funcs.find? fun func => func.1 = addr with
    | none => some (mem, insn.length)
    | some func =>
      if func.2 = 0 then none
      else
        let newOffset := callOffsetFromAddr (addrOf kbeg pos) insn.length func.2
        some (overwrite mem offset (LittleEndian.bytes 4 newOffset), insn.length)

def allZero (mem : List Byte) (pos len : Nat) : Bool :=
  ((mem.drop pos).take len).all fun b => b = 0

def skipZeros (mem : List Byte) (kend pos : Nat) : Nat :=
  pos + (((mem.take kend).drop pos).takeWhile fun b => b = 0).length

/-- The loop of `do_process_area`, with a limit for the number of rounds. -/
def processLoop (kend : Nat) : (limit : Nat) → List Byte → (pos : Nat) → Option (List Byte)
  | 0, _, _ => none
  | limit + 1, mem, pos =>
    if pos + 4 < kend then
      match doProcessInsn decode funcs kbeg mem pos with
      | none => none
      | some (mem, len) =>
        if len = 0 then some mem
        else if kend < pos + len then some mem
        else if allZero mem pos len then
          processLoop kend limit mem (skipZeros mem kend (pos + len))
        else processLoop kend limit mem (pos + len)
    else some mem

/--
`do_process_area` for an area of `size` bytes at the beginning of the memory: the memory
afterwards, or `none` for a failed `BUG_ON` or if the limit is reached.
-/
def doProcessArea (limit : Nat) (mem : List Byte) (size : Nat) : Option (List Byte) :=
  if kbeg = 0 ∨ addrOf kbeg size = 0 then none
  else processLoop decode funcs kbeg size limit mem 0

end Process

/-- The instruction is a `call` with an offset of 32 bits. -/
def Insn.IsCall (insn : Insn) : Prop :=
  insn.opcode = callOpcode ∧ insn.immediateNbytes = 4

instance (insn : Insn) : Decidable insn.IsCall :=
  inferInstanceAs (Decidable (_ ∧ _))

/-- The decoder describes an instruction by its own bytes. -/
structure Decoder.Decodes (decode : Decoder) (insn : List Byte) : Prop where
  own : ∀ rest, decode (insn ++ rest) = decode insn
  length : (decode insn).length = insn.length
  /-- The offset of a call comes last, and its value does not matter. -/
  call : (decode insn).IsCall → (decode insn).offsetImmediate + 4 = insn.length ∧
    (∃ b ∈ insn.take (decode insn).offsetImmediate, b ≠ 0) ∧
    ∀ offset : List Byte, offset.length = 4 →
      decode (insn.take (decode insn).offsetImmediate ++ offset) = decode insn

/-- Two zeros are an instruction that is not a call. -/
def Decoder.TakesZeros (decode : Decoder) : Prop :=
  ∀ rest, (decode (0 :: 0 :: rest)).length = 2 ∧ (decode (0 :: 0 :: rest)).opcode ≠ callOpcode

def Decoder.callTarget {w : Nat} (decode : Decoder) (addr : BitVec w) (insn : List Byte) :
    Option (BitVec w) :=
  if (decode insn).IsCall then
    some (callAddrFromOffset addr (decode insn).length
      (LittleEndian.read 4 (insn.drop (decode insn).offsetImmediate)))
  else none

structure CodeSection (decode : Decoder) where
  insns : List (List Byte)
  padding : Nat
  ne_nil : insns ≠ []
  decodes : ∀ insn ∈ insns, decode.Decodes insn
  not_zeros : ∀ insn ∈ insns, ∃ b ∈ insn, b ≠ 0
  head_ne : insns.flatten.head? ≠ some 0

inductive Piece where
  | insn (bytes : List Byte)
  | zeros (n : Nat)

def Piece.bytes : Piece → List Byte
  | .insn bytes => bytes
  | .zeros n => List.replicate n 0

def CodeSection.pieces {decode : Decoder} (s : CodeSection decode) : List Piece :=
  s.insns.map .insn ++ [.zeros s.padding]

abbrev CodeArea (decode : Decoder) := List (CodeSection decode)

def CodeArea.pieces {decode : Decoder} (area : CodeArea decode) : List Piece :=
  area.flatMap CodeSection.pieces

def CodeArea.bytes {decode : Decoder} (area : CodeArea decode) : List Byte :=
  area.pieces.flatMap Piece.bytes

/--
The functions that are replaced, for an area of the given size: they are different, and
the new ones are in reach from everywhere in the area.
-/
structure ReplTable {w : Nat} (kbeg : BitVec w) (size : Nat) where
  funcs : List (BitVec w × BitVec w)
  nodup : (funcs.map Prod.fst).Nodup
  ne_null : ∀ func ∈ funcs, func.2 ≠ 0
  near : ∀ func ∈ funcs, ∀ pos, pos ≤ size → Near (addrOf kbeg pos) func.2

structure Redirected {w : Nat} (decode : Decoder) (funcs : List (BitVec w × BitVec w))
    (addr : BitVec w) (insn insn' : List Byte) : Prop where
  length_eq : insn'.length = insn.length
  /-- Only the offset changes. -/
  call : ∀ func ∈ funcs, decode.callTarget addr insn = some func.1 →
    decode.callTarget addr insn' = some func.2 ∧
      insn'.take (decode insn).offsetImmediate = insn.take (decode insn).offsetImmediate
  other : (∀ func ∈ funcs, decode.callTarget addr insn ≠ some func.1) → insn' = insn

def PiecesRedirected {w : Nat} (decode : Decoder) (funcs : List (BitVec w × BitVec w))
    (kbeg : BitVec w) : Nat → List Piece → List Byte → Prop
  | _, [], bytes' => bytes' = []
  | pos, .insn insn :: pieces, bytes' => ∃ insn' rest', bytes' = insn' ++ rest' ∧
      Redirected decode funcs (addrOf kbeg pos) insn insn' ∧
      PiecesRedirected decode funcs kbeg (pos + insn.length) pieces rest'
  | pos, .zeros n :: pieces, bytes' => ∃ rest', bytes' = List.replicate n 0 ++ rest' ∧
      PiecesRedirected decode funcs kbeg (pos + n) pieces rest'

/--
No single zero stands between sections, except for the last bytes of the area, which
are not examined.
-/
def CodeArea.InStep {decode : Decoder} : CodeArea decode → Prop
  | [] => True
  | s :: area => (s.padding = 1 → (CodeArea.bytes area).length < 4) ∧ CodeArea.InStep area

section Walk

variable {w : Nat} {decode : Decoder} {funcs : List (BitVec w × BitVec w)} {kbeg : BitVec w}
variable {size : Nat}

theorem addrOf_add (pos len : Nat) : addrOf kbeg pos + BitVec.ofNat w len =
    addrOf kbeg (pos + len) := by
  rw [addrOf, addrOf, BitVec.ofNat_add, BitVec.add_assoc]

variable {pos limit n : Nat} {insn before rest : List Byte}

theorem addrOf_ne_zero (hbeg : kbeg ≠ 0) (hend : kbeg.toNat + pos < 2 ^ w) :
    addrOf kbeg pos ≠ 0 := by
  intro h
  have htoNat := congrArg BitVec.toNat h
  rw [addrOf, BitVec.toNat_add, BitVec.toNat_ofNat, Nat.mod_eq_of_lt (by omega : pos < 2 ^ w),
    Nat.mod_eq_of_lt hend] at htoNat
  have hzero : kbeg.toNat = 0 := by
    simp only [BitVec.ofNat_eq_ofNat, BitVec.toNat_ofNat, Nat.zero_mod] at htoNat
    omega
  exact hbeg (BitVec.eq_of_toNat_eq (by simpa using hzero))

theorem redirected_self {addr : BitVec w}
    (h : ∀ func ∈ funcs, decode.callTarget addr insn ≠ some func.1) :
    Redirected decode funcs addr insn insn where
  length_eq := rfl
  call func hfunc htarget := absurd htarget (h func hfunc)
  other _ := rfl

theorem redirected_call {func : BitVec w × BitVec w} (table : ReplTable kbeg size)
    (hdecodes : decode.Decodes insn) (hcall : (decode insn).IsCall)
    (hsize : pos + insn.length ≤ size) (hfunc : func ∈ table.funcs)
    (htarget : decode.callTarget (addrOf kbeg pos) insn = some func.1) :
    Redirected decode table.funcs (addrOf kbeg pos) insn
      (insn.take (decode insn).offsetImmediate ++ LittleEndian.bytes 4
        (callOffsetFromAddr (addrOf kbeg pos) (decode insn).length func.2)) := by
  obtain ⟨hoffset, -, hsame⟩ := hdecodes.call hcall
  have htake : (insn.take (decode insn).offsetImmediate).length = (decode insn).offsetImmediate := by
    rw [List.length_take]
    omega
  refine ⟨?_, ?_, fun hother => absurd htarget (hother func hfunc)⟩
  · rw [List.length_append, htake, LittleEndian.length_bytes, hoffset]
  · intro func' hfunc' htarget'
    -- there is only one entry for the function
    obtain rfl : func' = func := by
      rw [htarget, Option.some_inj] at htarget'
      exact (List.inj_on_of_nodup_map table.nodup hfunc hfunc' htarget').symm
    refine ⟨?_, by rw [List.take_left' htake]⟩
    rw [Decoder.callTarget, hsame _ (LittleEndian.length_bytes 4 _), if_pos hcall,
      List.drop_left' htake, LittleEndian.read_bytes, callAddrFromOffset_callOffsetFromAddr]
    rw [addrOf_add, hdecodes.length]
    exact table.near _ hfunc _ hsize

theorem doProcessInsn_insn (table : ReplTable kbeg size) (hdecodes : decode.Decodes insn)
    (hnonzero : ∃ b ∈ insn, b ≠ 0) (hsize : before.length + insn.length ≤ size)
    (after : List Byte) :
    ∃ insn', doProcessInsn decode table.funcs kbeg (before ++ (insn ++ after)) before.length =
        some (before ++ (insn' ++ after), insn.length) ∧
      Redirected decode table.funcs (addrOf kbeg before.length) insn insn' ∧
      ∃ b ∈ insn', b ≠ 0 := by
  have hpos : insn.length ≠ 0 := by
    obtain ⟨b, hb, -⟩ := hnonzero
    exact (List.length_pos_of_mem hb).ne'
  rw [doProcessInsn, List.drop_left, hdecodes.own, hdecodes.length]
  simp only [hpos, if_false]
  by_cases hcall : (decode insn).IsCall
  · obtain ⟨hoffset, ⟨b, hb, hne⟩, -⟩ := hdecodes.call hcall
    have hread : LittleEndian.read 4 ((before ++ (insn ++ after)).drop
        (before.length + (decode insn).offsetImmediate)) =
        LittleEndian.read 4 (insn.drop (decode insn).offsetImmediate) := by
      rw [List.drop_length_add_append, List.drop_append_of_le_length (by omega)]
      exact LittleEndian.read_append (by rw [List.length_drop]; omega) after
    have htarget : decode.callTarget (addrOf kbeg before.length) insn =
        some (callAddrFromOffset (addrOf kbeg before.length) insn.length
          (LittleEndian.read 4 (insn.drop (decode insn).offsetImmediate))) := by
      rw [Decoder.callTarget, if_pos hcall, hdecodes.length]
    simp only [hcall.1, hcall.2, ne_eq, not_true_eq_false, if_false, hread]
    cases hfind : table.funcs.find? fun func => func.1 = callAddrFromOffset
        (addrOf kbeg before.length) insn.length
        (LittleEndian.read 4 (insn.drop (decode insn).offsetImmediate)) with
    | none =>
      refine ⟨insn, rfl, redirected_self fun func hfunc heq => ?_, hnonzero⟩
      rw [htarget, Option.some_inj] at heq
      exact List.find?_eq_none.mp hfind func hfunc (by simp [heq])
    | some func =>
      have hfunc := List.mem_of_find?_eq_some hfind
      have hfrom := List.find?_some hfind
      rw [decide_eq_true_eq] at hfrom
      have hredirected := redirected_call table hdecodes hcall hsize hfunc
        (by rw [htarget, hfrom])
      rw [hdecodes.length] at hredirected
      simp only [table.ne_null func hfunc, if_false]
      refine ⟨_, ?_, hredirected, b, List.mem_append_left _ hb, hne⟩
      rw [LittleEndian.overwrite_middle before (by rw [LittleEndian.length_bytes, hoffset])]
  · refine ⟨insn, ?_, redirected_self fun func _ heq => ?_, hnonzero⟩
    · by_cases hopcode : (decode insn).opcode = callOpcode
      · have hnbytes : (decode insn).immediateNbytes ≠ 4 := fun h => hcall ⟨hopcode, h⟩
        simp [hopcode, hnbytes]
      · simp [hopcode]
    · rw [Decoder.callTarget, if_neg hcall] at heq
      cases heq

/-- Pieces that the loop goes through in step. -/
def Walkable (decode : Decoder) : List Piece → Prop
  | [] => True
  | .insn insn :: pieces =>
    decode.Decodes insn ∧ (∃ b ∈ insn, b ≠ 0) ∧ Walkable decode pieces
  | .zeros n :: pieces => (n = 1 → (pieces.flatMap Piece.bytes).length < 4) ∧
      (pieces.flatMap Piece.bytes).head? ≠ some 0 ∧ Walkable decode pieces

theorem piecesRedirected_of_short {pieces : List Piece} (hwalk : Walkable decode pieces)
    (hshort : (pieces.flatMap Piece.bytes).length ≤ 4) (pos : Nat) :
    PiecesRedirected decode funcs kbeg pos pieces (pieces.flatMap Piece.bytes) := by
  induction pieces generalizing pos with
  | nil => rfl
  | cons piece pieces ih =>
    rw [List.flatMap_cons, List.length_append] at hshort
    cases piece with
    | insn insn =>
      obtain ⟨hdecodes, -, hwalk⟩ := hwalk
      refine ⟨insn, _, rfl, redirected_self fun func _ heq => ?_, ih hwalk (by omega) _⟩
      rw [Decoder.callTarget] at heq
      split_ifs at heq with hcall
      obtain ⟨hoffset, ⟨b, hb, -⟩, -⟩ := hdecodes.call hcall
      have hzero : (decode insn).offsetImmediate = 0 := by
        simp only [Piece.bytes] at hshort
        omega
      rw [hzero, List.take_zero] at hb
      cases hb
    | zeros n => exact ⟨_, rfl, ih hwalk.2.2 (by omega) _⟩

theorem processLoop_of_end {mem : List Byte} (hlimit : 0 < limit) (hend : size ≤ pos + 4) :
    processLoop decode funcs kbeg size limit mem pos = some mem := by
  cases limit with
  | zero => cases hlimit
  | succ limit => rw [processLoop, if_neg (Nat.not_lt.mpr hend)]

@[simp] theorem allZero_append (before bytes after : List Byte) :
    allZero (before ++ (bytes ++ after)) before.length bytes.length = bytes.all fun b => b = 0 := by
  rw [allZero, List.drop_left, List.take_left]

theorem skipZeros_append {kend : Nat} (hrest : rest.head? ≠ some 0) (after : List Byte)
    (hpos : before.length = pos) (hend : pos + (n + rest.length) = kend) :
    skipZeros (before ++ (List.replicate n 0 ++ (rest ++ after))) kend pos = pos + n := by
  subst hpos hend
  have htake : (before ++ (List.replicate n 0 ++ (rest ++ after))).take
      (before.length + (n + rest.length)) = before ++ (List.replicate n 0 ++ rest) := by
    rw [← List.append_assoc (List.replicate n 0), ← List.append_assoc before]
    exact List.take_left' (by simp)
  have hstop : rest.takeWhile (fun b => decide (b = 0)) = [] := by
    cases rest with
    | nil => rfl
    | cons b rest =>
      have hb : b ≠ 0 := fun h => hrest (by rw [h, List.head?_cons])
      rw [List.takeWhile_cons_of_neg (by simpa using hb)]
  rw [skipZeros, htake, List.drop_left, List.takeWhile_append_of_pos, hstop]
  · simp
  · intro b hb
    simp [List.eq_of_mem_replicate hb]

theorem processLoop_zeros {after : List Byte} (hzeros : decode.TakesZeros)
    (hrest : rest.head? ≠ some 0)
    (hmore : before.length + 4 < before.length + (n + 2 + rest.length)) :
    processLoop decode funcs kbeg (before.length + (n + 2 + rest.length)) (limit + 1)
        (before ++ (List.replicate (n + 2) 0 ++ (rest ++ after))) before.length =
      processLoop decode funcs kbeg (before.length + (n + 2 + rest.length)) limit
        (before ++ (List.replicate (n + 2) 0 ++ (rest ++ after))) (before.length + (n + 2)) := by
  obtain ⟨hlength, hopcode⟩ := hzeros (List.replicate n 0 ++ (rest ++ after))
  have hinsn : doProcessInsn decode funcs kbeg
      (before ++ (List.replicate (n + 2) 0 ++ (rest ++ after))) before.length =
      some (before ++ (List.replicate (n + 2) 0 ++ (rest ++ after)), 2) := by
    rw [doProcessInsn, List.drop_left, List.replicate_succ, List.replicate_succ, List.cons_append,
      List.cons_append]
    simp only [hlength, hopcode, ne_eq, not_false_eq_true, if_true]
    rfl
  have hall : allZero (before ++ (List.replicate (n + 2) 0 ++ (rest ++ after))) before.length 2 =
      true := by
    rw [allZero, List.drop_left]
    simp [List.replicate_succ]
  have hskip : skipZeros (before ++ (List.replicate (n + 2) 0 ++ (rest ++ after)))
      (before.length + (n + 2 + rest.length)) (before.length + 2) = before.length + (n + 2) := by
    have heq : before ++ (List.replicate (n + 2) 0 ++ (rest ++ after)) =
        (before ++ [0, 0]) ++ (List.replicate n 0 ++ (rest ++ after)) := by
      simp [List.replicate_succ]
    rw [heq, skipZeros_append hrest after (by simp) (by omega)]
    omega
  rw [processLoop, if_pos hmore, hinsn]
  simp only [hall, hskip]
  rw [if_neg (by omega), if_neg (by omega), if_pos trivial]

theorem processLoop_pieces
    {pieces : List Piece} {before : List Byte} {limit : Nat} (hzeros : decode.TakesZeros)
    (table : ReplTable kbeg size) (hwalk : Walkable decode pieces)
    (hsize : before.length + (pieces.flatMap Piece.bytes).length = size)
    (hlimit : (pieces.flatMap Piece.bytes).length < limit) (after : List Byte) :
    ∃ bytes', PiecesRedirected decode table.funcs kbeg before.length pieces bytes' ∧
      processLoop decode table.funcs kbeg size limit
          (before ++ (pieces.flatMap Piece.bytes ++ after)) before.length =
        some (before ++ (bytes' ++ after)) := by
  induction pieces generalizing before limit with
  | nil =>
    refine ⟨[], rfl, processLoop_of_end (by omega) ?_⟩
    simp only [List.flatMap_nil, List.length_nil] at hsize
    omega
  | cons piece pieces ih =>
    by_cases hmore : before.length + 4 < size
    swap
    · exact ⟨_, piecesRedirected_of_short hwalk (by omega) _,
        processLoop_of_end (by omega) (by omega)⟩
    obtain ⟨limit, rfl⟩ : ∃ limit', limit = limit' + 1 := ⟨limit - 1, by omega⟩
    rw [List.flatMap_cons, List.length_append] at hsize hlimit
    rw [List.flatMap_cons, List.append_assoc]
    cases piece with
    | insn insn =>
      obtain ⟨hdecodes, hnonzero, hwalk⟩ := hwalk
      rw [Piece.bytes] at hsize hlimit ⊢
      obtain ⟨insn', hinsn, hredirected, hnonzero'⟩ := doProcessInsn_insn table hdecodes
        hnonzero (by omega : before.length + insn.length ≤ size)
        (pieces.flatMap Piece.bytes ++ after)
      have hlength := hredirected.length_eq
      have hpos : insn.length ≠ 0 := by
        obtain ⟨b, hb, -⟩ := hnonzero
        exact (List.length_pos_of_mem hb).ne'
      obtain ⟨bytes', hbytes', hloop⟩ := @ih (before ++ insn') limit hwalk
        (by rw [List.length_append]; omega) (by omega)
      rw [List.length_append, hlength] at hbytes' hloop
      refine ⟨insn' ++ bytes', ⟨insn', bytes', rfl, hredirected, hbytes'⟩, ?_⟩
      have hall : allZero (before ++ (insn' ++ (pieces.flatMap Piece.bytes ++ after)))
          before.length insn.length = false := by
        rw [← hlength, allZero_append, List.all_eq_false]
        obtain ⟨b, hb, hne⟩ := hnonzero'
        exact ⟨b, hb, by simpa using hne⟩
      rw [processLoop, if_pos hmore, hinsn]
      simp only [hall, hpos, if_false]
      rw [if_neg (by omega), ← List.append_assoc, hloop]
      simp
    | zeros n =>
      obtain ⟨hone, hhead, hwalk⟩ := hwalk
      rw [Piece.bytes] at hsize hlimit ⊢
      rw [List.length_replicate] at hsize hlimit
      obtain ⟨bytes', hbytes', hloop⟩ := @ih (before ++ List.replicate n 0)
        (if n = 0 then limit + 1 else limit) hwalk
        (by rw [List.length_append, List.length_replicate]; omega) (by split_ifs <;> omega)
      rw [List.length_append, List.length_replicate] at hbytes' hloop
      refine ⟨List.replicate n 0 ++ bytes', ⟨bytes', rfl, hbytes'⟩, ?_⟩
      rw [List.append_assoc, List.append_assoc] at hloop
      rw [List.append_assoc, ← hloop]
      match n, hone, hsize, hlimit with
      | 0, _, _, _ => rfl
      | 1, hone, hsize, _ =>
        have hshort := hone rfl
        omega
      | n + 2, _, hsize, _ =>
        subst hsize
        exact processLoop_zeros hzeros hhead hmore

namespace CodeArea

theorem flatMap_bytes_map_insn (insns : List (List Byte)) :
    (insns.map Piece.insn).flatMap Piece.bytes = insns.flatten := by
  rw [List.flatMap_map]
  exact List.flatMap_id'

theorem bytes_cons (s : CodeSection decode) (area : CodeArea decode) :
    CodeArea.bytes (s :: area) =
      s.insns.flatten ++ (List.replicate s.padding 0 ++ CodeArea.bytes area) := by
  rw [bytes, pieces, List.flatMap_cons, CodeSection.pieces, List.flatMap_append,
    List.flatMap_append, flatMap_bytes_map_insn, List.append_assoc, List.flatMap_singleton]
  rfl

theorem head?_bytes_ne (area : CodeArea decode) : area.bytes.head? ≠ some 0 := by
  cases area with
  | nil => exact Option.some_ne_none 0 |>.symm
  | cons s area =>
    rw [bytes_cons]
    cases hinsns : s.insns.flatten with
    | nil =>
      -- an instruction has at least one byte
      obtain ⟨insn, hinsn⟩ := List.exists_mem_of_ne_nil _ s.ne_nil
      obtain ⟨b, hb, -⟩ := s.not_zeros insn hinsn
      have hmem : b ∈ s.insns.flatten := List.mem_flatten.mpr ⟨insn, hinsn, hb⟩
      rw [hinsns] at hmem
      cases hmem
    | cons b bytes =>
      have hhead := s.head_ne
      rw [hinsns] at hhead
      exact hhead

theorem walkable_insns {insns : List (List Byte)} {ps : List Piece}
    (hdecodes : ∀ insn ∈ insns, decode.Decodes insn)
    (hnonzero : ∀ insn ∈ insns, ∃ b ∈ insn, b ≠ 0) (hps : Walkable decode ps) :
    Walkable decode (insns.map .insn ++ ps) := by
  induction insns with
  | nil => exact hps
  | cons insn insns ih =>
    exact ⟨hdecodes insn List.mem_cons_self, hnonzero insn List.mem_cons_self,
      ih (fun insn' h => hdecodes insn' (List.mem_cons_of_mem _ h))
        (fun insn' h => hnonzero insn' (List.mem_cons_of_mem _ h))⟩

theorem InStep.walkable {area : CodeArea decode} (h : area.InStep) :
    Walkable decode area.pieces := by
  induction area with
  | nil => trivial
  | cons s area ih =>
    rw [pieces, List.flatMap_cons, CodeSection.pieces, List.append_assoc]
    exact walkable_insns s.decodes s.not_zeros ⟨h.1, head?_bytes_ne area, ih h.2⟩

end CodeArea

/--
Instrumentation of an area, if the sections are not separated by single zeros: exactly
the calls of the functions of interest are redirected.
-/
theorem doProcessArea_redirects
    (decode : Decoder) (hzeros : decode.TakesZeros) (area : CodeArea decode) (kbeg : BitVec w)
    (table : ReplTable kbeg area.bytes.length) (after : List Byte) (limit : Nat)
    (hbeg : kbeg ≠ 0) (hend : kbeg.toNat + area.bytes.length < 2 ^ w)
    (hlimit : area.bytes.length < limit) (hstep : area.InStep) :
    ∃ bytes', PiecesRedirected decode table.funcs kbeg 0 area.pieces bytes' ∧
      doProcessArea decode table.funcs kbeg limit (area.bytes ++ after) area.bytes.length =
        some (bytes' ++ after) := by
  obtain ⟨bytes', hbytes', hloop⟩ := @processLoop_pieces w decode kbeg area.bytes.length area.pieces
    [] limit hzeros table hstep.walkable (Nat.zero_add _) hlimit after
  refine ⟨bytes', hbytes', ?_⟩
  rw [doProcessArea, if_neg (not_or.mpr ⟨hbeg, addrOf_ne_zero hbeg hend⟩)]
  exact hloop

end Walk

/-- A decoder for `nop`, `add` with two registers and `call`. -/
def tinyDecoder : Decoder
  | [] => ⟨0, 0, 0, 0⟩
  | b :: _ =>
    if b = 0xe8 then ⟨5, callOpcode, 4, 1⟩
    else if b = 0 then ⟨2, 0, 0, 2⟩
    else ⟨1, b.toNat, 0, 1⟩

theorem tinyDecoder_takesZeros : tinyDecoder.TakesZeros := by
  intro rest
  exact ⟨rfl, (by decide : 0 ≠ callOpcode)⟩

theorem tinyDecoder_decodes_nop : tinyDecoder.Decodes [0x90] where
  own _ := rfl
  length := rfl
  call h := absurd h (by decide)

theorem tinyDecoder_decodes_call : tinyDecoder.Decodes [0xe8, 0, 0, 0, 0] where
  own _ := rfl
  length := rfl
  call _ := ⟨rfl, ⟨0xe8, by decide⟩, fun _ _ => rfl⟩

def nopSection (padding : Nat) : CodeSection tinyDecoder where
  insns := [[0x90]]
  padding := padding
  ne_nil := List.cons_ne_nil _ _
  decodes insn h := List.mem_singleton.mp h ▸ tinyDecoder_decodes_nop
  not_zeros insn h := List.mem_singleton.mp h ▸ ⟨0x90, by decide⟩
  head_ne := by decide

def callSection : CodeSection tinyDecoder where
  insns := [[0xe8, 0, 0, 0, 0]]
  padding := 0
  ne_nil := List.cons_ne_nil _ _
  decodes insn h := List.mem_singleton.mp h ▸ tinyDecoder_decodes_call
  not_zeros insn h := List.mem_singleton.mp h ▸ ⟨0xe8, by decide⟩
  head_ne := by decide

/-- The function behind an area of up to 8 bytes is replaced. -/
def tinyTable (size : Nat) (hsize : size ≤ 8) : ReplTable 0x1000#64 size where
  funcs := [(addrOf 0x1000#64 size, 0x2000#64)]
  nodup := List.nodup_singleton _
  ne_null func h := List.mem_singleton.mp h ▸ (by decide : (0x2000#64) ≠ 0)
  near func h pos hpos := by
    have hnear : ∀ pos, pos ≤ 8 → Near (addrOf 0x1000#64 pos) 0x2000#64 := by decide
    rw [List.mem_singleton.mp h]
    exact hnear pos (hpos.trans hsize)

/-- A single zero after `nop` is taken for the beginning of an instruction. -/
theorem doProcessArea_nop_zero_call :
    tinyDecoder.TakesZeros ∧
    doProcessArea tinyDecoder (tinyTable 7 (by decide)).funcs 0x1000#64 8
      (CodeArea.bytes [nopSection 1, callSection]) 7 =
        some (CodeArea.bytes [nopSection 1, callSection]) ∧
    ¬ PiecesRedirected tinyDecoder (tinyTable 7 (by decide)).funcs 0x1000#64 0
      (CodeArea.pieces [nopSection 1, callSection])
      (CodeArea.bytes [nopSection 1, callSection]) := by
  refine ⟨tinyDecoder_takesZeros, by decide, ?_⟩
  rintro ⟨nop', bytes1, heq1, hnop, bytes2, heq2, call', bytes3, heq3, hcall, -⟩
  -- the bytes of the call are where they were
  obtain ⟨-, rfl⟩ := List.append_inj heq1 hnop.length_eq.symm
  obtain ⟨-, rfl⟩ := List.append_inj heq2 rfl
  obtain ⟨rfl, -⟩ := List.append_inj heq3 hcall.length_eq.symm
  have htarget := (hcall.call _ List.mem_cons_self (by decide)).1
  revert htarget
  decide

/-- With two zeros between them, the call is redirected. -/
theorem doProcessArea_redirects_nop_zeros_call :
    ∃ bytes', PiecesRedirected tinyDecoder (tinyTable 8 (by decide)).funcs 0x1000#64 0
        (CodeArea.pieces [nopSection 2, callSection]) bytes' ∧
      doProcessArea tinyDecoder (tinyTable 8 (by decide)).funcs 0x1000#64 9
        (CodeArea.bytes [nopSection 2, callSection] ++ []) 8 = some (bytes' ++ []) :=
  doProcessArea_redirects tinyDecoder tinyDecoder_takesZeros [nopSection 2, callSection] 0x1000#64
    (tinyTable 8 (by decide)) [] 9 (by decide) (by decide) (by decide)
    ⟨fun h => absurd h (by decide), fun h => absurd h (by decide), trivial⟩

end Kedr
end KedrAux
