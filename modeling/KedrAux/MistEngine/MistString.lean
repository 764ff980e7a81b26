import KedrAux.Lib.CharBuffer
import KedrAux.MistEngine.Parser

/-!
# Strings with a buffer

The `CMistString` of `mist_string_utils.c`.  The text begins at `str`, somewhere in the buffer,
and it ends with a zero.

Allocations succeed; a new buffer has any contents.
-/

namespace KedrAux
namespace MistEngine

open CharBuffer

def sizeMax : Nat := 2 ^ 64

def mistInitBufferSize : Nat := 16

/-- `bsize` is the length of the buffer, and `str` an offset in it. -/
structure CMistString where
  buf : List UInt8
  str : Nat
deriving DecidableEq

namespace CMistString

/-- The assertion at the beginning of all functions. -/
def assertInside (ms : CMistString) : Except Fault Unit :=
  CharBuffer.assert (ms.str < ms.buf.length)

/-- `*(ms->str) = c; ++(ms->str);` -/
def put (ms : CMistString) (c : UInt8) : Except Fault CMistString := do
  return ⟨← store ms.buf ms.str c, ms.str + 1⟩

/-- `if (n > 0) { strncpy(ms->str, src, n); ms->str += n; }` -/
def putRange (ms : CMistString) (src : List UInt8) (i n : Nat) : Except Fault CMistString := do
  if 0 < n then return ⟨← CharBuffer.strncpy ms.buf ms.str src i n, ms.str + n⟩
  else return ms

/-- `*(ms->str) = '\0'; ms->str = ms->buf;` -/
def finish (ms : CMistString) : Except Fault CMistString := do
  return ⟨← store ms.buf ms.str 0, 0⟩

end CMistString

section Source

variable (junk : Nat → UInt8)

def mistStringCreateFromRange (src : List UInt8) (beg end_ : Nat) : Except Fault CMistString := do
  CharBuffer.assert (beg ≤ end_)
  let len := end_ - beg
  -- rounded up to a multiple of the initial size
  let bsize := (len + mistInitBufferSize) % sizeMax / mistInitBufferSize * mistInitBufferSize
  let ms : CMistString := ⟨malloc junk bsize, 0⟩
  (← ms.putRange src beg len).finish

def mistStringCreate (src : List UInt8) (i : Nat) : Except Fault CMistString := do
  mistStringCreateFromRange junk src i (i + (← strlen src i))

def mistStringCreateEmpty : Except Fault CMistString :=
  mistStringCreate junk [0] 0

def mistStringReserve (ms : CMistString) (size : Nat) : Except Fault CMistString := do
  ms.assertInside
  let newSize := (size + 1) % sizeMax
  if ms.buf.length < newSize then return ⟨realloc junk ms.buf newSize, ms.str⟩
  else return ms

end Source

namespace CMistString

def text (ms : CMistString) : Str :=
  CharBuffer.text ms.buf ms.str

/-- The text ends in the buffer, and the size of the buffer is a `size_t`. -/
structure Valid (ms : CMistString) : Prop where
  terminated : 0 ∈ ms.buf.drop ms.str
  size : ms.buf.length < sizeMax

end CMistString

abbrev MistString := { ms : CMistString // ms.Valid }

namespace CMistString

variable {ms : CMistString}

theorem zero_notMem_text (ms : CMistString) : 0 ∉ ms.text :=
  CharBuffer.zero_notMem_text ms.buf ms.str

theorem Valid.at_text (h : ms.Valid) : ms.text ++ [0] <+: ms.buf.drop ms.str :=
  CharBuffer.at_text h.terminated

theorem Valid.length_text (h : ms.Valid) : ms.str + ms.text.length < ms.buf.length := by
  have hle := h.at_text.length_le
  rw [List.length_append, List.length_singleton, List.length_drop] at hle
  omega

theorem Valid.assertInside_eq (h : ms.Valid) : ms.assertInside = .ok () := by
  have hlength := h.length_text
  exact assert_of (by omega)

theorem Valid.strlen_eq (h : ms.Valid) : strlen ms.buf ms.str = .ok ms.text.length :=
  strlen_of_at h.at_text ms.zero_notMem_text

/-- The characters `out` were written to a buffer with `size` characters, and `str` is behind
them. -/
structure Writes (ms : CMistString) (out : Str) (size : Nat) : Prop where
  written : out <+: ms.buf
  str_eq : ms.str = out.length
  size_eq : ms.buf.length = size

variable {out seg src : Str} {size : Nat}

theorem Writes.put (h : ms.Writes out size) (hroom : out.length < size) (c : UInt8) :
    ∃ ms', ms.put c = .ok ms' ∧ ms'.Writes (out ++ [c]) size := by
  rw [← h.size_eq] at hroom
  obtain ⟨buf, hstore, hwritten, hlength⟩ := store_of_isPrefix h.written hroom c
  refine ⟨⟨buf, ms.str + 1⟩, ?_, hwritten, ?_, hlength.trans h.size_eq⟩
  · rw [CMistString.put, h.str_eq, hstore]
    rfl
  · simp [h.str_eq]

theorem Writes.putRange (h : ms.Writes out size) {i : Nat} (hsrc : seg <+: src.drop i)
    (hseg : 0 ∉ seg) (hroom : out.length + seg.length ≤ size) :
    ∃ ms', ms.putRange src i seg.length = .ok ms' ∧ ms'.Writes (out ++ seg) size := by
  rw [CMistString.putRange]
  by_cases hpos : 0 < seg.length
  · rw [← h.size_eq] at hroom
    obtain ⟨buf, hcopy, hwritten, hlength⟩ := strncpy_of_isPrefix h.written hsrc hseg hroom
    refine ⟨⟨buf, ms.str + seg.length⟩, ?_, hwritten, ?_, hlength.trans h.size_eq⟩
    · rw [if_pos hpos, h.str_eq, hcopy]
      rfl
    · simp [h.str_eq]
  · rw [if_neg hpos]
    have hnil : seg = [] := List.eq_nil_of_length_eq_zero (Nat.eq_zero_of_not_pos hpos)
    refine ⟨ms, rfl, ?_⟩
    rwa [hnil, List.append_nil]

theorem Writes.finish (h : ms.Writes out size) (hroom : out.length < size) (hout : 0 ∉ out)
    (hsize : size < sizeMax) :
    ∃ ms', ms.finish = .ok ms' ∧ ms'.Valid ∧ ms'.text = out ∧ ms'.Writes [] size := by
  rw [← h.size_eq] at hroom
  obtain ⟨buf, hstore, hwritten, hlength⟩ := store_of_isPrefix h.written hroom 0
  have hstart : out ++ [0] <+: buf.drop 0 := by rwa [List.drop_zero]
  have hsize' := hlength.trans h.size_eq
  refine ⟨⟨buf, 0⟩, ?_, ⟨zero_mem_of_at hstart, hsize'.symm ▸ hsize⟩, text_of_at hstart hout,
    List.nil_prefix, rfl, hsize'⟩
  rw [CMistString.finish, h.str_eq, hstore]
  rfl

end CMistString

theorem mistStringCreate_valid (junk : Nat → UInt8) {src text : Str} {i : Nat}
    (hsrc : text ++ [0] <+: src.drop i) (htext : 0 ∉ text)
    (hlength : text.length + mistInitBufferSize < sizeMax) :
    ∃ ms size, mistStringCreate junk src i = .ok ms ∧ ms.Valid ∧ ms.text = text ∧
      ms.Writes [] size := by
  have hstrlen := strlen_of_at hsrc htext
  let bsize := (text.length + mistInitBufferSize) % sizeMax / mistInitBufferSize *
    mistInitBufferSize
  have hbsize : text.length < bsize ∧ bsize < sizeMax := by
    have hmod := Nat.mod_eq_of_lt hlength
    dsimp only [bsize]
    rw [hmod]
    dsimp only [mistInitBufferSize] at hlength ⊢
    omega
  have hnew : CMistString.Writes ⟨malloc junk bsize, 0⟩ [] bsize :=
    ⟨List.nil_prefix, rfl, length_malloc junk bsize⟩
  obtain ⟨ms, hput, hwrites⟩ := hnew.putRange ((List.prefix_append text [0]).trans hsrc) htext
    (by simpa using hbsize.1.le)
  obtain ⟨ms', hfinish, hvalid, htext', hnew'⟩ := hwrites.finish hbsize.1 htext hbsize.2
  refine ⟨ms', bsize, ?_, hvalid, htext', hnew'⟩
  rw [mistStringCreate, hstrlen]
  change mistStringCreateFromRange junk src i (i + text.length) = .ok ms'
  rw [mistStringCreateFromRange, CharBuffer.assert_of (Nat.le_add_right i _)]
  simp only [Nat.add_sub_cancel_left]
  change ((⟨malloc junk bsize, 0⟩ : CMistString).putRange src i text.length >>=
    CMistString.finish) = _
  rw [hput]
  exact hfinish

theorem mistStringReserve_writes (junk : Nat → UInt8) {ms : CMistString} {size n : Nat}
    (h : ms.Valid) (hnew : ms.Writes [] size) (hn : n + 1 < sizeMax) :
    ∃ ms' size', mistStringReserve junk ms n = .ok ms' ∧ ms'.Writes [] size' ∧ n < size' ∧
      size' < sizeMax := by
  rw [mistStringReserve, h.assertInside_eq, Nat.mod_eq_of_lt hn]
  by_cases hlt : ms.buf.length < n + 1
  · refine ⟨⟨realloc junk ms.buf (n + 1), ms.str⟩, n + 1, ?_, ?_, Nat.lt_succ_self n, hn⟩
    · simp only [bind, Except.bind, if_pos hlt]
      rfl
    · exact ⟨List.nil_prefix, hnew.str_eq, length_realloc junk ms.buf (n + 1)⟩
  · refine ⟨ms, size, ?_, hnew, ?_, hnew.size_eq ▸ h.size⟩
    · simp only [bind, Except.bind, if_neg hlt]
      rfl
    · rw [← hnew.size_eq]
      omega

end MistEngine
end KedrAux
