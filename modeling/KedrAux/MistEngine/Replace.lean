import KedrAux.Lib.Replacement
import KedrAux.Lib.While
import KedrAux.MistEngine.MistString

/-!
# Replacement in strings

`mist_string_replace` goes over a text twice: the occurrences are counted, to reserve a buffer,
and then they are replaced.  In the second pass `ms->str` is moved along the text.
-/

namespace KedrAux
namespace MistEngine

open CharBuffer
open Replacement (Replaces replaces_of_find)

abbrev CStr := { s : Str // 0 ∉ s }

/-- `what` must not be an empty string. -/
abbrev Pattern := { s : Str // 0 ∉ s ∧ s ≠ [] }

structure CountState where
  c : Nat
  pos : Option Nat

/-- `pos != NULL` -/
def CountState.more (s : CountState) : Except Fault Bool :=
  .ok s.pos.isSome

def CountState.round (ms : CMistString) (what : Str) (s : CountState) :
    Except Fault CountState := do
  match s.pos with
  | none => .error .assertion
  | some pos =>
    CharBuffer.assert (ms.str ≤ pos ∧ pos < ms.buf.length)
    return ⟨s.c + 1, ← strstr ms.buf (pos + what.length) what⟩

def countOccurrences (ms : CMistString) (what : Str) : Except Fault Nat := do
  let s ← While.run .endless CountState.more (CountState.round ms what)
    (ms.buf.length + 1) ⟨0, ← strstr ms.buf ms.str what⟩
  return s.c

/-- `len - c * what_len + c * with_len`, of the type `size_t`. -/
def reservedSize (len c whatLen withLen : Nat) : Nat :=
  (((len : Int) - c * whatLen + c * withLen) % (sizeMax : Int)).toNat

/-- The new string, and the offsets of `ms->str` and `pos`. -/
structure ReplaceState where
  ts : CMistString
  str : Nat
  pos : Option Nat

/-- `pos != NULL` -/
def ReplaceState.more (s : ReplaceState) : Except Fault Bool :=
  .ok s.pos.isSome

def ReplaceState.round (buf : List UInt8) (what with_ : Str) (s : ReplaceState) :
    Except Fault ReplaceState := do
  match s.pos with
  | none => .error .assertion
  | some pos =>
    let ts ← s.ts.putRange buf s.str (pos - s.str)
    let ts ← ts.putRange (with_ ++ [0]) 0 with_.length
    let str := pos + what.length
    return ⟨ts, str, ← strstr buf str what⟩

def mistStringReplace (junk : Nat → UInt8) (ms : CMistString) (what with_ : Str) :
    Except Fault CMistString := do
  ms.assertInside
  CharBuffer.assert (what ≠ [])
  let len ← strlen ms.buf ms.str
  let c ← countOccurrences ms what
  if c = 0 then return ms
  else
    let ts ← mistStringCreateEmpty junk
    let ts ← mistStringReserve junk ts (reservedSize len c what.length with_.length)
    let s ← While.run .endless ReplaceState.more (ReplaceState.round ms.buf what with_)
      (ms.buf.length + 1)
      ⟨ts, ms.str, ← strstr ms.buf ms.str what⟩
    -- the remainder of the string
    let ts ← s.ts.putRange ms.buf s.str (← strlen ms.buf s.str)
    ts.assertInside
    ts.finish

section Passes

variable {what with_ s t : Str} {k : Nat}

/-- Where the next occurrence is, from the offset `i` on. -/
def nextPos (what : Str) (i : Nat) (s : Str) : Option Nat :=
  (Substring.find what s).map fun split => i + split.1.length

theorem nextPos_of_not_isInfix (h : ¬ what <:+: s) (i : Nat) : nextPos what i s = none := by
  rw [nextPos, Substring.find_eq_none_iff.mpr h]
  rfl

theorem nextPos_of_noneBefore {before after : Str}
    (h : Substring.NoneBefore what (before ++ what ++ after) before.length) (i : Nat) :
    nextPos what i (before ++ what ++ after) = some (i + before.length) := by
  rw [nextPos, Substring.find_eq_some_iff.mpr ⟨rfl, h⟩]
  rfl

/-- The first loop counts the occurrences. -/
theorem count_run {ms : CMistString} (h : Replaces what with_ s t k) {i c fuel : Nat}
    (hat : s ++ [0] <+: ms.buf.drop i) (hzero : 0 ∉ s) (hi : ms.str ≤ i) (hfuel : k < fuel) :
    While.run .endless CountState.more (CountState.round ms what) fuel
      ⟨c, nextPos what i s⟩ = .ok ⟨c + k, none⟩ := by
  induction h generalizing i c fuel with
  | none hno =>
    obtain ⟨fuel, rfl⟩ := Nat.exists_eq_add_of_lt hfuel
    rw [nextPos_of_not_isInfix hno]
    have hcond : CountState.more ⟨c, none⟩ = .ok false := rfl
    exact While.run_of_false hcond _
  | @some before after t k hbefore _ ih =>
    obtain ⟨fuel, rfl⟩ := Nat.exists_eq_add_of_le' (Nat.one_le_of_lt hfuel)
    have hlength := hat.length_le
    simp only [List.length_append, List.length_singleton, List.length_drop] at hlength
    have hrest : after ++ [0] <+: ms.buf.drop (i + before.length + what.length) := by
      rw [Nat.add_assoc, ← List.length_append]
      exact at_append (by rwa [← List.append_assoc])
    have hzero' : 0 ∉ after := fun hmem => hzero (List.mem_append_right _ hmem)
    have hround : CountState.round ms what ⟨c, some (i + before.length)⟩ =
        .ok ⟨c + 1, nextPos what (i + before.length + what.length) after⟩ := by
      have hinside : ms.str ≤ i + before.length ∧ i + before.length < ms.buf.length := by omega
      simp only [CountState.round, assert_of hinside, bind, Except.bind,
        strstr_of_at hrest hzero' what]
      rfl
    have hcond : CountState.more ⟨c, some (i + before.length)⟩ = .ok true := rfl
    rw [nextPos_of_noneBefore hbefore, While.run_of_true hcond hround,
      ih hrest hzero' (by omega) (by omega), Nat.add_assoc, Nat.add_comm 1 k]

/-- The second loop writes the string with the replacements. -/
theorem replace_run {buf : List UInt8} (hwith : 0 ∉ with_) (h : Replaces what with_ s t k)
    {ts : CMistString} {out : Str} {size i fuel : Nat} (hts : ts.Writes out size)
    (hat : s ++ [0] <+: buf.drop i) (hzero : 0 ∉ s) (hroom : out.length + t.length < size)
    (hfuel : k < fuel) :
    ∃ ts' str out' rest, While.run .endless ReplaceState.more (ReplaceState.round buf what with_)
        fuel ⟨ts, i, nextPos what i s⟩ = .ok ⟨ts', str, none⟩ ∧
      ts'.Writes out' size ∧ rest ++ [0] <+: buf.drop str ∧ 0 ∉ rest ∧
      out' ++ rest = out ++ t := by
  induction h generalizing ts out i fuel with
  | @none s hno =>
    obtain ⟨fuel, rfl⟩ := Nat.exists_eq_add_of_lt hfuel
    rw [nextPos_of_not_isInfix hno]
    have hcond : ReplaceState.more ⟨ts, i, none⟩ = .ok false := rfl
    exact ⟨ts, i, out, s, While.run_of_false hcond _, hts, hat, hzero, rfl⟩
  | @some before after t k hbefore _ ih =>
    obtain ⟨fuel, rfl⟩ := Nat.exists_eq_add_of_le' (Nat.one_le_of_lt hfuel)
    have hfuel' : k < fuel := Nat.lt_of_succ_lt_succ hfuel
    simp only [List.length_append] at hroom
    have hrest : after ++ [0] <+: buf.drop (i + before.length + what.length) := by
      rw [Nat.add_assoc, ← List.length_append]
      exact at_append (by rwa [← List.append_assoc])
    have hbeg : before <+: buf.drop i := by
      rw [List.append_assoc, List.append_assoc] at hat
      exact (List.prefix_append _ _).trans hat
    simp only [List.mem_append, not_or] at hzero
    obtain ⟨⟨hzero1, -⟩, hzero2⟩ := hzero
    obtain ⟨ts1, hput1, hts1⟩ := hts.putRange hbeg hzero1 (by omega)
    have hsrc : with_ <+: (with_ ++ [0]).drop 0 := List.prefix_append with_ [0]
    obtain ⟨ts2, hput2, hts2⟩ := hts1.putRange hsrc hwith (by
      rw [List.length_append]
      omega)
    have hround : ReplaceState.round buf what with_ ⟨ts, i, some (i + before.length)⟩ =
        .ok ⟨ts2, i + before.length + what.length,
          nextPos what (i + before.length + what.length) after⟩ := by
      simp only [ReplaceState.round, bind, Except.bind, Nat.add_sub_cancel_left, hput1, hput2,
        strstr_of_at hrest hzero2 what]
      rfl
    obtain ⟨ts', str, out', rest, hrun, hts', hat', hzero', heq⟩ :=
      ih hts2 hrest hzero2 (by simp only [List.length_append]; omega) hfuel'
    have hcond : ReplaceState.more ⟨ts, i, some (i + before.length)⟩ = .ok true := rfl
    refine ⟨ts', str, out', rest, ?_, hts', hat', hzero', ?_⟩
    · rw [nextPos_of_noneBefore hbefore]
      exact (While.run_of_true hcond hround fuel).trans hrun
    · rw [heq]
      simp only [List.append_assoc]

theorem reservedSize_eq (h : Replaces what with_ s t k) (hfits : t.length < sizeMax) :
    reservedSize s.length k what.length with_.length = t.length := by
  have hlength := h.length_eq
  have hvalue : (s.length : Int) - k * what.length + k * with_.length = t.length := by
    have hcast : (t.length : Int) + k * what.length = s.length + k * with_.length := by
      exact_mod_cast hlength
    omega
  rw [reservedSize, hvalue, Int.emod_eq_of_lt (by omega) (by exact_mod_cast hfits),
    Int.toNat_natCast]

end Passes

section Whole

variable {what : Pattern} {with_ : CStr} {t : Str} {k : Nat}

theorem count_le (h : Replaces what.val with_.val s t k) : k ≤ s.length := by
  have hpos := List.length_pos_iff.mpr what.property.2
  exact (Nat.le_mul_of_pos_right k hpos).trans h.count_mul_le

theorem countOccurrences_eq (ms : MistString) (h : Replaces what.val with_.val ms.val.text t k) :
    countOccurrences ms what = .ok k := by
  obtain ⟨ms, hms⟩ := ms
  have hlength := hms.length_text
  have hk : k ≤ ms.text.length := count_le h
  have hfuel : k < ms.buf.length + 1 := by omega
  have hrun := count_run (c := 0) h hms.at_text ms.zero_notMem_text le_rfl hfuel
  rw [nextPos] at hrun
  simp only [countOccurrences, strstr_of_at hms.at_text ms.zero_notMem_text, bind, Except.bind,
    hrun, Nat.zero_add]
  rfl

theorem mistStringReplace_text (junk : Nat → UInt8) (ms : MistString)
    (h : Replaces what.val with_.val ms.val.text t k) (hfits : t.length + 1 < sizeMax) :
    ∃ ms' : MistString, mistStringReplace junk ms what with_ = .ok ms' ∧ ms'.val.text = t ∧
      (k = 0 → ms' = ms) := by
  have hcount := countOccurrences_eq ms h
  obtain ⟨ms, hms⟩ := ms
  rw [mistStringReplace, hms.assertInside_eq, assert_of what.property.2, hms.strlen_eq, hcount]
  by_cases hk : k = 0
  · subst hk
    exact ⟨⟨ms, hms⟩, rfl, h.eq_of_zero.symm, fun _ => rfl⟩
  · have hempty : ([] : Str) ++ [0] <+: ([0] : Str).drop 0 := List.prefix_rfl
    obtain ⟨new, size0, hcreate, hnew, -, hnew'⟩ :=
      mistStringCreate_valid junk hempty (by simp) (by decide)
    have hsize := reservedSize_eq h (Nat.lt_of_succ_lt hfits)
    obtain ⟨ts, size, hreserve, hwrites, hroom, hsize'⟩ :=
      mistStringReserve_writes junk hnew hnew' hfits
    have hlength := hms.length_text
    have hle : k ≤ ms.text.length := count_le h
    have hfuel : k < ms.buf.length + 1 := by omega
    obtain ⟨ts', str, out, rest, hrun, hts', hat, hzero, hout⟩ :=
      replace_run with_.property h hwrites hms.at_text ms.zero_notMem_text (by simpa using hroom)
        hfuel
    rw [nextPos] at hrun
    rw [List.nil_append] at hout
    have hzero' : 0 ∉ t := by
      intro hmem
      exact (h.mem_or_mem hmem).elim ms.zero_notMem_text with_.property
    have houtlength : out.length + rest.length < size := by
      rw [← List.length_append, hout]
      exact hroom
    obtain ⟨ts'', hput, hts''⟩ := hts'.putRange ((List.prefix_append rest [0]).trans hat) hzero
      houtlength.le
    rw [hout] at hts''
    obtain ⟨ms', hfinish, hvalid, htext, -⟩ := hts''.finish hroom hzero' hsize'
    have hinside : ts''.assertInside = .ok () := by
      refine assert_of ?_
      rw [hts''.str_eq, hts''.size_eq]
      exact hroom
    refine ⟨⟨ms', hvalid⟩, ?_, htext, fun h0 => absurd h0 hk⟩
    simp only [bind, Except.bind, if_neg hk, mistStringCreateEmpty, hcreate, hsize, hreserve,
      strstr_of_at hms.at_text ms.zero_notMem_text, hrun, strlen_of_at hat hzero, hput, hinside,
      hfinish]

/-- The result when it fits in a buffer.  The size that is reserved is the length of the
result, and a text that does not come to `what` is not replaced for another time. -/
theorem mistStringReplace_replaces (junk : Nat → UInt8) (ms : MistString) (what : Pattern)
    (with_ : CStr)
    (hfits : ∀ t c, Replaces what.val with_.val ms.val.text t c → t.length + 1 < sizeMax) :
    ∃ (ms' : MistString) (c : Nat), mistStringReplace junk ms what with_ = .ok ms' ∧
      countOccurrences ms what = .ok c ∧
      Replaces what.val with_.val ms.val.text ms'.val.text c ∧
      c * what.val.length ≤ ms.val.text.length ∧
      reservedSize ms.val.text.length c what.val.length with_.val.length =
        ms'.val.text.length ∧
      (with_.val ≠ [] → (∀ a ∈ with_.val, a ∉ what.val) →
        ¬ what.val <:+: ms'.val.text ∧ mistStringReplace junk ms' what with_ = .ok ms') := by
  obtain ⟨t, c, h⟩ := Replacement.exists_replaces what.property.2 with_.val ms.val.text
  have hlength := hfits t c h
  obtain ⟨ms', hrun, htext, -⟩ := mistStringReplace_text junk ms h hlength
  refine ⟨ms', c, hrun, countOccurrences_eq ms h, htext ▸ h, h.count_mul_le, ?_, ?_⟩
  · rw [htext]
    exact reservedSize_eq h (Nat.lt_of_succ_lt hlength)
  · intro hne hother
    have hno : ¬ what.val <:+: ms'.val.text := htext ▸ h.not_isInfix hne hother
    have hagain : Replaces what.val with_.val ms'.val.text ms'.val.text 0 := .none hno
    obtain ⟨ms'', hrun', -, hsame⟩ := mistStringReplace_text junk ms' hagain (htext ▸ hlength)
    rw [hsame rfl] at hrun'
    exact ⟨hno, hrun'⟩

end Whole

/-- "aba" with "a" replaced by "cc". -/
theorem mistStringReplace_replaces_aba :
    ∃ (ms' : MistString) (c : Nat),
      mistStringReplace (fun _ => 0) ⟨[97, 98, 97, 0], 0⟩ [97] [99, 99] = .ok ms' ∧
      countOccurrences ⟨[97, 98, 97, 0], 0⟩ [97] = .ok c ∧
      Replaces ([97] : Str) [99, 99] [97, 98, 97] ms'.val.text c ∧
      c * 1 ≤ 3 ∧ reservedSize 3 c 1 2 = ms'.val.text.length := by
  let ms : MistString := ⟨⟨[97, 98, 97, 0], 0⟩, ⟨by decide, by decide⟩⟩
  let a : Str := [97]
  have hfirst : Substring.find a [97, 98, 97] = some ([], [98, 97]) := rfl
  have hsecond : Substring.find a [98, 97] = some ([98], []) := rfl
  have hexample : Replaces a [99, 99] [97, 98, 97] [99, 99, 98, 99, 99] 2 :=
    replaces_of_find hfirst (replaces_of_find hsecond (.none (by decide)))
  have hfits : ∀ t c, Replaces a [99, 99] ms.val.text t c → t.length + 1 < sizeMax := by
    intro t c h
    obtain ⟨rfl, -⟩ := h.unique hexample
    decide
  obtain ⟨ms', c, hrun, hcount, hreplaces, hle, hsize, -⟩ :=
    mistStringReplace_replaces (fun _ => 0) ms ⟨[97], by decide, by decide⟩
      ⟨[99, 99], by decide⟩ hfits
  exact ⟨ms', c, hrun, hcount, hreplaces, hle, hsize⟩

/-- A second call changes the result when "ab" is removed from "aabb".  For a result that does
not fit in a buffer, the size that is reserved is too small. -/
theorem mistStringReplace_again :
    (∃ ms' ms'' : CMistString,
      mistStringReplace (fun _ => 0) ⟨[97, 97, 98, 98, 0], 0⟩ [97, 98] [] = .ok ms' ∧
      mistStringReplace (fun _ => 0) ms' [97, 98] [] = .ok ms'' ∧
      ms'.text = [97, 98] ∧ ms''.text = []) ∧
    ∃ (s with_ t : Str) (c : Nat), Replaces [97] with_ s t c ∧
      reservedSize s.length c 1 with_.length < t.length := by
  constructor
  · exact ⟨_, _, rfl, rfl, by decide, by decide⟩
  · obtain ⟨t, h⟩ := Replacement.exists_replaces_replicate (97 : UInt8)
      (List.replicate (2 ^ 31) 98) (2 ^ 33)
    refine ⟨_, _, t, _, h, ?_⟩
    have hlength := h.length_eq
    simp only [List.length_replicate, List.length_singleton] at hlength ⊢
    have hzero : reservedSize (2 ^ 33) (2 ^ 33) 1 (2 ^ 31) = 0 := by decide
    rw [hzero]
    omega

end MistEngine
end KedrAux
