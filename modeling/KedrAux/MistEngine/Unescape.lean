import KedrAux.Lib.While
import KedrAux.MistEngine.MistString

/-!
# Escape sequences in strings

`mist_string_unescape` copies a text by segments: what is between two escape sequences is
copied when the next of them is met.  The result is the one of `stringUnescape`, and it undoes
the escaping of a text.
-/

namespace KedrAux
namespace MistEngine

open CharBuffer
open MistEngine.Parser (stringUnescape)

def chWhat : List UInt8 := [116, 110, 114, 0]

def chTo : List UInt8 := [9, 10, 13, 0]

def nchars : Nat := chWhat.length

/-- The variables of the loop; `beg` and `pos` are offsets in the buffer of the text. -/
structure UnescapeState where
  res : CMistString
  beg : Nat
  pos : Nat

namespace UnescapeState

/-- A round of the loop.  After the `break` the condition of the loop does not hold. -/
def round (buf : List UInt8) (end_ : Nat) (s : UnescapeState) : Except Fault UnescapeState := do
  if (← load buf s.pos) = 92 then
    let res ← s.res.putRange buf s.beg (s.pos - s.beg)
    let pos := s.pos + 1
    if pos = end_ then return ⟨← res.put 92, pos, pos⟩
    else
      let c ← load buf pos
      if c = 92 then return ⟨← res.put 92, pos + 1, pos + 1⟩
      else
        let i := chWhat.findIdx (c = ·)
        if i < nchars then return ⟨← res.put (← load chTo i), pos + 1, pos + 1⟩
        -- an unknown sequence: its character begins a segment
        else return ⟨← res.put 92, pos, pos⟩
  else return { s with pos := s.pos + 1 }

/-- `while (pos < end)` -/
def loop (buf : List UInt8) (end_ : Nat) (s : UnescapeState) : Except Fault UnescapeState :=
  While.run .endless (fun s => .ok (decide (s.pos < end_))) (round buf end_) (buf.length + 1) s

end UnescapeState

def mistStringUnescape (junk : Nat → UInt8) (ms : CMistString) : Except Fault CMistString := do
  ms.assertInside
  let len ← strlen ms.buf ms.str
  if len < 2 then return ms
  else
    let res ← mistStringCreateEmpty junk
    let res ← mistStringReserve junk res len
    let beg := ms.str
    let end_ := beg + len
    let s ← UnescapeState.loop ms.buf end_ ⟨res, beg, beg⟩
    let res ← s.res.putRange ms.buf s.beg (end_ - s.beg)
    res.finish

def escapeLetter (c : UInt8) : Option UInt8 :=
  if c = 9 then some 116
  else if c = 10 then some 110
  else if c = 13 then some 114
  else if c = 92 then some 92
  else none

def escapeChar (c : UInt8) : Str :=
  match escapeLetter c with
  | some l => [92, l]
  | none => [c]

/-- Tabs, newlines, carriage returns and backslashes are replaced by escape sequences. -/
def escape (s : Str) : Str :=
  s.flatMap escapeChar

/-- A text and what is left of it.  From left to right, the four escape sequences are replaced,
and other sequences are left as they are. -/
inductive Unescaped : Str → Str → Prop where
  | nil : Unescaped [] []
  | plain {c : UInt8} {s t : Str} : c ≠ 92 → Unescaped s t → Unescaped (c :: s) (c :: t)
  | sequence {c l : UInt8} {s t : Str} : escapeLetter c = some l → Unescaped s t →
      Unescaped (92 :: l :: s) (c :: t)
  | other {l : UInt8} {s t : Str} : (∀ c, escapeLetter c ≠ some l) → Unescaped s t →
      Unescaped (92 :: l :: s) (92 :: l :: t)
  | last : Unescaped [92] [92]

variable {c l : UInt8} {s : Str}

theorem stringUnescape_plain (h : c ≠ 92) (s : Str) :
    stringUnescape (c :: s) = c :: stringUnescape s := by
  cases s with
  | nil => rfl
  | cons c' s => simp [stringUnescape, h]

theorem stringUnescape_sequence (h : escapeLetter c = some l) (s : Str) :
    stringUnescape (92 :: l :: s) = c :: stringUnescape s := by
  rw [escapeLetter] at h
  split_ifs at h with h1 h2 h3 h4 <;> cases h <;> simp [stringUnescape, *]

theorem escapeLetter_ne_iff :
    (∀ c, escapeLetter c ≠ some l) ↔ l ≠ 92 ∧ l ≠ 116 ∧ l ≠ 110 ∧ l ≠ 114 := by
  constructor
  · intro h
    refine ⟨?_, ?_, ?_, ?_⟩ <;> rintro rfl
    · exact h 92 rfl
    · exact h 9 rfl
    · exact h 10 rfl
    · exact h 13 rfl
  · rintro ⟨h92, h116, h110, h114⟩ c h
    rw [escapeLetter] at h
    split_ifs at h <;> cases h <;> contradiction

theorem stringUnescape_other (h : ∀ c, escapeLetter c ≠ some l) (s : Str) :
    stringUnescape (92 :: l :: s) = 92 :: stringUnescape (l :: s) := by
  obtain ⟨h92, h116, h110, h114⟩ := escapeLetter_ne_iff.mp h
  simp [stringUnescape, h92, h116, h110, h114]

theorem ne_backslash_of_other (h : ∀ c, escapeLetter c ≠ some l) : l ≠ 92 :=
  (escapeLetter_ne_iff.mp h).1

theorem unescaped_iff {t : Str} : Unescaped s t ↔ t = stringUnescape s := by
  constructor
  · intro h
    induction h with
    | nil => rfl
    | plain hc _ ih => rw [stringUnescape_plain hc, ih]
    | sequence hl _ ih => rw [stringUnescape_sequence hl, ih]
    | other hl _ ih =>
      rw [stringUnescape_other hl, stringUnescape_plain (ne_backslash_of_other hl), ih]
    | last => rfl
  · rintro rfl
    induction hn : s.length using Nat.strong_induction_on generalizing s with
    | h n ih =>
      cases s with
      | nil => exact .nil
      | cons c s =>
        rw [List.length_cons] at hn
        by_cases hc : c = 92
        · subst hc
          cases s with
          | nil => exact .last
          | cons l s =>
            have hs := ih s.length (by simp at hn; omega) rfl
            by_cases hl : ∃ c, escapeLetter c = some l
            · obtain ⟨c, hl⟩ := hl
              rw [stringUnescape_sequence hl]
              exact .sequence hl hs
            · rw [not_exists] at hl
              rw [stringUnescape_other hl, stringUnescape_plain (ne_backslash_of_other hl)]
              exact .other hl hs
        · rw [stringUnescape_plain hc]
          exact .plain hc (ih s.length (by omega) rfl)

theorem stringUnescape_escape (s : Str) : stringUnescape (escape s) = s := by
  induction s with
  | nil => rfl
  | cons c s ih =>
    rw [escape, List.flatMap_cons, ← escape, escapeChar]
    cases hl : escapeLetter c with
    | some l => exact (stringUnescape_sequence hl _).trans (congrArg (c :: ·) ih)
    | none =>
      have hc : c ≠ 92 := by
        rintro rfl
        cases hl
      exact (stringUnescape_plain hc _).trans (congrArg (c :: ·) ih)

theorem findIdx_chWhat (hzero : l ≠ 0) (hback : l ≠ 92) :
    (chWhat.findIdx (l = ·) < nchars ∧
      ∃ c, load chTo (chWhat.findIdx (l = ·)) = .ok c ∧ escapeLetter c = some l) ∨
    (¬ chWhat.findIdx (l = ·) < nchars ∧ ∀ c, escapeLetter c ≠ some l) := by
  by_cases h116 : l = 116
  · subst h116
    exact Or.inl ⟨by decide, 9, rfl, rfl⟩
  by_cases h110 : l = 110
  · subst h110
    exact Or.inl ⟨by decide, 10, rfl, rfl⟩
  by_cases h114 : l = 114
  · subst h114
    exact Or.inl ⟨by decide, 13, rfl, rfl⟩
  refine Or.inr ⟨?_, escapeLetter_ne_iff.mpr ⟨hback, h116, h110, h114⟩⟩
  rw [nchars, List.findIdx_lt_length]
  simp [chWhat, h116, h110, h114, hzero]

/-- The text behind `beg` is the segment `seg` and what is left, `rest`; `out` was written. -/
structure Unescapes (src : Str) (end_ size : Nat) (result out seg rest : Str)
    (s : UnescapeState) : Prop where
  at_beg : seg ++ (rest ++ [0]) <+: src.drop s.beg
  pos_eq : s.pos = s.beg + seg.length
  end_eq : end_ = s.pos + rest.length
  no_zero : 0 ∉ seg ++ rest
  writes : s.res.Writes out size
  room : out.length + seg.length + rest.length < size
  result_eq : out ++ seg ++ stringUnescape rest = result

namespace Unescapes

variable {src result out seg rest : Str} {end_ size : Nat} {s : UnescapeState}

theorem at_pos (h : Unescapes src end_ size result out seg rest s) :
    rest ++ [0] <+: src.drop s.pos :=
  h.pos_eq ▸ at_append h.at_beg

variable {c : UInt8}

theorem skip (h : Unescapes src end_ size result out seg (c :: rest) s) (hc : c ≠ 92) :
    Unescapes src end_ size result out (seg ++ [c]) rest { s with pos := s.pos + 1 } := by
  have hend := h.end_eq
  have hroom := h.room
  rw [List.length_cons] at hend hroom
  refine ⟨?_, ?_, ?_, ?_, h.writes, ?_, ?_⟩
  · rw [List.append_assoc]
    exact h.at_beg
  · rw [List.length_append, h.pos_eq]
    rfl
  · dsimp only
    omega
  · rw [List.append_assoc]
    exact h.no_zero
  · rw [List.length_append, List.length_singleton]
    omega
  · rw [← h.result_eq, stringUnescape_plain hc]
    simp

theorem restart (seq : Str) {rest' : Str}
    (h : Unescapes src end_ size result out seg (seq ++ rest') s) (hseq : seq ≠ [])
    {res : CMistString} (hwrites : res.Writes (out ++ seg ++ [c]) size)
    (hresult : stringUnescape (seq ++ rest') = c :: stringUnescape rest') :
    Unescapes src end_ size result (out ++ seg ++ [c]) [] rest'
      ⟨res, s.pos + seq.length, s.pos + seq.length⟩ := by
  have hpos := List.length_pos_iff.mpr hseq
  have hend := h.end_eq
  have hroom := h.room
  have hzero := h.no_zero
  rw [List.length_append] at hend hroom
  refine ⟨?_, rfl, ?_, ?_, hwrites, ?_, ?_⟩
  · have hat := h.at_pos
    rw [List.append_assoc] at hat
    exact at_append hat
  · dsimp only
    omega
  · simp only [List.mem_append, not_or] at hzero
    exact hzero.2.2
  · simp only [List.length_append, List.length_singleton, List.length_nil]
    omega
  · rw [← h.result_eq, hresult]
    simp

theorem putRange (h : Unescapes src end_ size result out seg rest s) :
    ∃ res, s.res.putRange src s.beg (s.pos - s.beg) = .ok res ∧ res.Writes (out ++ seg) size := by
  have hroom := h.room
  have hzero : 0 ∉ seg := fun hmem => h.no_zero (List.mem_append_left _ hmem)
  rw [h.pos_eq, Nat.add_sub_cancel_left]
  exact h.writes.putRange ((List.prefix_append seg _).trans h.at_beg) hzero (by omega)

/-- A round of the loop takes an escape sequence, or what is before the next backslash. -/
theorem round (h : Unescapes src end_ size result out seg (c :: rest) s) :
    ∃ s' out' seg' rest', s.round src end_ = .ok s' ∧ rest'.length ≤ rest.length ∧
      Unescapes src end_ size result out' seg' rest' s' := by
  have hload : load src s.pos = .ok c := load_of_at h.at_pos
  have hroom := h.room
  rw [List.length_cons] at hroom
  by_cases hc : c = 92
  · subst hc
    obtain ⟨res, hrange, hres⟩ := h.putRange
    have hput := hres.put (by rw [List.length_append]; omega)
    cases rest with
    | nil =>
      obtain ⟨res', hlast, hres'⟩ := hput 92
      have hend : s.pos + 1 = end_ := h.end_eq.symm
      refine ⟨⟨res', s.pos + 1, s.pos + 1⟩, _, _, _, ?_, le_rfl,
        restart [92] h (by simp) hres' rfl⟩
      rw [UnescapeState.round, hload]
      simp only [bind, Except.bind, if_true, hrange, hend, hlast]
      rfl
    | cons l rest =>
      have hne : s.pos + 1 ≠ end_ := by
        have hend := h.end_eq
        simp only [List.length_cons] at hend
        omega
      have hload' : load src (s.pos + 1) = .ok l := load_of_at (at_cons h.at_pos)
      have hzero : l ≠ 0 := by
        rintro rfl
        exact h.no_zero (by simp)
      by_cases hback : l = 92
      · subst hback
        obtain ⟨res', hseq, hres'⟩ := hput 92
        refine ⟨⟨res', s.pos + 1 + 1, s.pos + 1 + 1⟩, _, _, rest, ?_, by simp,
          restart [92, 92] h (by simp) hres' (stringUnescape_sequence rfl rest)⟩
        rw [UnescapeState.round, hload]
        simp only [bind, Except.bind, if_true, hrange, hne, if_false, hload', hseq]
        rfl
      · rcases findIdx_chWhat hzero hback with ⟨hi, d, hto, hd⟩ | ⟨hi, hother⟩
        · obtain ⟨res', hseq, hres'⟩ := hput d
          refine ⟨⟨res', s.pos + 1 + 1, s.pos + 1 + 1⟩, _, _, rest, ?_, by simp,
            restart [92, l] h (by simp) hres' (stringUnescape_sequence hd rest)⟩
          rw [UnescapeState.round, hload]
          simp only [bind, Except.bind, if_true, hrange, hne, if_false, hload', hback, hi, hto,
            hseq]
          rfl
        · obtain ⟨res', hseq, hres'⟩ := hput 92
          refine ⟨⟨res', s.pos + 1, s.pos + 1⟩, _, _, l :: rest, ?_, le_rfl,
            restart [92] h (by simp) hres' (stringUnescape_other hother rest)⟩
          rw [UnescapeState.round, hload]
          simp only [bind, Except.bind, if_true, hrange, hne, if_false, hload', hback, hi, hseq]
          rfl
  · refine ⟨_, _, _, rest, ?_, le_rfl, h.skip hc⟩
    rw [UnescapeState.round, hload]
    simp only [bind, Except.bind, hc, if_false]
    rfl

/-- All rounds, by induction on what is left of the text. -/
theorem loop (h : Unescapes src end_ size result out seg rest s) :
    ∃ s' out' seg', s.loop src end_ = .ok s' ∧
      Unescapes src end_ size result out' seg' [] s' := by
  let inv (t : UnescapeState) : Prop := ∃ out seg rest, Unescapes src end_ size result out seg rest t
  have hround : ∀ t, inv t →
      (Except.ok (decide (t.pos < end_)) : Except Fault Bool) = .ok false ∨
      (Except.ok (decide (t.pos < end_)) : Except Fault Bool) = .ok true ∧
        ∃ t', t.round src end_ = .ok t' ∧ inv t' ∧ end_ - t'.pos < end_ - t.pos := by
    rintro t ⟨out, seg, rest, ht⟩
    have hend := ht.end_eq
    cases rest with
    | nil =>
      left
      rw [List.length_nil] at hend
      simp [hend]
    | cons c rest =>
      right
      rw [List.length_cons] at hend
      obtain ⟨t', out', seg', rest', hrun, hle, ht'⟩ := ht.round
      have hend' := ht'.end_eq
      exact ⟨by simp [hend], t', hrun, ⟨out', seg', rest', ht'⟩, by omega⟩
  have hfuel : end_ - s.pos < src.length + 1 := by
    have hle := h.at_pos.length_le
    have hend := h.end_eq
    rw [List.length_append, List.length_drop] at hle
    omega
  obtain ⟨t, hrun, ⟨out', seg', rest', ht⟩, hcond⟩ :=
    While.run_measure .endless (fun t : UnescapeState => .ok (decide (t.pos < end_)))
      (UnescapeState.round src end_) inv (fun t => end_ - t.pos) hround _ s ⟨out, seg, rest, h⟩ hfuel
  have hnil : rest' = [] := by
    have hend := ht.end_eq
    have hge := of_decide_eq_false (Except.ok.inj hcond)
    exact List.eq_nil_of_length_eq_zero (by omega)
  subst hnil
  exact ⟨t, out', seg', hrun, ht⟩

end Unescapes

theorem stringUnescape_of_short (h : s.length < 2) : stringUnescape s = s := by
  match s, h with
  | [], _ => rfl
  | [c], _ => rfl

theorem Unescaped.zero_notMem {t : Str} (hgraph : Unescaped s t) (h : 0 ∉ s) : 0 ∉ t := by
  induction hgraph with
  | nil => exact h
  | plain _ _ ih =>
    rw [List.mem_cons, not_or] at h ⊢
    exact ⟨h.1, ih h.2⟩
  | sequence hl _ ih =>
    simp only [List.mem_cons, not_or] at h ⊢
    refine ⟨?_, ih h.2.2⟩
    rintro rfl
    cases hl
  | other _ _ ih =>
    simp only [List.mem_cons, not_or] at h ⊢
    exact ⟨h.1, h.2.1, ih h.2.2⟩
  | last => exact h

theorem mistStringUnescape_text (junk : Nat → UInt8) (ms : MistString) :
    ∃ ms' : MistString, mistStringUnescape junk ms = .ok ms' ∧
      ms'.val.text = stringUnescape ms.val.text := by
  obtain ⟨ms, hms⟩ := ms
  rw [mistStringUnescape, hms.assertInside_eq, hms.strlen_eq]
  by_cases hshort : ms.text.length < 2
  · refine ⟨⟨ms, hms⟩, ?_, (stringUnescape_of_short hshort).symm⟩
    simp only [bind, Except.bind, if_pos hshort]
    rfl
  · have hempty : ([] : Str) ++ [0] <+: ([0] : Str).drop 0 := List.prefix_rfl
    obtain ⟨new, size0, hcreate, hnew, -, hnew'⟩ :=
      mistStringCreate_valid junk hempty (by simp) (by decide)
    have hlength := hms.length_text
    have hsize := hms.size
    obtain ⟨res, size, hreserve, hwrites, hroom, hsize'⟩ :=
      mistStringReserve_writes junk hnew hnew' (show ms.text.length + 1 < sizeMax by omega)
    have hstart : Unescapes ms.buf (ms.str + ms.text.length) size (stringUnescape ms.text) [] []
        ms.text ⟨res, ms.str, ms.str⟩ :=
      ⟨hms.at_text, rfl, rfl, ms.zero_notMem_text, hwrites, by simpa using hroom, rfl⟩
    obtain ⟨s, out, seg, hloop, hend⟩ := hstart.loop
    -- the last segment
    have hpos : ms.str + ms.text.length = s.pos := by simpa using hend.end_eq
    obtain ⟨res', hrange, hres'⟩ := hend.putRange
    rw [← hpos] at hrange
    have hresult : out ++ seg = stringUnescape ms.text := by
      simpa [stringUnescape] using hend.result_eq
    have hroom' : (out ++ seg).length < size := by
      simpa using hend.room
    obtain ⟨ms', hfinish, hvalid, htext, -⟩ := hres'.finish hroom'
      ((unescaped_iff.mpr hresult).zero_notMem ms.zero_notMem_text) hsize'
    refine ⟨⟨ms', hvalid⟩, ?_, htext.trans hresult⟩
    simp only [bind, Except.bind, if_neg hshort, mistStringCreateEmpty, hcreate, hreserve, hloop,
      hrange, hfinish]

/-- Unescaping comes to its end, it writes to the reserved buffer only, it replaces nothing but
the four sequences, and it undoes the escaping of any text. -/
theorem mistStringUnescape_unescapes (junk : Nat → UInt8) (ms : MistString) :
    ∃ ms' : MistString, mistStringUnescape junk ms = .ok ms' ∧
      Unescaped ms.val.text ms'.val.text ∧
      ∀ s, ms.val.text = escape s → ms'.val.text = s := by
  obtain ⟨ms', hrun, htext⟩ := mistStringUnescape_text junk ms
  refine ⟨ms', hrun, unescaped_iff.mpr htext, fun s hs => ?_⟩
  rw [htext, hs]
  exact stringUnescape_escape s

end MistEngine
end KedrAux
