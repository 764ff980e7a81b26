import KedrAux.Lib.Lockstep
import KedrAux.MistEngine.Template

/-!
# Values of templates

The values of a template and of a conditional placeholder as functions of the values that they
are made from.  The construction in buffers gives these values, and it stays within the buffers.
-/

namespace KedrAux
namespace MistEngine

open ErrorCodes

/-- The value with the given number, or the last one when there are less values. -/
def pick (vals : List Str) (i : Nat) : Str :=
  Lockstep.clamp vals i

variable {vals : List Str} {s : State} {size : Nat} {buf : Str}

theorem pick_of_lt {i : Nat} {val : Str} (h : vals[i]? = some val) : pick vals i = val := by
  have hlt : i < vals.length := (List.getElem?_eq_some_iff.mp h).1
  refine Lockstep.clamp_eq_of_getElem? ?_
  rw [Nat.min_eq_left (by omega), h]

@[simp] theorem pick_nil (i : Nat) : pick [] i = [] :=
  rfl

theorem pick_of_le {i : Nat} (h : vals.length ≤ i + 1) : pick vals (i + 1) = pick vals i := by
  rw [pick, pick, Lockstep.clamp, Lockstep.clamp, Nat.min_eq_right (by omega),
    Nat.min_eq_right (by omega)]

theorem pick_mem (h : vals ≠ []) (i : Nat) : pick vals i ∈ vals :=
  Lockstep.clamp_mem h i

/-- What a placeholder contributes to the values of its template. -/
structure Column where
  sep : Option Str
  vals : List Str

/-- The text of a placeholder in the value with the given number. -/
def Column.text (c : Column) (i : Nat) : Str :=
  match c.sep with
  | some sep => sep.intercalate c.vals
  | none => pick c.vals i

/-- The number of values that a placeholder asks for. -/
def Column.count (c : Column) : Nat :=
  match c.sep with
  | some _ => 0
  | none => c.vals.length

def numValues (cs : List Column) : Nat :=
  cs.foldl (fun num c => max num c.count) 1

/-- A value of a template: its string chunks with the texts of the placeholders between them. -/
def valueAt (sch : List Str) (cs : List Column) (i : Nat) : Str :=
  match sch with
  | [] => []
  | sch0 :: sch => sch0 ++ (cs.zip sch).flatMap fun p => p.1.text i ++ p.2

def templateValues (sch : List Str) (cs : List Column) : List Str :=
  (List.range (numValues cs)).map (valueAt sch cs)

theorem le_foldl_count (cs : List Column) (num : Nat) :
    num ≤ cs.foldl (fun num c => max num c.count) num ∧
      ∀ c ∈ cs, c.count ≤ cs.foldl (fun num c => max num c.count) num := by
  induction cs generalizing num with
  | nil => exact ⟨Nat.le_refl _, fun c hc => (by cases hc)⟩
  | cons c cs ih =>
    obtain ⟨hnum, hcs⟩ := ih (max num c.count)
    refine ⟨(Nat.le_max_left _ _).trans hnum, fun c' hc' => ?_⟩
    rcases List.mem_cons.mp hc' with rfl | hc'
    · exact (Nat.le_max_right _ _).trans hnum
    · exact hcs c' hc'

theorem one_le_numValues (cs : List Column) : 1 ≤ numValues cs :=
  (le_foldl_count cs 1).1

theorem count_le_numValues {cs : List Column} {c : Column} (h : c ∈ cs) : c.count ≤ numValues cs :=
  (le_foldl_count cs 1).2 c h

@[simp] theorem templateValues_ne_nil (sch : List Str) (cs : List Column) : templateValues sch cs ≠ [] := by
  have hpos := one_le_numValues cs
  rw [templateValues, Ne, List.map_eq_nil_iff, List.range_eq_nil]
  omega

/-- The branch of a conditional placeholder that a condition selects. -/
def branchFor (thenVals elseVals : List Str) (c : Str) : List Str :=
  if c.length ≠ 0 then thenVals else elseVals

/-- The number of values of a conditional placeholder: of its conditions, or of a branch that is
selected by one of them. -/
def numSelected (thenVals elseVals : List Str) (conds : List Str) : Nat :=
  conds.foldl (fun num c => max num (branchFor thenVals elseVals c).length) conds.length

/-- The values of a conditional placeholder that is not a concat-expression. -/
def selectedValues (thenVals elseVals : List Str) (conds : List Str) : List Str :=
  (List.range (numSelected thenVals elseVals conds)).map fun i =>
    pick (branchFor thenVals elseVals (pick conds i)) i

def Column.maxLength (c : Column) : Nat :=
  match c.sep with
  | some sep => (sep.intercalate c.vals).length
  | none => c.vals.foldl (fun len val => max len val.length) 0

theorem le_foldl_length (vals : List Str) (len : Nat) :
    len ≤ vals.foldl (fun len val => max len val.length) len ∧
      ∀ val ∈ vals, val.length ≤ vals.foldl (fun len val => max len val.length) len := by
  induction vals generalizing len with
  | nil => exact ⟨Nat.le_refl _, fun val hval => (by cases hval)⟩
  | cons val vals ih =>
    obtain ⟨hlen, hvals⟩ := ih (max len val.length)
    refine ⟨(Nat.le_max_left _ _).trans hlen, fun val' hval' => ?_⟩
    rcases List.mem_cons.mp hval' with rfl | hval'
    · exact (Nat.le_max_right _ _).trans hlen
    · exact hvals val' hval'

theorem Column.length_text_le (c : Column) (i : Nat) : (c.text i).length ≤ c.maxLength := by
  obtain ⟨sep, vals⟩ := c
  cases sep with
  | some sep => exact Nat.le_refl _
  | none =>
    by_cases hvals : vals = []
    · subst hvals
      exact Nat.zero_le _
    · exact (le_foldl_length vals 0).2 _ (pick_mem hvals i)

theorem intercalate_cons (sep val : Str) (vals : List Str) :
    sep.intercalate (val :: vals) = val ++ vals.flatMap fun val => sep ++ val := by
  induction vals generalizing val with
  | nil => simp
  | cons val' vals ih =>
    rw [List.intercalate_cons_cons, ih val', List.flatMap_cons, List.append_assoc,
      List.append_assoc]

theorem length_intercalate (sep val : Str) (vals : List Str) :
    (sep.intercalate (val :: vals)).length =
      stringTotalLength (val :: vals) + vals.length * sep.length := by
  rw [intercalate_cons]
  induction vals with
  | nil => simp [stringTotalLength]
  | cons val' vals ih =>
    simp only [stringTotalLength, List.map_cons, List.sum_cons, List.length_cons,
      List.length_append, List.flatMap_cons] at ih ⊢
    linarith

def Cell.column (ph : Cell) (s : State) : Column :=
  ⟨ph.sep, (s.tpl ph.tpl).vals⟩

theorem assert_true {p : Prop} [Decidable p] (h : p) : assert p = .ok () :=
  if_pos h

theorem placeholderMaxLength_eq {ph : Cell} (h : (s.tpl ph.tpl).isEvaluated = true) :
    placeholderMaxLength s ph = .ok (ph.column s).maxLength := by
  have hmax : ∀ (vals : List Str),
      vals.foldl (fun len val => if len < val.length then val.length else len) 0 =
        vals.foldl (fun len val => max len val.length) 0 := by
    intro vals
    congr 1
    funext len val
    split_ifs <;> omega
  obtain ⟨sep, a⟩ := ph
  rw [placeholderMaxLength, assert_true h, Cell.column, Column.maxLength]
  cases sep with
  | none =>
    simp only [hmax]
    cases (s.tpl a).vals <;> rfl
  | some sep =>
    cases hvals : (s.tpl a).vals with
    | nil => rfl
    | cons val vals =>
      simp only [length_intercalate]
      rfl

theorem templateMaxLength_eq {phs : List Cell}
    (h : ∀ ph ∈ phs, (s.tpl ph.tpl).isEvaluated = true) (sch : List Str) :
    templateMaxLength s sch phs =
      .ok (stringTotalLength sch + (phs.map fun ph => (ph.column s).maxLength).sum) := by
  rw [templateMaxLength]
  generalize stringTotalLength sch = len
  induction phs generalizing len with
  | nil => rfl
  | cons ph phs ih =>
    have hph := placeholderMaxLength_eq (h ph List.mem_cons_self)
    have ih := ih (fun ph' hph' => h ph' (List.mem_cons_of_mem _ hph'))
      (len + (ph.column s).maxLength)
    rw [List.foldlM_cons, hph, List.map_cons, List.sum_cons, ← Nat.add_assoc]
    exact ih

theorem templateNumValues_eq (s : State) (phs : List Cell) :
    templateNumValues s phs = numValues (phs.map fun ph => ph.column s) := by
  rw [templateNumValues, numValues, List.foldl_map]
  congr 1
  funext num ph
  obtain ⟨sep, a⟩ := ph
  cases sep with
  | none =>
    simp only [Cell.column, Column.count, if_true]
    split_ifs <;> omega
  | some sep => simp [Cell.column, Column.count]

theorem appendString_eq {str : Str} (h : buf.length + str.length ≤ size) :
    appendString size buf str = .ok (buf ++ str) := by
  rw [appendString]
  split_ifs with hstr
  · rw [List.length_eq_zero_iff.mp hstr, List.append_nil]
  · rfl

/-- The strings in all buffers, given by the number of the value. -/
def strings (text : Nat → Str) (from' n : Nat) : List Str :=
  (List.range' from' n).map text

theorem strings_succ (text : Nat → Str) (from' n : Nat) :
    strings text from' (n + 1) = text from' :: strings text (from' + 1) n := by
  rw [strings, List.range'_succ, List.map_cons, strings]

theorem mapM_strings
    {f : Str → Except Stop Str} {text text' : Nat → Str} (h : ∀ i, f (text i) = .ok (text' i))
    (from' n : Nat) :
    (strings text from' n).mapM f = .ok (strings text' from' n) := by
  induction n generalizing from' with
  | zero => rfl
  | succ n ih =>
    rw [strings_succ, List.mapM_cons, h, ih, strings_succ]
    rfl

theorem copyString_eq
    (size : Nat) (text : Nat → Str) (str : Str) (h : ∀ i, (text i).length + str.length ≤ size)
    (from' n : Nat) :
    copyString size (strings text from' n) str =
      .ok (strings (fun i => text i ++ str) from' n) :=
  mapM_strings (f := fun buf => appendString size buf str) (fun i => appendString_eq (h i)) from' n

theorem copyEach_eq {text : Nat → Str} (h : ∀ i, (text i).length + (pick vals i).length ≤ size)
    {k : Nat} (hk : k ≠ 0 ∨ vals ≠ []) (last : Str) (hlast : k ≠ 0 → last = pick vals (k - 1))
    (n : Nat) :
    copyEach size (strings text k n) (vals.drop k) last =
      .ok (strings (fun i => text i ++ pick vals i) k n) := by
  induction n generalizing k last with
  | zero => rfl
  | succ n ih =>
    have hnext : pick vals (k + 1 - 1) = pick vals k := rfl
    rw [strings_succ, strings_succ]
    cases hval : vals[k]? with
    | some val =>
      obtain ⟨hlt, hget⟩ := List.getElem?_eq_some_iff.mp hval
      have hpick := pick_of_lt hval
      have hrest := ih (k := k + 1) (Or.inl (Nat.succ_ne_zero k)) val
        fun _ => by rw [hnext, hpick]
      rw [List.drop_eq_getElem_cons hlt, hget, copyEach, appendString_eq (by rw [← hpick]; exact h k),
        hpick]
      simp only [hrest]
      rfl
    | none =>
      have hle : vals.length ≤ k := List.getElem?_eq_none_iff.mp hval
      have hzero : k ≠ 0 := by
        rcases hk with hk | hk
        · exact hk
        · have := List.length_pos_of_ne_nil hk
          omega
      obtain ⟨j, rfl⟩ : ∃ j, k = j + 1 := ⟨k - 1, by omega⟩
      have hpick : last = pick vals (j + 1) := by
        rw [hlast hzero, pick_of_le hle]
        rfl
      have hrest := ih (k := j + 1 + 1) (Or.inl (Nat.succ_ne_zero _)) last
        fun _ => hpick
      rw [List.drop_eq_nil_of_le (by omega)] at hrest
      have hcopy : appendString size (text (j + 1)) last = .ok (text (j + 1) ++ last) :=
        appendString_eq (hpick ▸ h (j + 1))
      rw [List.drop_eq_nil_of_le hle, copyEach, hcopy, ← hpick]
      simp only [hrest]
      rfl

theorem foldlM_join {sep : Str}
    (h : buf.length + (vals.flatMap fun val => sep ++ val).length ≤ size) :
    vals.foldlM (fun buf val => do
      let buf ← appendString size buf sep
      appendString size buf val) buf = .ok (buf ++ vals.flatMap fun val => sep ++ val) := by
  induction vals generalizing buf with
  | nil => simp [pure, Except.pure]
  | cons val vals ih =>
    simp only [List.flatMap_cons, List.length_append] at h
    have hsep : appendString size buf sep = .ok (buf ++ sep) := appendString_eq (by omega)
    have hval : appendString size (buf ++ sep) val = .ok (buf ++ sep ++ val) :=
      appendString_eq (by rw [List.length_append]; omega)
    have hlength : (buf ++ sep ++ val).length +
        (vals.flatMap fun val => sep ++ val).length ≤ size := by
      simp only [List.length_append]
      omega
    have ih := ih hlength
    rw [List.foldlM_cons, hsep, ok_bind, hval, ok_bind, ih, List.flatMap_cons]
    simp only [List.append_assoc]

theorem placeholderJoinValues_eq {sep : Str}
    (h : buf.length + (sep.intercalate vals).length ≤ size) :
    placeholderJoinValues size vals sep buf = .ok (buf ++ sep.intercalate vals) := by
  cases vals with
  | nil => simp [placeholderJoinValues]
  | cons val vals =>
    rw [intercalate_cons, List.length_append] at h
    have hval : appendString size buf val = .ok (buf ++ val) := appendString_eq (by omega)
    have hlength : (buf ++ val).length + (vals.flatMap fun val => sep ++ val).length ≤ size := by
      rw [List.length_append]
      omega
    have hrest := foldlM_join hlength
    rw [placeholderJoinValues, hval, intercalate_cons, ← List.append_assoc]
    exact hrest

theorem copyPlaceholderValues_eq {ph : Cell} {n : Nat} (text : Nat → Str) (hn : n ≠ 0)
    (hcount : (ph.column s).count ≤ n)
    (h : ∀ i, (text i).length + ((ph.column s).text i).length ≤ size) :
    copyPlaceholderValues s size (strings text 0 n) ph =
      .ok (strings (fun i => text i ++ (ph.column s).text i) 0 n) := by
  obtain ⟨sep, a⟩ := ph
  simp only [Cell.column, Column.count, Column.text] at hcount h ⊢
  rw [copyPlaceholderValues]
  cases hvals : (s.tpl a).vals with
  | nil =>
    rw [hvals] at h
    cases sep with
    | none => simp [pick_nil]
    | some sep => simp
  | cons val vals =>
    rw [← hvals, if_neg (by rw [hvals]; exact Nat.succ_ne_zero _)]
    cases sep with
    | none =>
      have hlength : (strings text 0 n).length = n := by
        rw [strings, List.length_map, List.length_range']
      have hcopy := copyEach_eq (k := 0) h (Or.inr (by rw [hvals]; exact List.cons_ne_nil _ _)) []
        (fun hzero => absurd rfl hzero) n
      rw [List.drop_zero] at hcopy
      simp only [assert_true (show (s.tpl a).vals.length ≤ (strings text 0 n).length by
        rw [hlength]; exact hcount), ok_bind, hcopy]
    | some sep =>
      obtain ⟨m, rfl⟩ : ∃ m, n = m + 1 := ⟨n - 1, by omega⟩
      have hjoin := placeholderJoinValues_eq (h 0)
      have hcopy := copyString_eq size text (sep.intercalate (s.tpl a).vals) h (0 + 1) m
      simp only [strings_succ, hjoin, ok_bind, List.drop_left, hcopy]
      rfl

theorem foldlM_copy (size : Nat) {n : Nat} (hn : n ≠ 0) (pairs : List (Cell × Str))
    (text : Nat → Str) (hcount : ∀ p ∈ pairs, (p.1.column s).count ≤ n) (len : Nat)
    (htext : ∀ i, (text i).length ≤ len)
    (hsize : len + (pairs.map fun p => (p.1.column s).maxLength + p.2.length).sum ≤ size) :
    pairs.foldlM (fun pos p => do
        let pos ← copyPlaceholderValues s size pos p.1
        copyString size pos p.2) (strings text 0 n) =
      .ok (strings (fun i => text i ++ pairs.flatMap fun p => (p.1.column s).text i ++ p.2) 0 n) := by
  induction pairs generalizing text len with
  | nil => simp [pure, Except.pure]
  | cons p pairs ih =>
    simp only [List.map_cons, List.sum_cons] at hsize
    have hle : ∀ i, ((p.1.column s).text i).length ≤ (p.1.column s).maxLength :=
      (p.1.column s).length_text_le
    have hbound : ∀ i, (text i).length + ((p.1.column s).text i).length ≤ size := by
      intro i
      have := htext i
      have := hle i
      omega
    have hlength : ∀ i, (text i ++ (p.1.column s).text i).length + p.2.length ≤
        len + ((p.1.column s).maxLength + p.2.length) := by
      intro i
      have := htext i
      have := hle i
      rw [List.length_append]
      omega
    have hvals := copyPlaceholderValues_eq text hn (hcount p List.mem_cons_self) hbound
    have hchunk := copyString_eq size (fun i => text i ++ (p.1.column s).text i) p.2
      (fun i => (hlength i).trans (by omega)) 0 n
    have ih := ih (fun i => text i ++ (p.1.column s).text i ++ p.2)
      (fun q hq => hcount q (List.mem_cons_of_mem _ hq))
      (len + ((p.1.column s).maxLength + p.2.length))
      (fun i => (List.length_append).le.trans (hlength i)) (by omega)
    rw [List.foldlM_cons, hvals, ok_bind, hchunk, ok_bind, ih]
    simp only [List.flatMap_cons, List.append_assoc]

theorem sum_pairs
    {α : Type} (f : α → Nat) (phs : List α) (sch : List Str) (h : sch.length = phs.length) :
    ((phs.zip sch).map fun p => f p.1 + p.2.length).sum =
      stringTotalLength sch + (phs.map f).sum := by
  induction phs generalizing sch with
  | nil =>
    rw [List.length_eq_zero_iff.mp h]
    rfl
  | cons ph phs ih =>
    obtain ⟨str, sch, rfl⟩ := List.exists_cons_of_length_eq_add_one h
    have ih := ih sch (Nat.succ.inj h)
    simp only [stringTotalLength, List.zip_cons_cons, List.map_cons, List.sum_cons] at ih ⊢
    omega

theorem length_valueAt_le
    {sch : List Str} {cs : List Column} (h : sch.length = cs.length + 1) (i : Nat) :
    (valueAt sch cs i).length ≤ stringTotalLength sch + (cs.map Column.maxLength).sum := by
  obtain ⟨sch0, sch, rfl⟩ := List.exists_cons_of_length_eq_add_one h
  have hsum := sum_pairs Column.maxLength cs sch (Nat.succ.inj h)
  have hle : ((cs.zip sch).flatMap fun p => p.1.text i ++ p.2).length ≤
      ((cs.zip sch).map fun p => p.1.maxLength + p.2.length).sum := by
    rw [List.length_flatMap]
    refine List.sum_le_sum fun p _ => ?_
    have := p.1.length_text_le i
    rw [List.length_append]
    omega
  simp only [valueAt, stringTotalLength, List.map_cons, List.sum_cons, List.length_append] at hsum ⊢
  omega

theorem constructValues_eq {sch : List Str} {phs : List Cell}
    (hlength : sch.length = phs.length + 1) :
    constructValues s (stringTotalLength sch + (phs.map fun ph => (ph.column s).maxLength).sum)
        (numValues (phs.map fun ph => ph.column s)) sch phs =
      .ok (templateValues sch (phs.map fun ph => ph.column s)) := by
  have hn : numValues (phs.map fun ph => ph.column s) ≠ 0 :=
    Nat.one_le_iff_ne_zero.mp (one_le_numValues _)
  have hcount : ∀ ph ∈ phs, (ph.column s).count ≤ numValues (phs.map fun ph => ph.column s) :=
    fun ph hph => count_le_numValues (List.mem_map_of_mem hph)
  have hvalue := length_valueAt_le (show sch.length = (phs.map fun ph => ph.column s).length + 1 by
    rw [List.length_map]; exact hlength)
  rw [List.map_map] at hvalue
  rw [templateValues, List.range_eq_range']
  generalize numValues (phs.map fun ph => ph.column s) = n at hn hcount ⊢
  obtain ⟨sch0, sch, rfl⟩ := List.exists_cons_of_length_eq_add_one hlength
  have hsum := sum_pairs (fun ph : Cell => (ph.column s).maxLength) phs sch (Nat.succ.inj hlength)
  have htotal : stringTotalLength (sch0 :: sch) = sch0.length + stringTotalLength sch := rfl
  have hreplicate : List.replicate n ([] : Str) = strings (fun _ => []) 0 n := by
    rw [strings, List.map_const', List.length_range']
  have hfirst := copyString_eq (stringTotalLength (sch0 :: sch) +
    (phs.map fun ph => (ph.column s).maxLength).sum + 1) (fun _ => []) sch0
    (fun _ => by rw [List.length_nil]; omega) 0 n
  have hrest := foldlM_copy (stringTotalLength (sch0 :: sch) +
    (phs.map fun ph => (ph.column s).maxLength).sum + 1) hn (phs.zip sch)
    (fun _ => [] ++ sch0) (fun p hp => hcount p.1 (List.of_mem_zip hp).1) sch0.length
    (fun _ => Nat.le_refl _) (by rw [hsum]; omega)
  rw [constructValues, hreplicate, hfirst, ok_bind, hrest, ok_bind]
  refine mapM_strings (fun i => ?_) 0 n
  have hi := hvalue i
  have htext : valueAt (sch0 :: sch) (phs.map fun ph => ph.column s) i =
      [] ++ sch0 ++ (phs.zip sch).flatMap fun p => (p.1.column s).text i ++ p.2 := by
    rw [valueAt, List.zip_map_left, List.flatMap_map]
    rfl
  rw [htext] at hi ⊢
  exact if_pos (Nat.succ_le_succ hi)

theorem getElem?_pick (h : vals ≠ []) (i : Nat) :
    vals[if i < vals.length then i else vals.length - 1]? = some (pick vals i) := by
  have hlength : 0 < vals.length := List.length_pos_of_ne_nil h
  split_ifs with hi
  · rw [pick_of_lt (List.getElem?_eq_getElem hi), List.getElem?_eq_getElem hi]
  · have hlt : vals.length - 1 < vals.length := by omega
    have hmin : min i (vals.length - 1) = vals.length - 1 := by omega
    rw [pick, Lockstep.clamp, hmin, List.getD_eq_getElem _ _ hlt, List.getElem?_eq_getElem hlt]

/-- The second pass over a conditional placeholder gives the selected values, when the branches
that are selected were evaluated. -/
theorem selectValues_eq {thenBranch elseBranch : Values} {all : List Str} (hall : all ≠ [])
    (h : ∀ c ∈ all, (if c.length ≠ 0 then thenBranch else elseBranch).isEvaluated = true ∧
      (if c.length ≠ 0 then thenBranch else elseBranch).vals ≠ []) (left i : Nat) :
    selectValues thenBranch elseBranch left i (pick all i) (all.drop (i + 1)) =
      .ok ((List.range' i left).map fun j =>
        pick (branchFor thenBranch.vals elseBranch.vals (pick all j)) j) := by
  induction left generalizing i with
  | zero => rfl
  | succ left ih =>
    obtain ⟨hevaluated, hvals⟩ := h (pick all i) (pick_mem hall i)
    have hlength := List.length_pos_of_ne_nil hvals
    have hbranch : (if (pick all i).length ≠ 0 then thenBranch else elseBranch).vals =
        branchFor thenBranch.vals elseBranch.vals (pick all i) := by
      rw [branchFor]
      split_ifs <;> rfl
    have hget := getElem?_pick hvals i
    rw [hbranch] at hget hlength
    have ih := ih (i + 1)
    rw [List.range'_succ, List.map_cons, selectValues]
    simp only [hbranch, assert_true hevaluated, assert_true (show 1 ≤ _ from hlength), ok_bind, hget]
    cases hdrop : all.drop (i + 1) with
    | nil =>
      have hle : all.length ≤ i + 1 := List.drop_eq_nil_iff.mp hdrop
      rw [pick_of_le hle, List.drop_eq_nil_of_le (by omega)] at ih
      simp only [ih]
      rfl
    | cons c conds =>
      have hnext : all[i + 1]? = some c := by
        rw [← List.head?_drop, hdrop]
        rfl
      have htail : all.drop (i + 1 + 1) = conds := by
        rw [← List.tail_drop, hdrop]
        rfl
      rw [pick_of_lt hnext, htail] at ih
      simp only [ih]
      rfl

end MistEngine
end KedrAux
