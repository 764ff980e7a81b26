import KedrAux.Lib.Agreement
import KedrAux.MistEngine.Memo

/-!
# The evaluation and its table of results

The evaluation of the program agrees with the abstract one, whatever was left in the branches of
conditional placeholders before.  A template of the group is not changed after it was evaluated,
and neither are the parts that belong to it; while it is evaluated, each placeholder only changes
its own parts.
-/

namespace KedrAux
namespace MistEngine

open Agreement ErrorCodes

/-- Addresses of parts of the placeholders from the number `i` on, at any depth. -/
def Inside (a : Address) (i : Nat) (b : Address) : Prop :=
  b.root = a.root ∧ ∃ j part, i ≤ j ∧ (j, part) :: a.path <:+ b.path

def Under (a b : Address) : Prop :=
  b = a ∨ Inside a 0 b

variable {a b : Address} {i : Nat} {P : Address → Prop} {name : Str} {t : Template}
variable {evaluate : State → Except Stop State} {columns : Memo → Except Stop (List Column × Memo)}

theorem named_ne (ha : a.path ≠ []) (name : Str) : named name ≠ a :=
  fun heq => ha (heq ▸ rfl)

theorem not_inside_of_length_le (h : b.path.length ≤ a.path.length) : ¬ Inside a i b := by
  rintro ⟨-, j, part, -, hsuffix⟩
  have := hsuffix.length_le
  rw [List.length_cons] at this
  omega

theorem Inside.mono {i' : Nat} (h : Inside a i b) (hle : i' ≤ i) : Inside a i' b := by
  obtain ⟨hroot, j, part, hj, hsuffix⟩ := h
  exact ⟨hroot, j, part, hle.trans hj, hsuffix⟩

theorem inside_child (a : Address) (i : Nat) (part : Part) : Inside a i (a.child i part) :=
  ⟨rfl, i, part, Nat.le_refl _, List.suffix_refl _⟩

theorem inside_of_under_child {part : Part} (h : Under (a.child i part) b) : Inside a i b := by
  rcases h with rfl | ⟨hroot, j, part', -, hsuffix⟩
  · exact inside_child a i part
  · exact ⟨hroot, i, part, Nat.le_refl _, (List.suffix_cons _ _).trans hsuffix⟩

theorem not_under_of_ne {c : Address} (hne : a ≠ b) (hlength : a.path.length = b.path.length)
    (h : Under a c) :
    ¬ Under b c := by
  have hpath : ∀ d, Under d c → c.root = d.root ∧ d.path <:+ c.path := by
    rintro d (rfl | ⟨hroot, j, part, -, hsuffix⟩)
    · exact ⟨rfl, List.suffix_refl _⟩
    · exact ⟨hroot, (List.suffix_cons _ _).trans hsuffix⟩
  intro hb
  obtain ⟨hroot, hsuffix⟩ := hpath a h
  obtain ⟨hroot', hsuffix'⟩ := hpath b hb
  refine hne ?_
  have heq : a.path = b.path :=
    (List.suffix_of_suffix_length_le hsuffix hsuffix' hlength.le).eq_of_length hlength
  cases a
  cases b
  simp_all

theorem not_inside_succ (a : Address) (i : Nat) (part : Part) :
    ¬ Inside a (i + 1) (a.child i part) := by
  rintro ⟨-, j, part', hj, hsuffix⟩
  have heq := hsuffix.eq_of_length rfl
  rw [Address.child, List.cons.injEq, Prod.mk.injEq] at heq
  omega

variable {s s' s'' : State}

/-- Templates of the group, and parts that belong to them, stay as they are when the template is
already evaluated; the addresses in `P` are excepted. -/
def Keeps (P : Address → Prop) (s s' : State) : Prop :=
  ∀ b, (s.tpl (named b.root)).isEvaluated = true → ¬ P b → s'.tpl b = s.tpl b

theorem Keeps.refl (P : Address → Prop) (s : State) : Keeps P s s :=
  fun _ _ _ => rfl

theorem Keeps.mono {Q : Address → Prop} (h : Keeps P s s') (himp : ∀ b, P b → Q b) : Keeps Q s s' :=
  fun b hb hQ => h b hb fun hP => hQ (himp b hP)

def Hidden (P : Address → Prop) : Prop :=
  ∀ name, ¬ P (named name)

theorem hidden_false : Hidden fun _ => False :=
  fun _ h => h

theorem hidden_inside (a : Address) (i : Nat) : Hidden (Inside a i) :=
  fun _ => not_inside_of_length_le (Nat.zero_le _)

theorem Keeps.isEvaluated (h : Keeps P s s') (hP : Hidden P)
    (hname : (s.tpl (named name)).isEvaluated = true) :
    (s'.tpl (named name)).isEvaluated = true := by
  rw [h (named name) hname (hP name)]
  exact hname

theorem Keeps.trans (h : Keeps P s s') (hP : Hidden P) (h' : Keeps P s' s'') : Keeps P s s'' := by
  intro b hb hPb
  rw [h' b (h.isEvaluated hP hb) hPb, h b hb hPb]

theorem set_same (s : State) (a : Address) (v : Values) : (s.set a v).tpl a = v :=
  Function.update_self ..

theorem set_other (s : State) (v : Values) (h : b ≠ a) : (s.set a v).tpl b = s.tpl b :=
  Function.update_of_ne h ..

theorem keeps_set (s : State) (v : Values) (h : P a) : Keeps P s (s.set a v) := by
  intro b _ hPb
  exact set_other s v fun heq => hPb (heq ▸ h)

variable {group : Group} {alloc : Allocation} {params : Str → List Str} {m m' : Memo}

/-- The state of a group has the table of results. -/
structure Refines (group : Group) (params : Str → List Str) (s : State) (m : Memo) : Prop where
  log : s.log = m.log
  vals : ∀ name, m.vals name =
    if (s.tpl (named name)).isEvaluated then some (s.tpl (named name)).vals else none
  params : ∀ name, (group.template name).sch.length = 0 →
    (s.tpl (named name)).isEvaluated = false → (s.tpl (named name)).vals = params name

theorem Refines.get (h : Refines group params s m)
    (hname : (s.tpl (named name)).isEvaluated = true) :
    m.get name = (s.tpl (named name)).vals := by
  rw [Memo.get, h.vals, if_pos hname]
  rfl

theorem Refines.set_hidden (h : Refines group params s m) (ha : a.path ≠ []) (v : Values) :
    Refines group params (s.set a v) m := by
  have hother : ∀ name, (s.set a v).tpl (named name) = s.tpl (named name) := fun name =>
    set_other s v (named_ne ha name)
  refine ⟨h.log, fun name => ?_, fun name => ?_⟩
  · rw [hother]
    exact h.vals name
  · rw [hother]
    exact h.params name

theorem Refines.set_named (h : Refines group params s m) (name : Str) (vals : List Str) :
    Refines group params (s.set (named name) ⟨vals, true⟩) (m.set name vals) := by
  have hother : ∀ name', name' ≠ name →
      (s.set (named name) ⟨vals, true⟩).tpl (named name') = s.tpl (named name') := fun name' hne =>
    set_other s _ fun heq => hne (congrArg Address.root heq)
  refine ⟨h.log, fun name' => ?_, fun name' hsch hevaluated => ?_⟩
  · by_cases hne : name' = name
    · rw [hne, set_same, memo_set_same]
      rfl
    · rw [hother name' hne, memo_set_other m vals hne]
      exact h.vals name'
  · by_cases hne : name' = name
    · rw [hne, set_same] at hevaluated
      cases hevaluated
    · rw [hother name' hne] at hevaluated ⊢
      exact h.params name' hsch hevaluated

theorem length_cells (a : Address) (i : Nat) (ph : Placeholders) :
    (ph.cells a i).length = ph.length := by
  induction ph generalizing i with
  | nil => rfl
  | plain name rest ih
  | join name sep rest ih => rw [Placeholders.cells, List.length_cons, ih, Placeholders.length]
  | cond name isConcat thenSch thenPh elseSch elsePh rest _ _ ih =>
    rw [Placeholders.cells, List.length_cons, ih, Placeholders.length]

/-- The evaluation of placeholders: the columns are what the state has in their cells. -/
structure PlaceholdersRefine (group : Group) (params : Str → List Str) (a : Address) (i : Nat)
    (ph : Placeholders) (s s' : State) (cs : List Column) (m : Memo) : Prop where
  refines : Refines group params s' m
  keeps : Keeps (Inside a i) s s'
  evaluated : ∀ c ∈ ph.cells a i, (s'.tpl c.tpl).isEvaluated = true
  columns : (ph.cells a i).map (fun c => c.column s') = cs

/-- The state with which the evaluation of the placeholders begins. -/
def State.enter (s : State) (a : Address) : State :=
  (if a.path = [] then { s with log := s.log ++ [a.root] } else s).set a ⟨[], true⟩

theorem setEvaluated_clearValues (s : State) (a : Address) :
    (templateClearValues s a).setEvaluated a = s.set a ⟨[], true⟩ := by
  rw [State.setEvaluated, templateClearValues, set_same, State.set, State.set, State.set,
    Function.update_idem]

/-- What is done after the placeholders were evaluated. -/
def templateFinish (alloc : Allocation) (a : Address) (t : Template) (s : State) :
    Except Stop State := do
  let phs := t.ph.cells a 0
  let nvals := templateNumValues s phs
  let maxLen ← templateMaxLength s t.sch phs
  assert (nvals ≠ 0)
  allocate alloc a (2 + 2 * nvals)
  let vals ← constructValues s maxLen nvals t.sch phs
  return s.set a ⟨vals, (s.tpl a).isEvaluated⟩

theorem templateEvaluate_eq (ht : t.sch.length = t.ph.length + 1)
    (hevaluated : (s.tpl a).isEvaluated = false) (evaluate : State → Except Stop State) :
    templateEvaluate alloc a t evaluate s =
      (evaluate (s.enter a) >>= templateFinish alloc a t) := by
  have hsch : t.sch.length ≠ 0 := by omega
  rw [templateEvaluate, hevaluated, if_neg Bool.false_ne_true]
  simp only [if_neg hsch, assert_true ht, ok_bind, setEvaluated_clearValues]
  rfl

theorem templateFinish_eq (ht : t.sch.length = t.ph.length + 1)
    (hevaluated : ∀ c ∈ t.ph.cells a 0, (s.tpl c.tpl).isEvaluated = true) {cs : List Column}
    (hcs : (t.ph.cells a 0).map (fun c => c.column s) = cs) :
    templateFinish alloc a t s = (do
      allocate alloc a (2 + 2 * numValues cs)
      return s.set a ⟨templateValues t.sch cs, (s.tpl a).isEvaluated⟩) := by
  have hlength : t.sch.length = (t.ph.cells a 0).length + 1 := by rw [length_cells, ht]
  have hpos : numValues cs ≠ 0 := Nat.one_le_iff_ne_zero.mp (one_le_numValues cs)
  have hconstruct := constructValues_eq (s := s) hlength
  rw [hcs] at hconstruct
  rw [templateFinish]
  simp only [templateNumValues_eq, templateMaxLength_eq hevaluated, hcs, assert_true hpos, ok_bind,
    hconstruct]

theorem templateEvaluate_agree (ht : t.sch.length = t.ph.length + 1)
    (hevaluated : (s.tpl a).isEvaluated = false)
    (h : Agree (fun s' p => PlaceholdersRefine group params a 0 t.ph (s.enter a) s' p.1 p.2)
      (evaluate (s.enter a)) (columns m))
    (hroot : ((s.enter a).tpl (named a.root)).isEvaluated = true) :
    Agree (fun s' p => p.1 ≠ [] ∧ ∃ s1 cs,
        PlaceholdersRefine group params a 0 t.ph (s.enter a) s1 cs p.2 ∧
          s' = s1.set a ⟨p.1, true⟩)
      (templateEvaluate alloc a t evaluate s) (memoTemplate alloc a t.sch columns m) := by
  rw [templateEvaluate_eq ht hevaluated, memoTemplate]
  refine h.bind fun s1 p hp => ?_
  obtain ⟨cs, m1⟩ := p
  have ha : (s1.tpl a).isEvaluated = true := by
    rw [hp.keeps a hroot (not_inside_of_length_le (Nat.le_refl _)), State.enter, set_same]
  rw [templateFinish_eq ht hp.evaluated hp.columns, ha]
  refine Agree.check _ fun _ => .ok ⟨templateValues_ne_nil _ _, s1, cs, hp, rfl⟩

/-- The evaluation of a branch agrees with its abstract evaluation, and it is not repeated. -/
structure BranchAgrees (group : Group) (params : Str → List Str) (b : Address)
    (evaluate : State → Except Stop State)
    (memo : Memo → Except Stop (List Str × Memo)) : Prop where
  agree : ∀ s m, Refines group params s m → (s.tpl (named b.root)).isEvaluated = true →
    (s.tpl b).isEvaluated = false →
    Agree (fun s' p => Refines group params s' p.2 ∧ Keeps (Under b) s s' ∧
      s'.tpl b = ⟨p.1, true⟩ ∧ p.1 ≠ []) (evaluate s) (memo m)
  evaluated : ∀ s, (s.tpl b).isEvaluated = true → evaluate s = .ok s

theorem hidden_under (hb : b.path ≠ []) : Hidden (Under b) := by
  rintro name (rfl | h)
  · exact hb rfl
  · exact hidden_inside b 0 name h

theorem branchAgrees (alloc : Allocation) (hb : b.path ≠ []) {sch : List Str} {ph : Placeholders}
    (ht : sch.length = ph.length + 1)
    (h : ∀ s m, Refines group params s m → (s.tpl (named b.root)).isEvaluated = true →
      Agree (fun s' p => PlaceholdersRefine group params b 0 ph s s' p.1 p.2) (evaluate s)
        (columns m)) :
    BranchAgrees group params b (templateEvaluate alloc b ⟨sch, ph⟩ evaluate)
      (memoTemplate alloc b sch columns) := by
  refine ⟨fun s m hs hroot hevaluated => ?_, fun s hevaluated => if_pos hevaluated⟩
  have henter : s.enter b = s.set b ⟨[], true⟩ := by rw [State.enter, if_neg hb]
  have hroot' : ((s.enter b).tpl (named b.root)).isEvaluated = true := by
    rw [henter, set_other s _ (named_ne hb b.root)]
    exact hroot
  have hs' : Refines group params (s.enter b) m := henter ▸ hs.set_hidden hb _
  refine (templateEvaluate_agree ht hevaluated (h _ m hs' hroot') hroot').mono ?_
  rintro s' ⟨vals, m'⟩ ⟨hvals, s1, cs, hp, rfl⟩
  refine ⟨hp.refines.set_hidden hb _, ?_, set_same _ _ _, hvals⟩
  have hkeeps : Keeps (Under b) s (s.enter b) := henter ▸ keeps_set s _ (Or.inl rfl)
  exact (hkeeps.trans (hidden_under hb) (hp.keeps.mono fun c hc => Or.inr hc)).trans
    (hidden_under hb) (keeps_set s1 _ (Or.inl rfl))

def Slot (v : Values) : Option (List Str) → Prop
  | none => v = ⟨[], false⟩
  | some vals => v = ⟨vals, true⟩ ∧ vals ≠ []

theorem Slot.vals {v : Values} {o : Option (List Str)} (h : Slot v o) : v.vals = o.getD [] := by
  cases o with
  | none => rw [show v = ⟨[], false⟩ from h]; rfl
  | some vals => rw [h.1]; rfl

def Branches.selected (b : Branches) (c : Str) : Option (List Str) :=
  if c.length ≠ 0 then b.thenVals else b.elseVals

theorem Branches.getD_selected (b : Branches) (c : Str) :
    (b.selected c).getD [] = branchFor (b.thenVals.getD []) (b.elseVals.getD []) c := by
  rw [Branches.selected, branchFor]
  split_ifs <;> rfl

def Branches.Extends (b b' : Branches) : Prop :=
  ∀ c vals, b.selected c = some vals → b'.selected c = some vals

section Conditional

variable {thenBranch elseBranch : Address} {evaluateThen evaluateElse : State → Except Stop State}
  {memoThen memoElse : Memo → Except Stop (List Str × Memo)}

def InBranches (thenBranch elseBranch b : Address) : Prop :=
  Under thenBranch b ∨ Under elseBranch b

/-- The state and the table agree, and the state has the values of the branches. -/
structure BranchesRefine (group : Group) (params : Str → List Str)
    (thenBranch elseBranch : Address) (s s' : State) (b : Branches) (m : Memo) : Prop where
  refines : Refines group params s' m
  keeps : Keeps (InBranches thenBranch elseBranch) s s'
  thenSlot : Slot (s'.tpl thenBranch) b.thenVals
  elseSlot : Slot (s'.tpl elseBranch) b.elseVals

theorem slot_agree {branch other : Address} (hne : other ≠ branch)
    (hlength : other.path.length = branch.path.length) (hroot : other.root = branch.root)
    {evaluate : State → Except Stop State} {memo : Memo → Except Stop (List Str × Memo)}
    (h : BranchAgrees group params branch evaluate memo) (hs : Refines group params s m)
    (hevaluated : (s.tpl (named branch.root)).isEvaluated = true) {o o' : Option (List Str)}
    (hslot : Slot (s.tpl branch) o) (hslot' : Slot (s.tpl other) o') {γ : Type}
    (keep : γ) (store : List Str → γ) :
    Agree (fun s' p => ∃ vals, Refines group params s' p.2 ∧ Keeps (Under branch) s s' ∧
        Slot (s'.tpl branch) (some vals) ∧ Slot (s'.tpl other) o' ∧
        ((o = some vals ∧ p.1 = keep) ∨ (o = none ∧ p.1 = store vals)))
      (evaluate s)
      (if o.isSome then .ok (keep, m)
        else do
          let (vals, m) ← memo m
          return (store vals, m)) := by
  cases o with
  | some vals =>
    have hflag : (s.tpl branch).isEvaluated = true := by rw [hslot.1]
    rw [h.evaluated s hflag]
    exact .ok ⟨vals, hs, Keeps.refl _ s, hslot, hslot', Or.inl ⟨rfl, rfl⟩⟩
  | none =>
    have hflag : (s.tpl branch).isEvaluated = false := by
      rw [show s.tpl branch = ⟨[], false⟩ from hslot]
    have hagree := h.agree s m hs hevaluated hflag
    have hother : ¬ Under branch other := not_under_of_ne hne hlength (Or.inl rfl)
    rw [← bind_pure (evaluate s)]
    refine hagree.bind fun s' p hp => ?_
    obtain ⟨hrefines, hkeeps, hbranch, hvals⟩ := hp
    have hkept := hkeeps other (hroot ▸ hevaluated) hother
    exact .ok ⟨p.1, hrefines, hkeeps, ⟨hbranch, hvals⟩, hkept ▸ hslot', Or.inr ⟨rfl, rfl⟩⟩

theorem memoBranch_agree
    (hne : thenBranch ≠ elseBranch) (hlength : thenBranch.path.length = elseBranch.path.length)
    (hroot : thenBranch.root = elseBranch.root)
    (hthen : BranchAgrees group params thenBranch evaluateThen memoThen)
    (helse : BranchAgrees group params elseBranch evaluateElse memoElse)
    {s0 : State} {b : Branches} (hs : BranchesRefine group params thenBranch elseBranch s0 s b m)
    (hevaluated : (s.tpl (named thenBranch.root)).isEvaluated = true)
    (hP : Hidden (InBranches thenBranch elseBranch)) (c : Str) :
    Agree (fun s' p => BranchesRefine group params thenBranch elseBranch s0 s' p.1 p.2 ∧
        Keeps (InBranches thenBranch elseBranch) s s' ∧ b.Extends p.1 ∧
        ∃ vals, p.1.selected c = some vals ∧
          s'.tpl (if c.length ≠ 0 then thenBranch else elseBranch) = ⟨vals, true⟩)
      ((if c.length ≠ 0 then evaluateThen else evaluateElse) s)
      (memoBranch memoThen memoElse b m c) := by
  by_cases hc : c.length ≠ 0
  · simp only [memoBranch, if_pos hc]
    refine (slot_agree hne.symm hlength.symm hroot.symm hthen hs.refines hevaluated hs.thenSlot
      hs.elseSlot b fun vals => { b with thenVals := some vals }).mono ?_
    rintro s' p ⟨vals, hrefines, hkeeps, hslot, hslot', hcases⟩
    have hkeeps' : Keeps (InBranches thenBranch elseBranch) s s' :=
      hkeeps.mono fun _ h => Or.inl h
    have hpath := hs.keeps.trans hP hkeeps'
    rcases hcases with ⟨hsome, hp⟩ | ⟨hnone, hp⟩
    · rw [hp]
      exact ⟨⟨hrefines, hpath, hsome ▸ hslot, hslot'⟩, hkeeps', fun _ _ h => h, vals,
        (if_pos hc).trans hsome, hslot.1⟩
    · rw [hp]
      refine ⟨⟨hrefines, hpath, hslot, hslot'⟩, hkeeps', fun c' vals' h => ?_, vals, if_pos hc,
        hslot.1⟩
      rw [Branches.selected] at h ⊢
      split_ifs at h ⊢ with hc'
      · rw [hnone] at h
        cases h
      · exact h
  · simp only [memoBranch, if_neg hc]
    refine (slot_agree hne hlength hroot helse hs.refines (hroot ▸ hevaluated) hs.elseSlot
      hs.thenSlot b fun vals => { b with elseVals := some vals }).mono ?_
    rintro s' p ⟨vals, hrefines, hkeeps, hslot, hslot', hcases⟩
    have hkeeps' : Keeps (InBranches thenBranch elseBranch) s s' :=
      hkeeps.mono fun _ h => Or.inr h
    have hpath := hs.keeps.trans hP hkeeps'
    rcases hcases with ⟨hsome, hp⟩ | ⟨hnone, hp⟩
    · rw [hp]
      exact ⟨⟨hrefines, hpath, hslot', hsome ▸ hslot⟩, hkeeps', fun _ _ h => h, vals,
        (if_neg hc).trans hsome, hslot.1⟩
    · rw [hp]
      refine ⟨⟨hrefines, hpath, hslot', hslot⟩, hkeeps', fun c' vals' h => ?_, vals, if_neg hc,
        hslot.1⟩
      rw [Branches.selected] at h ⊢
      split_ifs at h ⊢ with hc'
      · exact h
      · rw [hnone] at h
        cases h

theorem memoBranches_agree
    (hne : thenBranch ≠ elseBranch) (hlength : thenBranch.path.length = elseBranch.path.length)
    (hroot : thenBranch.root = elseBranch.root)
    (hthen : BranchAgrees group params thenBranch evaluateThen memoThen)
    (helse : BranchAgrees group params elseBranch evaluateElse memoElse)
    (hP : Hidden (InBranches thenBranch elseBranch)) {s0 : State} (conds : List Str) {b : Branches}
    (hs : BranchesRefine group params thenBranch elseBranch s0 s b m)
    (hevaluated : (s.tpl (named thenBranch.root)).isEvaluated = true) (ntotal : Nat) :
    Agree (fun q p => BranchesRefine group params thenBranch elseBranch s0 q.1 p.1 p.2 ∧
        b.Extends p.1 ∧ (∀ c ∈ conds, (p.1.selected c).isSome = true) ∧
        q.2 = conds.foldl (fun num c => max num ((p.1.selected c).getD []).length) ntotal)
      (conds.foldlM (fun (q : State × Nat) c => do
        let s ← (if c.length ≠ 0 then evaluateThen else evaluateElse) q.1
        let nvals := (s.tpl (if c.length ≠ 0 then thenBranch else elseBranch)).vals.length
        return (s, if nvals > q.2 then nvals else q.2)) (s, ntotal))
      (memoBranches memoThen memoElse conds b m) := by
  induction conds generalizing s b m ntotal with
  | nil => exact .ok ⟨hs, fun _ _ h => h, fun c hc => (by cases hc), rfl⟩
  | cons c conds ih =>
    rw [List.foldlM_cons, memoBranches, bind_assoc]
    refine (memoBranch_agree hne hlength hroot hthen helse hs hevaluated hP c).bind fun s1 p hp => ?_
    obtain ⟨b1, m1⟩ := p
    obtain ⟨hs1, hkeeps, hextends, vals, hselected, hvals⟩ := hp
    have hnvals : (if vals.length > ntotal then vals.length else ntotal) =
        max ntotal vals.length := by
      split_ifs <;> omega
    simp only [hvals, hnvals, pure_bind]
    refine (ih hs1 (hkeeps.isEvaluated hP hevaluated) (max ntotal vals.length)).mono ?_
    rintro q p ⟨hs2, hextends2, hsome, htotal⟩
    have hc : p.1.selected c = some vals := hextends2 c vals hselected
    refine ⟨hs2, fun c' vals' h => hextends2 c' vals' (hextends c' vals' h), fun c' hc' => ?_, ?_⟩
    · rcases List.mem_cons.mp hc' with rfl | hc'
      · rw [hc]
        rfl
      · exact hsome c' hc'
    · rw [List.foldl_cons, hc]
      exact htotal

theorem le_foldl_max {α : Type} (f : α → Nat) (l : List α) (num : Nat) :
    num ≤ l.foldl (fun num c => max num (f c)) num := by
  induction l generalizing num with
  | nil => exact Nat.le_refl _
  | cons c l ih => exact (Nat.le_max_left _ _).trans (ih _)

/-- The program and the table agree on a conditional placeholder. -/
theorem conditional_agree (alloc : Allocation) {result : Address} (hne : thenBranch ≠ elseBranch)
    (hlength : thenBranch.path.length = elseBranch.path.length)
    (hroot : thenBranch.root = elseBranch.root)
    (hthen : BranchAgrees group params thenBranch evaluateThen memoThen)
    (helse : BranchAgrees group params elseBranch evaluateElse memoElse)
    (hpath : thenBranch.path ≠ []) (hresult : result.path ≠ [])
    (hresultRoot : result.root = thenBranch.root)
    (hnot : ¬ InBranches thenBranch elseBranch result) (conds : List Str) (isConcat : Bool)
    (hs : Refines group params s m)
    (hevaluated : (s.tpl (named thenBranch.root)).isEvaluated = true)
    (hclearResult : s.tpl result = ⟨[], false⟩) (hclearThen : s.tpl thenBranch = ⟨[], false⟩)
    (hclearElse : s.tpl elseBranch = ⟨[], false⟩) :
    Agree (fun s' p => Refines group params s' p.2 ∧
        Keeps (fun b => b = result ∨ InBranches thenBranch elseBranch b) s s' ∧
        s'.tpl result = ⟨p.1, true⟩)
      (evaluateBranches alloc conds isConcat result thenBranch elseBranch evaluateThen evaluateElse s)
      (memoConditional alloc conds isConcat result memoThen memoElse m) := by
  have hpath' : elseBranch.path ≠ [] := by
    rw [Ne, ← List.length_eq_zero_iff, ← hlength, List.length_eq_zero_iff]
    exact hpath
  have hP : Hidden (InBranches thenBranch elseBranch) := by
    rintro name (h | h)
    · exact hidden_under hpath name h
    · exact hidden_under hpath' name h
  have hP' : Hidden fun b => b = result ∨ InBranches thenBranch elseBranch b := by
    rintro name (h | h)
    · exact named_ne hresult name h
    · exact hP name h
  -- the result is stored when the branches were evaluated
  have hstore : ∀ {s' : State} {m' : Memo} (vals : List Str), Refines group params s' m' →
      Keeps (InBranches thenBranch elseBranch) s s' →
      Refines group params (s'.set result ⟨(s'.tpl result).vals ++ vals, true⟩) m' ∧
        Keeps (fun b => b = result ∨ InBranches thenBranch elseBranch b) s
          (s'.set result ⟨(s'.tpl result).vals ++ vals, true⟩) ∧
        (s'.set result ⟨(s'.tpl result).vals ++ vals, true⟩).tpl result = ⟨vals, true⟩ := by
    intro s' m' vals hs' hkeeps
    have hold : s'.tpl result = ⟨[], false⟩ := by
      rw [hkeeps result (hresultRoot ▸ hevaluated) hnot, hclearResult]
    refine ⟨hs'.set_hidden hresult _, ?_, ?_⟩
    · exact (hkeeps.mono fun _ h => Or.inr h).trans hP' (keeps_set s' _ (Or.inl rfl))
    · rw [set_same, hold]
      rfl
  rw [evaluateBranches, memoConditional]
  refine Agree.check _ fun hassert => ?_
  cases isConcat with
  | true =>
    simp only [if_true]
    split_ifs with hcexpr
    · refine (hthen.agree s m hs hevaluated (by rw [hclearThen])).bind fun s' p hp => ?_
      obtain ⟨hs', hkeeps, hvals, hpos⟩ := hp
      simp only [hvals, assert_true (show 1 ≤ p.1.length from List.length_pos_of_ne_nil hpos),
        ok_bind]
      exact Agree.check _ fun _ => .ok (hstore p.1 hs' (hkeeps.mono fun _ h => Or.inl h))
    · refine (helse.agree s m hs (hroot ▸ hevaluated) (by rw [hclearElse])).bind fun s' p hp => ?_
      obtain ⟨hs', hkeeps, hvals, hpos⟩ := hp
      simp only [hvals, assert_true (show 1 ≤ p.1.length from List.length_pos_of_ne_nil hpos),
        ok_bind]
      exact Agree.check _ fun _ => .ok (hstore p.1 hs' (hkeeps.mono fun _ h => Or.inr h))
  | false =>
    simp only [Bool.false_eq_true, if_false]
    have hlengthConds : 1 ≤ conds.length := by
      rw [assert, assertOr] at hassert
      split_ifs at hassert with hle
      exact hle
    have hstart : BranchesRefine group params thenBranch elseBranch s s ⟨none, none⟩ m :=
      ⟨hs, Keeps.refl _ s, hclearThen, hclearElse⟩
    refine (memoBranches_agree hne hlength hroot hthen helse hP conds hstart hevaluated
      conds.length).bind fun q p hp => ?_
    obtain ⟨s', ntotal⟩ := q
    obtain ⟨b, m'⟩ := p
    obtain ⟨hs', -, hsome, htotal⟩ := hp
    have hntotal : ntotal = numSelected (b.thenVals.getD []) (b.elseVals.getD []) conds := by
      rw [numSelected]
      simp only [← Branches.getD_selected]
      exact htotal
    have hpos : 1 ≤ ntotal := by
      rw [hntotal, numSelected]
      exact hlengthConds.trans (le_foldl_max _ conds conds.length)
    have hslots : ∀ c ∈ conds,
        (if c.length ≠ 0 then s'.tpl thenBranch else s'.tpl elseBranch).isEvaluated = true ∧
          (if c.length ≠ 0 then s'.tpl thenBranch else s'.tpl elseBranch).vals ≠ [] := by
      intro c hc
      obtain ⟨vals, hvals⟩ := Option.isSome_iff_exists.mp (hsome c hc)
      rw [Branches.selected] at hvals
      split_ifs at hvals ⊢ with hcexpr
      · have hslot := hs'.thenSlot
        rw [hvals] at hslot
        rw [hslot.1]
        exact ⟨rfl, hslot.2⟩
      · have hslot := hs'.elseSlot
        rw [hvals] at hslot
        rw [hslot.1]
        exact ⟨rfl, hslot.2⟩
    have hselect := selectValues_eq (List.ne_nil_of_length_pos hlengthConds) hslots ntotal 0
    rw [hs'.thenSlot.vals, hs'.elseSlot.vals, ← List.range_eq_range', hntotal] at hselect
    obtain ⟨c, conds', rfl⟩ := List.exists_cons_of_length_pos hlengthConds
    simp only [assert_true hpos, ok_bind]
    have hvals : selectValues (s'.tpl thenBranch) (s'.tpl elseBranch) ntotal 0 c conds' =
        .ok (selectedValues (b.thenVals.getD []) (b.elseVals.getD []) (c :: conds')) :=
      hntotal ▸ hselect
    rw [hvals, ok_bind, hntotal]
    exact Agree.check _ fun _ => .ok (hstore _ hs'.refines hs'.keeps)

end Conditional

/-- The evaluation of templates of the group agrees with its abstract evaluation. -/
def CallAgrees (group : Group) (params : Str → List Str)
    (call : Str → State → Except Stop State) (memo : Str → Memo → Except Stop Memo) : Prop :=
  ∀ name s m, Refines group params s m →
    Agree (fun s' m' => Refines group params s' m' ∧ Keeps (fun _ => False) s s' ∧
      (s'.tpl (named name)).isEvaluated = true) (call name s) (memo name m)

variable {call : Str → State → Except Stop State} {memo : Str → Memo → Except Stop Memo}

theorem placeholdersRefine_cons {rest : Placeholders} {sep : Option Str} {s1 s2 : State}
    {cs : List Column} {m1 m2 : Memo} (hs1 : Refines group params s1 m1)
    (hkeeps : Keeps (fun _ => False) s s1) (hname : (s1.tpl (named name)).isEvaluated = true)
    (h : PlaceholdersRefine group params a (i + 1) rest s1 s2 cs m2) {ph : Placeholders}
    (hcells : ph.cells a i = ⟨sep, named name⟩ :: rest.cells a (i + 1)) :
    PlaceholdersRefine group params a i ph s s2 (⟨sep, m1.get name⟩ :: cs) m2 := by
  have hkept := h.keeps (named name) hname (hidden_inside a (i + 1) name)
  refine ⟨h.refines, ?_, ?_, ?_⟩
  · exact (hkeeps.mono fun _ hfalse => hfalse.elim).trans (hidden_inside a i)
      (h.keeps.mono fun b hb => hb.mono (Nat.le_succ i))
  · intro c hc
    rw [hcells] at hc
    rcases List.mem_cons.mp hc with rfl | hc
    · rw [hkept]
      exact hname
    · exact h.evaluated c hc
  · rw [hcells, List.map_cons, h.columns, Cell.column, hkept, hs1.get hname]

theorem child_path_ne (a : Address) (i : Nat) (part : Part) : (a.child i part).path ≠ [] :=
  List.cons_ne_nil _ _

theorem child_ne (a : Address) (i : Nat) (part part' : Part) (h : part ≠ part') :
    a.child i part ≠ a.child i part' := by
  intro heq
  rw [Address.child, Address.child, Address.mk.injEq, List.cons.injEq, Prod.mk.injEq] at heq
  exact h heq.2.1.2

theorem not_inBranches_result (a : Address) (i : Nat) :
    ¬ InBranches (a.child i .thenBranch) (a.child i .elseBranch) (a.child i .result) := by
  rintro (h | h)
  · exact not_under_of_ne (child_ne a i .result .thenBranch nofun) rfl (Or.inl rfl) h
  · exact not_under_of_ne (child_ne a i .result .elseBranch nofun) rfl (Or.inl rfl) h

theorem inside_of_parts (h : b = a.child i .result ∨
      InBranches (a.child i .thenBranch) (a.child i .elseBranch) b) :
    Inside a i b := by
  rcases h with rfl | h | h
  · exact inside_child a i .result
  · exact inside_of_under_child h
  · exact inside_of_under_child h

/-- The templates of a conditional placeholder are cleared before its evaluation. -/
def State.clearParts (s : State) (a : Address) (i : Nat) : State :=
  templateClearValues (templateClearValues (templateClearValues s (a.child i .result))
    (a.child i .thenBranch)) (a.child i .elseBranch)

theorem clearParts_spec (hs : Refines group params s m) (a : Address) (i : Nat) :
    Refines group params (s.clearParts a i) m ∧ Keeps (Inside a i) s (s.clearParts a i) ∧
      ∀ part, (s.clearParts a i).tpl (a.child i part) = ⟨[], false⟩ := by
  refine ⟨?_, ?_, fun part => ?_⟩
  · exact ((hs.set_hidden (child_path_ne a i _) _).set_hidden (child_path_ne a i _) _).set_hidden
      (child_path_ne a i _) _
  · have hP := hidden_inside a i
    exact ((keeps_set s _ (inside_child a i _)).trans hP (keeps_set _ _ (inside_child a i _))).trans
      hP (keeps_set _ _ (inside_child a i _))
  · rw [State.clearParts, templateClearValues, templateClearValues, templateClearValues]
    cases part with
    | result =>
      rw [set_other _ _ (child_ne a i .result .elseBranch nofun),
        set_other _ _ (child_ne a i .result .thenBranch nofun), set_same]
    | thenBranch => rw [set_other _ _ (child_ne a i .thenBranch .elseBranch nofun), set_same]
    | elseBranch => rw [set_same]

/-- The program and the table agree on placeholders, if they agree on templates. -/
theorem evaluatePlaceholders_agree
    (hcall : CallAgrees group params call memo) (ph : Placeholders) (hph : ph.WellFormed)
    (a : Address) (i : Nat) (s : State) (m : Memo) (hs : Refines group params s m)
    (hroot : (s.tpl (named a.root)).isEvaluated = true) :
    Agree (fun s' p => PlaceholdersRefine group params a i ph s s' p.1 p.2)
      (evaluatePlaceholders alloc call a i ph s) (memoPlaceholders alloc memo a i ph m) := by
  induction ph generalizing a i s m with
  | nil => exact .ok ⟨hs, Keeps.refl _ s, fun c hc => (by cases hc), rfl⟩
  | plain name rest ih
  | join name sep rest ih =>
    rw [evaluatePlaceholders, memoPlaceholders]
    refine (hcall name s m hs).bind fun s1 m1 h1 => ?_
    obtain ⟨hs1, hkeeps, hname⟩ := h1
    rw [← bind_pure (evaluatePlaceholders alloc call a (i + 1) rest s1)]
    refine (ih hph a (i + 1) s1 m1 hs1 (hkeeps.isEvaluated hidden_false hroot)).bind
      fun s2 p hp => .ok ?_
    exact placeholdersRefine_cons hs1 hkeeps hname hp rfl
  | cond name isConcat thenSch thenPh elseSch elsePh rest ihThen ihElse ih =>
    obtain ⟨⟨hthenLength, hthenPh⟩, ⟨helseLength, helsePh⟩, hrest⟩ := hph
    obtain ⟨hs0, hkeeps0, hclear⟩ := clearParts_spec hs a i
    have hroot0 := hkeeps0.isEvaluated (hidden_inside a i) hroot
    rw [evaluatePlaceholders, memoPlaceholders]
    refine (hcall name (s.clearParts a i) m hs0).bind fun s1 m1 h1 => ?_
    obtain ⟨hs1, hkeeps1, hname⟩ := h1
    have hroot1 := hkeeps1.isEvaluated hidden_false hroot0
    have hclear1 : ∀ part, s1.tpl (a.child i part) = ⟨[], false⟩ := by
      intro part
      rw [hkeeps1 (a.child i part) hroot0 not_false, hclear part]
    have hthen := branchAgrees alloc (child_path_ne a i .thenBranch) hthenLength
      fun s m hs hroot => ihThen hthenPh (a.child i .thenBranch) 0 s m hs hroot
    have helse := branchAgrees alloc (child_path_ne a i .elseBranch) helseLength
      fun s m hs hroot => ihElse helsePh (a.child i .elseBranch) 0 s m hs hroot
    have hconditional := conditional_agree alloc
      (child_ne a i .thenBranch .elseBranch nofun) rfl rfl hthen helse
      (child_path_ne a i .thenBranch) (child_path_ne a i .result) rfl
      (not_inBranches_result a i) (m1.get name) isConcat hs1 hroot1 (hclear1 .result)
      (hclear1 .thenBranch) (hclear1 .elseBranch)
    rw [hs1.get hname] at hconditional ⊢
    refine hconditional.bind fun s2 p hp => ?_
    obtain ⟨vals, m2⟩ := p
    obtain ⟨hs2, hkeeps2, hresult⟩ := hp
    have hkeeps2' : Keeps (Inside a i) s1 s2 := hkeeps2.mono fun b hb => inside_of_parts hb
    have hroot2 := hkeeps2'.isEvaluated (hidden_inside a i) hroot1
    rw [← bind_pure (evaluatePlaceholders alloc call a (i + 1) rest s2)]
    refine (ih hrest a (i + 1) s2 m2 hs2 hroot2).bind fun s3 p hp => .ok ?_
    have hkeeps : Keeps (Inside a i) s s2 := (hkeeps0.trans (hidden_inside a i)
      (hkeeps1.mono fun _ hfalse => hfalse.elim)).trans (hidden_inside a i) hkeeps2'
    have hkept : s3.tpl (a.child i .result) = ⟨vals, true⟩ := by
      rw [hp.keeps (a.child i .result) hroot2 (not_inside_succ a i .result), hresult]
    refine ⟨hp.refines, hkeeps.trans (hidden_inside a i)
      (hp.keeps.mono fun b hb => hb.mono (Nat.le_succ i)), ?_, ?_⟩
    · intro c hc
      rcases List.mem_cons.mp hc with rfl | hc
      · rw [hkept]
      · exact hp.evaluated c hc
    · rw [Placeholders.cells, List.map_cons, hp.columns, Cell.column, hkept]

theorem Group.template_cases (group : Group) (name : Str) :
    group.template name = ⟨[], .nil⟩ ∨ (group.template name).WellFormed := by
  rw [Group.template]
  cases hlookup : group.templates.lookup name with
  | none => exact Or.inl rfl
  | some t =>
    refine Or.inr (group.wellFormed (name, t) ?_)
    obtain ⟨l1, l2, hl, -⟩ := List.lookup_eq_some_iff.mp hlookup
    rw [hl]
    exact List.mem_append_right _ List.mem_cons_self

theorem Group.wellFormed_of_length_ne {group : Group} (h : (group.template name).sch.length ≠ 0) :
    (group.template name).WellFormed := by
  rcases group.template_cases name with hattribute | hwell
  · rw [hattribute] at h
    exact absurd rfl h
  · exact hwell

theorem Group.ph_of_length_eq {group : Group} (h : (group.template name).sch.length = 0) :
    (group.template name).ph.length = 0 := by
  rcases group.template_cases name with hattribute | hwell
  · rw [hattribute]
    rfl
  · rw [hwell.1] at h
    cases h

theorem keeps_set_named (hname : (s.tpl (named name)).isEvaluated = false) (log : List Str)
    (v : Values) :
    Keeps (fun _ => False) s ({ s with log := log }.set (named name) v) := by
  intro b hb _
  refine set_other _ v fun heq => ?_
  rw [heq, show (named name).root = name from rfl, hname] at hb
  cases hb

theorem Refines.with_log (h : Refines group params s m) (name : Str) :
    Refines group params { s with log := s.log ++ [name] } { m with log := m.log ++ [name] } :=
  ⟨congrArg (· ++ [name]) h.log, h.vals, h.params⟩

theorem attribute_agree (hsch : (group.template name).sch.length = 0)
    (hname : (s.tpl (named name)).isEvaluated = false) (hs : Refines group params s m)
    (evaluate : State → Except Stop State) :
    Agree (fun s' m' => Refines group params s' m' ∧ Keeps (fun _ => False) s s' ∧
        (s'.tpl (named name)).isEvaluated = true)
      (templateEvaluate alloc (named name) (group.template name) evaluate s)
      (do
        let vals ← attributeValues alloc params name
        return { m with log := m.log ++ [name] }.set name vals) := by
  have hparams := hs.params name hsch hname
  rw [templateEvaluate, hname, if_neg Bool.false_ne_true, attributeValues, ← hparams]
  simp only [show (named name).path = [] from rfl, if_true, hsch,
    assert_true (group.ph_of_length_eq hsch),
    ok_bind]
  have hstore : ∀ vals, Refines group params
        ({ s with log := s.log ++ [name] }.set (named name) ⟨vals, true⟩)
        ({ m with log := m.log ++ [name] }.set name vals) ∧
      Keeps (fun _ => False) s ({ s with log := s.log ++ [name] }.set (named name) ⟨vals, true⟩) ∧
      (({ s with log := s.log ++ [name] }.set (named name) ⟨vals, true⟩).tpl
        (named name)).isEvaluated = true := fun vals =>
    ⟨(hs.with_log name).set_named name vals, keeps_set_named hname _ _, by rw [set_same]⟩
  split_ifs with hvals
  · have hadd : (templateAddValue { s with log := s.log ++ [name] } (named name) []).setEvaluated
        (named name) = { s with log := s.log ++ [name] }.set (named name) ⟨[[]], true⟩ := by
      rw [State.setEvaluated, templateAddValue, set_same, State.set, State.set, State.set,
        Function.update_idem, List.length_eq_zero_iff.mp hvals]
      rfl
    rw [bind_assoc]
    refine Agree.check _ fun _ => .ok ?_
    rw [show (named name).root = name from rfl, hadd]
    exact hstore _
  · exact .ok (hstore _)

theorem namedTemplate_agree (hsch : (group.template name).sch.length ≠ 0)
    (hname : (s.tpl (named name)).isEvaluated = false) (hs : Refines group params s m)
    (h : ∀ s m, Refines group params s m → (s.tpl (named name)).isEvaluated = true →
      Agree (fun s' p => PlaceholdersRefine group params (named name) 0 (group.template name).ph
        s s' p.1 p.2) (evaluate s) (columns m)) :
    Agree (fun s' m' => Refines group params s' m' ∧ Keeps (fun _ => False) s s' ∧
        (s'.tpl (named name)).isEvaluated = true)
      (templateEvaluate alloc (named name) (group.template name) evaluate s)
      (do
        let (vals, m) ← memoTemplate alloc (named name) (group.template name).sch columns
          (m.enter name)
        return m.set name vals) := by
  have henter : s.enter (named name) =
      { s with log := s.log ++ [name] }.set (named name) ⟨[], true⟩ := by
    rw [State.enter, if_pos (show (named name).path = [] from rfl)]
    rfl
  have hs1 : Refines group params (s.enter (named name)) (m.enter name) :=
    henter ▸ (hs.with_log name).set_named name []
  have hroot : ((s.enter (named name)).tpl (named name)).isEvaluated = true := by
    rw [henter, set_same]
  rw [← bind_pure (templateEvaluate alloc (named name) (group.template name) evaluate s)]
  refine (templateEvaluate_agree (Group.wellFormed_of_length_ne hsch).1 hname (h _ _ hs1 hroot)
    hroot).bind ?_
  rintro s' ⟨vals, m'⟩ ⟨-, s1, cs, hp, rfl⟩
  refine .ok ⟨hp.refines.set_named name vals, fun b hb _ => ?_, by rw [set_same]⟩
  -- templates that were evaluated before have another name
  have hne : b.root ≠ name := by
    rintro rfl
    rw [hname] at hb
    cases hb
  have hb1 : (s.enter (named name)).tpl b = s.tpl b := by
    rw [henter]
    exact keeps_set_named hname _ _ b hb not_false
  have hb2 : ((s.enter (named name)).tpl (named b.root)).isEvaluated = true := by
    rw [henter, keeps_set_named hname _ _ (named b.root) hb not_false]
    exact hb
  rw [set_other _ _ fun heq => hne (congrArg Address.root heq),
    hp.keeps b hb2 fun hinside => hne hinside.1, hb1]

theorem memoEvaluate_agree (hs : Refines group params s m)
    (h : (group.template name).sch.length ≠ 0 →
      ∀ s m, Refines group params s m → (s.tpl (named name)).isEvaluated = true →
        Agree (fun s' p => PlaceholdersRefine group params (named name) 0 (group.template name).ph
          s s' p.1 p.2) (evaluate s) (columns m)) :
    Agree (fun s' m' => Refines group params s' m' ∧ Keeps (fun _ => False) s s' ∧
        (s'.tpl (named name)).isEvaluated = true)
      (templateEvaluate alloc (named name) (group.template name) evaluate s)
      (memoEvaluate group alloc params name columns m) := by
  have hvals := hs.vals name
  rw [memoEvaluate, hvals]
  cases hname : (s.tpl (named name)).isEvaluated with
  | true =>
    rw [templateEvaluate, hname]
    exact .ok ⟨hs, Keeps.refl _ s, hname⟩
  | false =>
    by_cases hsch : (group.template name).sch.length = 0
    · rw [if_neg (by simp), if_pos hsch]
      exact attribute_agree hsch hname hs evaluate
    · rw [if_neg (by simp), if_neg hsch]
      exact namedTemplate_agree hsch hname hs (h hsch)

theorem evaluateNamed_agree (group : Group) (alloc : Allocation) (params : Str → List Str)
    (fuel : Nat) :
    CallAgrees group params (evaluateNamed group alloc fuel) (memoNamed group alloc params fuel) := by
  induction fuel with
  | zero => exact fun name s m hs => memoEvaluate_agree hs fun _ _ _ _ _ => .error _
  | succ fuel ih =>
    exact fun name s m hs => memoEvaluate_agree hs fun hsch s m hs hroot =>
      evaluatePlaceholders_agree ih _ (Group.wellFormed_of_length_ne hsch).2 (named name) 0 s m hs
        hroot

def State.attributes (s : State) (name : Str) : List Str :=
  (s.tpl (named name)).vals

theorem refines_resetFlags (group : Group) (s : State) :
    Refines group s.attributes s.resetFlags .empty := by
  have htpl : ∀ name, s.resetFlags.tpl (named name) = ⟨(s.tpl (named name)).vals, false⟩ :=
    fun name => rfl
  refine ⟨rfl, fun name => ?_, fun name _ _ => ?_⟩
  · rw [htpl]
    rfl
  · rw [htpl]
    rfl

theorem tgEvaluate_agree (group : Group) (alloc : Allocation) (s : State) :
    Agree (fun r m => Refines group s.attributes r.1 m ∧ r.1.log = m.log ∧
        m.vals group.main = some r.2)
      (tgEvaluate group alloc s) (memoGroup group alloc s.attributes) := by
  rw [tgEvaluate, ← bind_pure (memoGroup group alloc s.attributes)]
  refine (evaluateNamed_agree group alloc s.attributes group.templates.length group.main s.resetFlags
    .empty (refines_resetFlags group s)).bind ?_
  rintro s' m' ⟨hs', -, hmain⟩
  refine .ok ⟨hs', hs'.log, ?_⟩
  rw [hs'.vals, if_pos hmain]

end MistEngine
end KedrAux
