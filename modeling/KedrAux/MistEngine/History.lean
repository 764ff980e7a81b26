import KedrAux.MistEngine.Refinement

/-!
# History of a group

The values of a group only depend on the values that were added since it was last cleared.  What
earlier evaluations left in templates, in branches and in the results of conditional
placeholders is not seen.
-/

namespace KedrAux
namespace MistEngine

open Agreement ErrorCodes

def noFailure : Allocation := fun _ _ => true

inductive Call where
  | addValue (name val : Str)
  | evaluate
  | clearValues
deriving DecidableEq

def tgCall (group : Group) (s : State) : Call → Except Stop (State × List (List Str))
  | .addValue name val => .ok (tgAddValue group s name val, [])
  | .evaluate => do
      let (s, vals) ← tgEvaluate group noFailure s
      return (s, [vals])
  | .clearValues => .ok (tgClearValues s, [])

def tgCalls (group : Group) : State → List Call → Except Stop (State × List (List Str))
  | s, [] => .ok (s, [])
  | s, call :: calls => do
      let (s, results) ← tgCall group s call
      let (s, results') ← tgCalls group s calls
      return (s, results ++ results')

variable {group : Group} {s s' : State} {params params' : Str → List Str}

variable {results : List (List Str)} {m : Memo} {vals : List Str}

theorem tgCalls_cons {call : Call} (h : tgCall group s call = .ok (s', results))
    (calls : List Call) :
    tgCalls group s (call :: calls) = (do
      let (s'', results') ← tgCalls group s' calls
      return (s'', results ++ results')) := by
  rw [tgCalls, h, ok_bind]

theorem tgCalls_append {calls : List Call} (h : tgCalls group s calls = .ok (s', results))
    (calls' : List Call) :
    tgCalls group s (calls ++ calls') = (do
      let (s'', results') ← tgCalls group s' calls'
      return (s'', results ++ results')) := by
  induction calls generalizing s results with
  | nil =>
    cases h
    exact (bind_pure _).symm
  | cons call calls ih =>
    obtain ⟨⟨s1, results1⟩, hcall, h⟩ := bind_eq_ok h
    obtain ⟨⟨s2, results2⟩, hcalls, h⟩ := bind_eq_ok h
    cases h
    rw [List.cons_append, tgCalls_cons hcall, ih hcalls, bind_assoc]
    simp only [pure_bind, List.append_assoc]

theorem allocate_noFailure (a : Address) (n : Nat) : allocate noFailure a n = .ok () :=
  if_pos (List.all_eq_true.mpr fun _ _ => rfl)

theorem attributeValues_noFailure (params : Str → List Str) (name : Str) :
    attributeValues noFailure params name =
      .ok (if (params name).length = 0 then [[]] else params name) := by
  rw [attributeValues]
  split_ifs
  · rfl
  · rfl

theorem memoNamed_congr (alloc : Allocation)
    (h : ∀ name, (group.template name).sch.length = 0 →
      attributeValues alloc params name = attributeValues alloc params' name) (fuel : Nat) :
    memoNamed group alloc params fuel = memoNamed group alloc params' fuel := by
  have hevaluate : ∀ name columns, memoEvaluate group alloc params name columns =
      memoEvaluate group alloc params' name columns := by
    intro name columns
    funext m
    rw [memoEvaluate, memoEvaluate]
    split_ifs with hname hsch
    · rfl
    · rw [h name hsch]
    · rfl
  induction fuel with
  | zero =>
    funext name
    exact hevaluate name _
  | succ fuel ih =>
    funext name
    rw [memoNamed, memoNamed, hevaluate, ih]

def AttributeValue (group : Group) (params : Str → List Str) (name : Str) (vals : List Str) :
    Prop :=
  (group.template name).sch.length = 0 →
    attributeValues noFailure params name = .ok vals ∧ vals.length ≠ 0

theorem goodValues_attributeValue (group : Group) (params : Str → List Str) :
    GoodValues group noFailure params (AttributeValue group params) := by
  refine ⟨fun name vals _ hvals _ => ⟨hvals, ?_⟩, fun name cs hsch hsch' => absurd hsch' hsch⟩
  rw [attributeValues_noFailure, Except.ok.injEq] at hvals
  rw [← hvals]
  split_ifs with hlength
  · exact Nat.one_ne_zero
  · exact hlength

/-- An evaluation stores an empty value for an attribute without values.  This does not change
later evaluations. -/
theorem attributeValues_after (hm : memoGroup group noFailure params = .ok m)
    (hs : Refines group params s m) {name : Str} (hsch : (group.template name).sch.length = 0) :
    attributeValues noFailure s.attributes name = attributeValues noFailure params name := by
  have hgrows := (memoNamed_grows (goodValues_attributeValue group params) _ _ _ _ hm).1
  cases hname : (s.tpl (named name)).isEvaluated with
  | false =>
    rw [attributeValues_noFailure, attributeValues_noFailure, State.attributes,
      hs.params name hsch hname]
  | true =>
    have hvals := hs.vals name
    rw [if_pos hname] at hvals
    obtain ⟨hattribute, hlength⟩ := hgrows.good name _ rfl hvals hsch
    rw [hattribute, attributeValues_noFailure, State.attributes, if_neg hlength]

theorem tgEvaluate_of_memoGroup (hm : memoGroup group noFailure params = .ok m)
    (hvals : m.vals group.main = some vals)
    (hparams : ∀ name, (group.template name).sch.length = 0 →
      attributeValues noFailure s.attributes name = attributeValues noFailure params name) :
    ∃ s', tgEvaluate group noFailure s = .ok (s', vals) ∧
      ∀ name, (group.template name).sch.length = 0 →
        attributeValues noFailure s'.attributes name = attributeValues noFailure params name := by
  have hm' : memoGroup group noFailure s.attributes = .ok m := by
    rw [memoGroup, memoNamed_congr noFailure hparams]
    exact hm
  have hagree := tgEvaluate_agree group noFailure s
  rw [hm'] at hagree
  obtain ⟨⟨s', vals'⟩, hok, hs', -, hmain⟩ := hagree.ok_right
  rw [hvals, Option.some.injEq] at hmain
  subst hmain
  exact ⟨s', hok, fun name hsch => (attributeValues_after hm' hs' hsch).trans (hparams name hsch)⟩

theorem memoGroup_of_tgEvaluate (h : tgEvaluate group noFailure s = .ok (s', vals)) :
    ∃ m, memoGroup group noFailure s.attributes = .ok m ∧ m.vals group.main = some vals := by
  have hagree := tgEvaluate_agree group noFailure s
  rw [h] at hagree
  generalize memoGroup group noFailure s.attributes = r at hagree ⊢
  cases hagree with
  | @ok _ m hm => exact ⟨m, rfl, hm.2.2⟩

theorem tgCalls_evaluate (hm : memoGroup group noFailure params = .ok m)
    (hvals : m.vals group.main = some vals) (k : Nat)
    (hparams : ∀ name, (group.template name).sch.length = 0 →
      attributeValues noFailure s.attributes name = attributeValues noFailure params name) :
    ∃ s', tgCalls group s (List.replicate k .evaluate) = .ok (s', List.replicate k vals) := by
  induction k generalizing s with
  | zero => exact ⟨s, rfl⟩
  | succ k ih =>
    obtain ⟨s1, hok, hparams1⟩ := tgEvaluate_of_memoGroup hm hvals hparams
    obtain ⟨s2, hcalls⟩ := ih hparams1
    refine ⟨s2, ?_⟩
    have hcall : tgCall group s .evaluate = .ok (s1, [vals]) := by
      rw [tgCall, hok]
      rfl
    rw [List.replicate_succ, tgCalls_cons hcall, hcalls]
    rfl

def SameValues (s s' : State) : Prop :=
  ∀ name, (s.tpl (named name)).vals = (s'.tpl (named name)).vals

theorem SameValues.addValue (h : SameValues s s') (name val : Str) :
    SameValues (tgAddValue group s name val) (tgAddValue group s' name val) := by
  intro name'
  rw [tgAddValue, tgAddValue]
  split_ifs
  · by_cases hne : name' = name
    · rw [hne, templateAddValue, templateAddValue, set_same, set_same, h name]
    · have hne' : named name' ≠ named name := fun heq => hne (congrArg Address.root heq)
      rw [templateAddValue, templateAddValue, set_other _ _ hne', set_other _ _ hne', h name']
  · exact h name'

theorem tgCalls_additions (group : Group) (additions : List (Str × Str)) (h : SameValues s s') :
    ∃ s1 s1', tgCalls group s (additions.map fun p => .addValue p.1 p.2) = .ok (s1, []) ∧
      tgCalls group s' (additions.map fun p => .addValue p.1 p.2) = .ok (s1', []) ∧
      SameValues s1 s1' := by
  induction additions generalizing s s' with
  | nil => exact ⟨s, s', rfl, rfl, h⟩
  | cons p additions ih =>
    obtain ⟨s1, s1', hs1, hs1', hsame⟩ := ih (h.addValue p.1 p.2)
    refine ⟨s1, s1', ?_, ?_, hsame⟩
    · have hcall : tgCall group s (.addValue p.1 p.2) = .ok (tgAddValue group s p.1 p.2, []) := rfl
      rw [List.map_cons, tgCalls_cons hcall, hs1]
      rfl
    · have hcall : tgCall group s' (.addValue p.1 p.2) = .ok (tgAddValue group s' p.1 p.2, []) := rfl
      rw [List.map_cons, tgCalls_cons hcall, hs1']
      rfl

theorem sameValues_clearValues (s : State) : SameValues (tgClearValues s) .create :=
  fun _ => rfl

/-- A group that is cleared gives the values of a new group, as often as it is evaluated.  This
holds in any state that earlier calls, also failed ones, have left, and so after any history. -/
theorem evaluate_after_history
    (group : Group) (additions : List (Str × Str)) (k : Nat) {vals : List Str}
    (hfresh : tgCalls group .create ((additions.map fun p => .addValue p.1 p.2) ++ [.evaluate]) =
      .ok (s', [vals])) :
    (∀ s, ∃ s'', tgCalls group s ([.clearValues] ++
        ((additions.map fun p => .addValue p.1 p.2) ++ List.replicate k .evaluate)) =
      .ok (s'', List.replicate k vals)) ∧
    ∀ history s results, tgCalls group .create history = .ok (s, results) →
      ∃ s'', tgCalls group .create (history ++ ([.clearValues] ++
          ((additions.map fun p => .addValue p.1 p.2) ++ List.replicate k .evaluate))) =
        .ok (s'', results ++ List.replicate k vals) := by
  have hany : ∀ s, ∃ s'', tgCalls group s ([.clearValues] ++
      ((additions.map fun p => .addValue p.1 p.2) ++ List.replicate k .evaluate)) =
      .ok (s'', List.replicate k vals) := by
    intro s
    obtain ⟨s1, s1', hs1, hs1', hsame⟩ :=
      tgCalls_additions group additions (sameValues_clearValues s)
    -- the evaluation of the new group
    obtain ⟨m, hm, hmain⟩ : ∃ m, memoGroup group noFailure s1'.attributes = .ok m ∧
        m.vals group.main = some vals := by
      rw [tgCalls_append hs1'] at hfresh
      obtain ⟨⟨s2, results2⟩, hevaluate, hfresh⟩ := bind_eq_ok hfresh
      obtain ⟨⟨s3, results3⟩, hcall, hevaluate⟩ := bind_eq_ok hevaluate
      obtain ⟨⟨s4, vals'⟩, hok, hcall⟩ := bind_eq_ok hcall
      cases hcall
      cases hevaluate
      cases hfresh
      exact memoGroup_of_tgEvaluate hok
    have hattributes : s1.attributes = s1'.attributes := funext fun name => hsame name
    obtain ⟨s2, hs2⟩ := tgCalls_evaluate (s := s1) hm hmain k fun name _ => by rw [hattributes]
    have hclear : tgCalls group s [.clearValues] = .ok (tgClearValues s, []) := rfl
    refine ⟨s2, ?_⟩
    rw [tgCalls_append hclear, tgCalls_append hs1, hs2]
    rfl
  refine ⟨hany, fun history s results hhistory => ?_⟩
  obtain ⟨s2, hs2⟩ := hany s
  refine ⟨s2, ?_⟩
  rw [tgCalls_append hhistory, hs2]
  rfl

/-- The template "m" is "<$if p$>1<$endif$><$p$>". -/
def smallGroup : Group where
  templates := [([109], ⟨[[], [], []], .cond [112] false [[49]] .nil [[]] .nil (.plain [112] .nil)⟩)]
  main := [109]
  wellFormed := by
    intro p hp
    rw [List.eq_of_mem_singleton hp]
    exact ⟨rfl, ⟨rfl, trivial⟩, ⟨rfl, trivial⟩, trivial⟩

/-- The branch that was taken at first is not seen later. -/
theorem smallGroup_after_history :
    ∃ s, tgCalls smallGroup .create [.addValue [112] [50], .evaluate, .clearValues,
      .addValue [112] [], .evaluate, .evaluate] = .ok (s, [[[49, 50]], [[]], [[]]]) :=
  (evaluate_after_history smallGroup [([112], [])] 2 rfl).2 [.addValue [112] [50], .evaluate] _ _ rfl

end MistEngine
end KedrAux
