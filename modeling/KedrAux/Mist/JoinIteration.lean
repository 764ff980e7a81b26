import KedrAux.Mist.BuiltBlocks

/-!
# Iterations of a join

The sets of values that a slice goes through, described child by child, and the texts
that `join` and `rjoin` write for them.
-/

namespace KedrAux
namespace Mist

def MistParamMask.children : MistParamMask → List (Str × MistParamMask)
  | nil => []
  | cons name submask submasks => (name, submask) :: submasks.children

def Choice.ofList : List (Str × ParamSet × Choice) → Choice
  | [] => nil
  | (name, value, choice) :: rest => cons name value choice (ofList rest)

section Children

variable (mask : MistParamMask) (v : ParamSet)

theorem enum_length :
    (enum mask v).length =
      (mask.children.map fun c => (enumChild c.1 c.2 v).length).foldr max 1 := by
  induction mask with
  | nil => rfl
  | cons name submask submasks _ ih =>
    rw [enum_cons, Lockstep.length_zip, ih]
    rfl

theorem clamp_enum (k : Nat) :
    Lockstep.clamp (enum mask v) k =
      Choice.ofList (mask.children.map fun c => (c.1, Lockstep.clamp (enumChild c.1 c.2 v) k)) := by
  induction mask with
  | nil => simp [enum, Lockstep.clamp, MistParamMask.children, Choice.ofList]
  | cons name submask submasks _ ih =>
    rw [enum_cons, Lockstep.clamp_zip _ (enumChild_ne_nil submask v name) (enum_ne_nil submasks v),
      ih]
    rfl

end Children

namespace ParamSetSlice

/-- The slices with a mask: made for it, then moved in any way. -/
inductive Made (mask : MistParamMask) : ParamSetSlice → Prop
  | new (paramSet : ParamSet) : Made mask (new paramSet mask)
  | nextSet {slice : ParamSetSlice} (h : Made mask slice) : Made mask slice.nextSet
  | reset {slice : ParamSetSlice} (h : Made mask slice) (value : ParamSet) :
      Made mask (slice.reset value)

/-- The slices that have just been set to a value and a mask. -/
inductive ResetTo (mask : MistParamMask) (v : ParamSet) : ParamSetSlice → Prop
  | new : ResetTo mask v (new v mask)
  | resetMask {slice : ParamSetSlice} (h : slice.value = v) : ResetTo mask v (slice.resetMask mask)
  | reset {slice : ParamSetSlice} (h : Made mask slice) : ResetTo mask v (slice.reset v)

variable {mask : MistParamMask} {v : ParamSet} {slice : ParamSetSlice}

theorem Made.exists_at (h : Made mask slice) : ∃ k, slice.At mask k := by
  induction h with
  | new paramSet => exact ⟨0, new_at paramSet mask⟩
  | nextSet _ ih =>
    obtain ⟨k, hk⟩ := ih
    exact ⟨k + 1, hk.nextSet⟩
  | reset _ value ih =>
    obtain ⟨k, hk⟩ := ih
    exact ⟨0, hk.reset value⟩

theorem ResetTo.at_zero (h : ResetTo mask v slice) : slice.At mask 0 ∧ slice.value = v := by
  cases h with
  | new => exact ⟨new_at v mask, rfl⟩
  | resetMask hvalue => exact ⟨new_at _ mask, hvalue⟩
  | reset hmade =>
    obtain ⟨k, hk⟩ := hmade.exists_at
    exact ⟨hk.reset v, rfl⟩

theorem ResetTo.iterate_nextSet
    (h : ResetTo mask v slice) {k : Nat} (hk : k < (enum mask v).length) :
    (ParamSetSlice.nextSet^[k] slice).scope = ⟨v, (enum mask v).get ⟨k, hk⟩⟩ ∧
      ((ParamSetSlice.nextSet^[k] slice).isSetLast = true ↔ k = (enum mask v).length - 1) := by
  obtain ⟨hat, hvalue⟩ := h.at_zero
  have hat' := hat.nextSet_iterate k
  have hvalue' := (nextSet_iterate_value slice k).trans hvalue
  rw [Nat.zero_add] at hat'
  constructor
  · rw [scope, hat'.subslices.choice_eq, hvalue', Lockstep.clamp_of_lt hk]
    rfl
  · rw [hat'.isSetLast_iff, hvalue']
    omega

end ParamSetSlice

/-- The join context after `k` calls of `advance`. -/
def JoinContext.iteration (back : JoinContext) (context : MistParamNameAbs)
    (submask : MistParamMask) : Nat → Option JoinContext
  | 0 => back.new context submask
  | k + 1 => (back.iteration context submask k).bind fun c => c.advance.map Prod.fst

section Join

variable {back : JoinContext} {context : MistParamNameAbs} {submask : MistParamMask} {base : Scope}

/-- The context of a join, moved to its `k`-th slice. -/
theorem JoinContext.iteration_spec (hbase : back.scope.lookup context = some base) {k : Nat}
    (hk : k < (enum submask base.value).length) :
    ∃ c, back.iteration context submask k = some c ∧ JoinAt back context submask k c := by
  induction k with
  | zero => exact JoinContext.new_spec submask hbase
  | succ k ih =>
    obtain ⟨c, hc, hat⟩ := ih (by omega)
    obtain ⟨c', hadvance, hat'⟩ := hat.advance_next hbase hk
    exact ⟨c', by rw [iteration, hc, Option.bind_some, hadvance]; rfl, hat'⟩

theorem MistTemplateGroupBlock.evaluate_join
    (submask : MistParamMask) (reversed : Bool) (block : MistTemplateGroupBlock) (textBetween : Str)
    (mask : MistParamMask)
    (ctx : GroupContext) (hbase : back.scope.lookup context = some base) :
    (MistTemplateGroupBlock.join reversed block context textBetween mask submask).evaluate
        (back :: ctx) =
      ((List.range (enum submask base.value).length).mapM fun k =>
        (back.iteration context submask k).bind fun c =>
          (block.evaluate (c :: back :: ctx)).map Prod.fst).map fun pieces =>
            (joinText reversed textBetween pieces, back :: ctx) := by
  have hpieces : (joinSets submask base).mapM (fun set => (back.scope.set context set.1).bind
        fun scope => block.meaning scope (set.2 :: GroupContext.indices (back :: ctx))) =
      (List.range (enum submask base.value).length).mapM fun k =>
        (back.iteration context submask k).bind fun c =>
          (block.evaluate (c :: back :: ctx)).map Prod.fst := by
    refine mapM_eq_of_forall₂ (R := fun set k => ∃ hk : k < (enum submask base.value).length,
      set = ((enum submask base.value).get ⟨k, hk⟩, k)) ?_ ?_
    · rw [List.forall₂_iff_get]
      refine ⟨by simp [joinSets], fun k h1 h2 => ?_⟩
      rw [List.length_range] at h2
      simp [joinSets, h2]
    · rintro _ k ⟨hk, rfl⟩
      obtain ⟨c, hc, hat⟩ := JoinContext.iteration_spec hbase hk
      have hscope := hat.scope_eq hbase hk
      have hindices : GroupContext.indices (c :: back :: ctx) =
          k :: GroupContext.indices (back :: ctx) := by
        simp [GroupContext.indices, hat.index]
      simp only [List.get_eq_getElem, hscope, Option.bind_some, hc, evaluate_eq, Option.map_map,
        hindices]
      cases block.meaning c.scope (k :: GroupContext.indices (back :: ctx)) <;> rfl
  rw [evaluate_eq, meaning, hbase, Option.bind_some, hpieces, Option.map_map]
  rfl

end Join

/--
The iteration of joins.  The list of sets has the length and the elements that the
children give; a slice that is reset and advanced goes through it and knows its last
element; a join writes the texts of its block for the elements in order, and `rjoin`
the same texts in the reverse order.
-/
theorem join_goes_through_enum (v : ParamSet) (m : MistParamMask) :
    (enum m v).length =
      (m.children.map fun c => (enumChild c.1 c.2 v).length).foldr max 1 ∧
    (∀ k (hk : k < (enum m v).length),
      (enum m v).get ⟨k, hk⟩ = Choice.ofList (m.children.map fun c =>
        (c.1, (enumChild c.1 c.2 v).getD (min k ((enumChild c.1 c.2 v).length - 1)) default)) ∧
      ∀ slice, ParamSetSlice.ResetTo m v slice →
        (ParamSetSlice.nextSet^[k] slice).scope = ⟨v, (enum m v).get ⟨k, hk⟩⟩ ∧
        ((ParamSetSlice.nextSet^[k] slice).isSetLast = true ↔ k = (enum m v).length - 1)) ∧
    ∀ (back : JoinContext) (ctx : GroupContext) (context : MistParamNameAbs) (sub : ParamSetSlice),
      back.slice.getSubslice context = some sub → sub.value = v →
      (∀ k (hk : k < (enum m v).length), ∃ c, back.iteration context m k = some c ∧
        c.paramName = context ∧ c.index = k ∧
        back.scope.set context ((enum m v).get ⟨k, hk⟩) = some c.scope) ∧
      ∀ reversed block textBetween mask,
        (MistTemplateGroupBlock.join reversed block context textBetween mask m).evaluate
            (back :: ctx) =
          ((List.range (enum m v).length).mapM fun k =>
            (back.iteration context m k).bind fun c =>
              (block.evaluate (c :: back :: ctx)).map Prod.fst).map fun pieces =>
                (textBetween.intercalate (if reversed then pieces.reverse else pieces),
                  back :: ctx) := by
  refine ⟨enum_length m v, fun k hk => ⟨?_, fun slice hslice => hslice.iterate_nextSet hk⟩, ?_⟩
  · rw [List.get_eq_getElem, ← Lockstep.clamp_of_lt hk, clamp_enum]
    rfl
  · intro back ctx context sub hsub hvalue
    have hbase : back.scope.lookup context = some sub.scope := by
      rw [JoinContext.scope, ParamSetSlice.lookup_scope, hsub]
      rfl
    have hvalue' : sub.scope.value = v := hvalue
    constructor
    · intro k hk
      rw [← hvalue'] at hk
      obtain ⟨c, hc, hat⟩ := JoinContext.iteration_spec hbase hk
      refine ⟨c, hc, hat.paramName, hat.index, ?_⟩
      rw [← hat.scope_eq hbase hk]
      simp only [hvalue', List.get_eq_getElem]
    · intro reversed block textBetween mask
      have heval := MistTemplateGroupBlock.evaluate_join m reversed block textBetween
        mask ctx hbase
      rw [hvalue'] at heval
      exact heval

def twoValues : ParamSet :=
  .mk [] [(['p'], .mk ['a'] [], [.mk ['b'] []])]

/-- A reversed join on a name with two values. -/
theorem join_goes_through_twoValues :
    1 < (enum (.ofName [['p']]) twoValues).length ∧
    (ParamSetSlice.nextSet^[1] (ParamSetSlice.new twoValues (.ofName [['p']]))).isSetLast = true ∧
    (MistTemplateGroupBlock.join true (.paramRef [['p']]) [] [','] .nil
        (.ofName [['p']])).evaluate [JoinContext.first twoValues .nil] =
      some (['b', ',', 'a'], [JoinContext.first twoValues .nil]) := by
  have h := join_goes_through_enum twoValues (.ofName [['p']])
  refine ⟨by decide, ?_, ?_⟩
  · exact ((h.2.1 1 (by decide)).2 _ .new).2.mpr (by decide)
  · have hjoin := (h.2.2 (JoinContext.first twoValues .nil) [] [] _ rfl rfl).2 true
      (.paramRef [['p']]) [','] .nil
    exact hjoin.trans rfl

end Mist
end KedrAux
