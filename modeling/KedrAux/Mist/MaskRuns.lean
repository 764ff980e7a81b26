import KedrAux.Mist.MaskAppend

/-!
# Sequences of operations on masks

Constructions, copies, assignments, `append`, `cut` and destructions in any order.  Every
operation gives a new set of paths to one variable and leaves those of all others as they
are, however the masks share their implementations.
-/

namespace KedrAux
namespace Mist
namespace Masks

open MaskStore (submasksAt child descend Has SameVectors Shrinks)

variable {store : MaskStore} {vars : List (Option Addr)} {pending : List Addr} {p q : Addr}
variable {a : Nat}

section Variables

theorem push_var_counted (h : Counted ⟨store, vars⟩ (p :: pending)) :
    Counted ⟨store, vars ++ [some p]⟩ pending := by
  refine ⟨?_, h.names_nodup⟩
  intro q
  have hq := h.refs_eq q
  simp only [handles, List.count_append, List.count_cons, List.count_nil, beq_iff_eq,
    Option.some.injEq] at hq ⊢
  omega

theorem clear_var_counted (h : Counted ⟨store, vars⟩ pending) (ha : vars[a]? = some (some p)) :
    Counted ⟨store, vars.set a none⟩ (p :: pending) := by
  refine ⟨?_, h.names_nodup⟩
  intro q
  have hq := h.refs_eq q
  have hcount := count_set_add ha none (some q)
  simp only [handles, List.count_cons, List.count_nil, beq_iff_eq, Option.some.injEq,
    reduceCtorEq, if_false] at hq hcount ⊢
  omega

theorem fill_var_counted (h : Counted ⟨store, vars⟩ (p :: pending)) (ha : vars[a]? = some none) :
    Counted ⟨store, vars.set a (some p)⟩ pending := by
  refine ⟨?_, h.names_nodup⟩
  intro q
  have hq := h.refs_eq q
  have hcount := count_set_add ha (some p) (some q)
  simp only [handles, List.count_cons, List.count_nil, beq_iff_eq, Option.some.injEq,
    reduceCtorEq, if_false] at hq hcount ⊢
  omega

end Variables

/-- The variable is a mask that has not been destroyed. -/
def IsMask (ms : Masks) (v : Nat) : Prop :=
  ∃ p, ms.vars[v]? = some (some p)

def paths (ms : Masks) (v : Nat) : Set MistParamNameAbs :=
  {name | ∃ p, ms.vars[v]? = some (some p) ∧ Has ms.store p name}

/-- The masks but `a` have their old paths. -/
def OthersSame (ms ms' : Masks) (a : Nat) : Prop :=
  ∀ v, v ≠ a → (ms'.IsMask v ↔ ms.IsMask v) ∧ ms'.paths v = ms.paths v

/-- The result of an operation: the variable `a` has these paths, and the others are as
before. -/
structure Gives (ms ms' : Masks) (a : Nat) (names : Set MistParamNameAbs) : Prop where
  counted : Counted ms' []
  isMask : ms'.IsMask a
  paths_eq : ms'.paths a = names
  others : OthersSame ms ms' a

variable {ms ms' : Masks} {v : Nat}

section Paths

variable {names : Set MistParamNameAbs}

theorem paths_of_var (hv : ms.vars[v]? = some (some p)) :
    ms.paths v = {name | Has ms.store p name} := by
  ext name
  constructor
  · rintro ⟨p', hp', hhas⟩
    rw [hv] at hp'
    cases hp'
    exact hhas
  · exact fun hhas => ⟨p, hv, hhas⟩

theorem SameFor.othersSame (h : SameFor a ms ms') : OthersSame ms ms' a := by
  intro v hv
  refine ⟨by rw [IsMask, h.vars_eq v hv, IsMask], ?_⟩
  ext name
  constructor
  · rintro ⟨p, hp, hhas⟩
    rw [h.vars_eq v hv] at hp
    refine ⟨p, hp, ?_⟩
    rwa [Has, h.descend_eq hv hp] at hhas
  · rintro ⟨p, hp, hhas⟩
    refine ⟨p, (h.vars_eq v hv).trans hp, ?_⟩
    rwa [Has, h.descend_eq hv hp]

theorem gives_of_var
    (hcounted : Counted ms' []) (hothers : SameFor a ms ms') (ha : ms'.vars[a]? = some (some p))
    (hnames : ∀ name, Has ms'.store p name ↔ name ∈ names) :
    Gives ms ms' a names := by
  refine ⟨hcounted, ⟨p, ha⟩, ?_, hothers.othersSame⟩
  rw [paths_of_var ha]
  exact Set.ext hnames

theorem sameFor_of_lt {store' : MaskStore} {x : Option Addr} (hcounted : Counted ms [])
    (hsame : ∀ y, y < ms.store.next → submasksAt store' y = submasksAt ms.store y) :
    SameFor ms.vars.length ms ⟨store', ms.vars ++ [x]⟩ := by
  constructor
  · intro v hv
    rcases Nat.lt_or_ge v ms.vars.length with hlt | hle
    · exact List.getElem?_append_left hlt
    · rw [List.getElem?_eq_none hle, List.getElem?_eq_none]
      rw [List.length_append, List.length_singleton]
      omega
  · intro v r name y _ hr hy
    obtain ⟨impl, hget, -⟩ := hcounted.exists_of_pos
      (Nat.add_pos_left (handles_pos_of_descend hr hy) _)
    exact hsame y (ObjectHeap.lt_next hget)

end Paths

variable {b : Nat}

section Constructors

theorem has_of_no_submasks (h : submasksAt store p = some []) (name : MistParamNameAbs) :
    Has store p name ↔ name = [] := by
  cases name with
  | nil => exact ⟨fun _ => rfl, fun _ => MaskStore.has_nil store p⟩
  | cons subname name =>
    rw [MaskStore.has_cons, child, h]
    simp

theorem construct_gives (hcounted : Counted ms []) : Gives ms ms.construct ms.vars.length {[]} := by
  have hcounted' : Counted ms.construct [] :=
    push_var_counted (alloc_counted List.nodup_nil hcounted)
  refine gives_of_var (p := ms.store.next) hcounted' (sameFor_of_lt hcounted ?_) ?_ ?_
  · intro y hy
    rw [submasksAt, ObjectHeap.get?_alloc_of_lt hy, submasksAt]
  · exact List.getElem?_concat_length
  · intro name
    rw [Set.mem_singleton_iff]
    apply has_of_no_submasks
    rw [submasksAt]
    exact congrArg _ (ObjectHeap.get?_alloc_next ms.store _)

/-- The chain of implementations for a name is added to an empty one. -/
theorem addComponents_spec
    {refs : Nat} (name : MistParamNameAbs) (hcounted : Counted ⟨store, vars⟩ pending)
    (hget : store.get? p = some ⟨refs, []⟩) :
    ∃ store', addComponents store p name = some store' ∧ Counted ⟨store', vars⟩ pending ∧
      (∀ y, y < store.next → y ≠ p → submasksAt store' y = submasksAt store y) ∧
      ∀ name', Has store' p name' ↔ name' <+: name := by
  induction name generalizing store p refs with
  | nil =>
    refine ⟨store, rfl, hcounted, fun _ _ _ => rfl, ?_⟩
    intro name'
    rw [has_of_no_submasks (MaskStore.submasksAt_of_get? hget), List.prefix_nil]
  | cons component name ih =>
    have hp := ObjectHeap.lt_next hget
    have hcounted1 : Counted ⟨store.alloc ⟨1, []⟩, vars⟩ (store.next :: pending) :=
      alloc_counted List.nodup_nil hcounted
    have hget1 : (store.alloc ⟨1, []⟩).get? p = some ⟨refs, []⟩ := by
      rw [ObjectHeap.get?_alloc_of_lt hp, hget]
    obtain ⟨store2, hwrite, hnext, hget2⟩ := ObjectHeap.write_of_isSome
      (⟨refs, [(component, store.next)]⟩ : MaskImpl) (Option.isSome_of_eq_some hget1)
    have hcounted2 : Counted ⟨store2, vars⟩ pending := by
      refine write_submasks_counted hcounted1 hget1 hwrite (List.nodup_singleton _) ?_
      intro q
      rw [MaskImpl.children, List.map_singleton, List.map_nil, List.count_nil, Nat.zero_add,
        ← List.count_append]
      rfl
    have hsub2 : store2.get? store.next = some ⟨1, []⟩ := by
      rw [hget2, if_neg hp.ne', ObjectHeap.get?_alloc_next]
    obtain ⟨store', hadd, hcounted', hsame, hhas⟩ := ih hcounted2 hsub2
    rw [hnext, ObjectHeap.next_alloc] at hsame
    have hp' : submasksAt store' p = some [(component, store.next)] := by
      rw [hsame p (by omega) hp.ne, submasksAt, hget2, if_pos rfl, Option.map_some]
    refine ⟨store', ?_, hcounted', ?_, ?_⟩
    · rw [addComponents]
      rw [hget1, Option.bind_some, List.nil_append, hwrite, Option.bind_some, hadd]
    · intro y hy hyp
      rw [hsame y (by omega) hy.ne, submasksAt, hget2, if_neg hyp,
        ObjectHeap.get?_alloc_of_lt hy, submasksAt]
    · intro name'
      cases name' with
      | nil => exact ⟨fun _ => List.nil_prefix, fun _ => MaskStore.has_nil store' p⟩
      | cons subname name' =>
        rw [MaskStore.has_cons, child, hp', Option.bind_some, List.cons_prefix_cons]
        by_cases hname : component = subname
        · subst hname
          simp [hhas]
        · simp [hname, Ne.symm hname]

theorem constructName_gives (hcounted : Counted ms []) (name : MistParamNameAbs) :
    ∃ ms', ms.constructName name = some ms' ∧
      Gives ms ms' ms.vars.length {name' | name' <+: name} := by
  have hcounted1 : Counted ⟨ms.store.alloc ⟨1, []⟩, ms.vars⟩ [ms.store.next] :=
    alloc_counted List.nodup_nil hcounted
  obtain ⟨store', hadd, hcounted', hsame, hhas⟩ :=
    addComponents_spec name hcounted1 (ObjectHeap.get?_alloc_next ms.store _)
  refine ⟨⟨store', ms.vars ++ [some ms.store.next]⟩, ?_, ?_⟩
  · rw [constructName, hadd, Option.map_some]
  · refine gives_of_var (p := ms.store.next) (push_var_counted hcounted')
      (sameFor_of_lt hcounted ?_) List.getElem?_concat_length hhas
    intro y hy
    rw [hsame y (by rw [ObjectHeap.next_alloc]; omega) hy.ne, submasksAt,
      ObjectHeap.get?_alloc_of_lt hy, submasksAt]

theorem copy_gives (hcounted : Counted ms []) (hb : ms.IsMask b) :
    ∃ ms', ms.copy b = some ms' ∧ Gives ms ms' ms.vars.length (ms.paths b) := by
  obtain ⟨q, hb⟩ := hb
  obtain ⟨impl, hget, -⟩ := hcounted.exists_of_pos (Nat.add_pos_left (handles_pos_of_var hb) _)
  obtain ⟨store', href, hsame, hcounted'⟩ :=
    ref_counted hcounted (Option.isSome_of_eq_some hget)
  refine ⟨⟨store', ms.vars ++ [some q]⟩, ?_, ?_⟩
  · rw [copy, impl_var_eq_some.mpr hb, Option.bind_some, href, Option.map_some]
  · refine gives_of_var (push_var_counted hcounted')
      (sameFor_of_lt hcounted fun y _ => hsame.submasksAt_eq y) List.getElem?_concat_length ?_
    intro name
    rw [paths_of_var hb, Set.mem_ofPred_eq, Has,
      MaskStore.descend_congr (fun _ y _ => hsame.submasksAt_eq y), Has]

end Constructors

section Releases

theorem release_spec (hcounted : Counted ms []) (ha : ms.vars[a]? = some (some p)) :
    ∃ store, MaskStore.unref ms.store p = some store ∧
      Counted ⟨store, ms.vars.set a none⟩ [] ∧ SameFor a ms ⟨store, ms.vars.set a none⟩ := by
  obtain ⟨store, hunref, hcounted', hshrinks⟩ := unref_counted (clear_var_counted hcounted ha)
  have hvars : ∀ v, v ≠ a → (ms.vars.set a none)[v]? = ms.vars[v]? :=
    fun v hv => List.getElem?_set_ne hv.symm
  refine ⟨store, hunref, hcounted', hvars, ?_⟩
  intro v r name y hv hr hy
  have hpos : 0 < handles ⟨store, ms.vars.set a none⟩ r :=
    handles_pos_of_var ((hvars v hv).trans hr)
  exact Shrinks.submasksAt_of_descend hshrinks hcounted' hpos hy

theorem assign_gives (hcounted : Counted ms []) (ha : ms.IsMask a) (hb : ms.IsMask b) :
    ∃ ms', ms.assign a b = some ms' ∧ Gives ms ms' a (ms.paths b) := by
  obtain ⟨p, ha⟩ := ha
  obtain ⟨q, hb⟩ := hb
  by_cases hpq : p = q
  · subst hpq
    refine ⟨ms, ?_, ?_⟩
    · rw [assign, impl_var_eq_some.mpr ha, Option.bind_some, impl_var_eq_some.mpr hb,
        Option.bind_some, if_neg (by simp)]
    · refine gives_of_var hcounted (SameFor.refl a ms) ha ?_
      intro name
      rw [paths_of_var hb, Set.mem_ofPred_eq]
  · have hba : b ≠ a := by
      rintro rfl
      rw [ha] at hb
      cases hb
      exact hpq rfl
    obtain ⟨store1, hunref, hcounted1, hothers1⟩ := release_spec hcounted ha
    have hb1 : (ms.vars.set a none)[b]? = some (some q) := (hothers1.vars_eq b hba).trans hb
    obtain ⟨impl, hget, -⟩ := hcounted1.exists_of_pos
      (Nat.add_pos_left (handles_pos_of_var hb1) _)
    obtain ⟨store2, href, hsame, hcounted2⟩ :=
      ref_counted hcounted1 (Option.isSome_of_eq_some hget)
    have hlt := (List.getElem?_eq_some_iff.mp ha).1
    have hcounted3 := fill_var_counted hcounted2 (List.getElem?_set_self hlt)
    rw [List.set_set] at hcounted3
    have hothers3 : SameFor a ms ⟨store2, ms.vars.set a (some q)⟩ := by
      refine ⟨fun v hv => List.getElem?_set_ne hv.symm, ?_⟩
      intro v r name y hv hr hy
      exact (hsame.submasksAt_eq y).trans (hothers1.submasksAt_eq v r name y hv hr hy)
    refine ⟨⟨store2, ms.vars.set a (some q)⟩, ?_, ?_⟩
    · rw [assign, impl_var_eq_some.mpr ha, Option.bind_some, impl_var_eq_some.mpr hb,
        Option.bind_some, if_pos hpq, hunref, Option.bind_some, href, Option.map_some]
    · refine gives_of_var hcounted3 hothers3 (List.getElem?_set_self hlt) ?_
      intro name
      rw [paths_of_var hb, Set.mem_ofPred_eq, Has, hothers3.descend_eq hba hb, Has]

/-- A destroyed mask gives its reference back; the others keep what they hold. -/
theorem destroy_spec (hcounted : Counted ms []) (ha : ms.IsMask a) :
    ∃ ms', ms.destroy a = some ms' ∧ Counted ms' [] ∧ OthersSame ms ms' a ∧
      ¬ ms'.IsMask a := by
  obtain ⟨p, ha⟩ := ha
  obtain ⟨store, hunref, hcounted', hothers⟩ := release_spec hcounted ha
  refine ⟨⟨store, ms.vars.set a none⟩, ?_, hcounted', hothers.othersSame, ?_⟩
  · rw [destroy, impl_var_eq_some.mpr ha, Option.bind_some, hunref, Option.map_some]
  · rintro ⟨p', hp'⟩
    rw [List.getElem?_set_self (List.getElem?_eq_some_iff.mp ha).1] at hp'
    cases hp'

end Releases

/-- Operations on mask variables; a constructor makes a new variable. -/
inductive Operation where
  | construct
  | constructName (name : MistParamNameAbs)
  | copy (b : Nat)
  | assign (a b : Nat)
  | append (a b : Nat)
  | cut (a : Nat) (name : MistParamNameAbs)
  | destroy (a : Nat)

/-- An operation, with a limit for the rounds of the loop in `append`. -/
def exec (limit : Nat) (ms : Masks) : Operation → Option Masks
  | .construct => some ms.construct
  | .constructName name => ms.constructName name
  | .copy b => ms.copy b
  | .assign a b => ms.assign a b
  | .append a b => (appendRun limit ms a b).map AppendState.masks
  | .cut a name => ms.cut a name
  | .destroy a => ms.destroy a

/-- The operands are masks, and a name that is cut exists. -/
def Allowed (ms : Masks) : Operation → Prop
  | .construct => True
  | .constructName _ => True
  | .copy b => ms.IsMask b
  | .assign a b => ms.IsMask a ∧ ms.IsMask b
  | .append a b => ms.IsMask a ∧ ms.IsMask b
  | .cut a name => name ∈ ms.paths a
  | .destroy a => ms.IsMask a

def Correct (ms ms' : Masks) : Operation → Prop
  | .construct => Gives ms ms' ms.vars.length {[]}
  | .constructName name => Gives ms ms' ms.vars.length {name' | name' <+: name}
  | .copy b => Gives ms ms' ms.vars.length (ms.paths b)
  | .assign a b => Gives ms ms' a (ms.paths b)
  | .append a b => Gives ms ms' a (ms.paths a ∪ ms.paths b)
  | .cut a name => Gives ms ms' a {name' ∈ ms.paths a | ¬ (name <+: name' ∧ name' ≠ name)}
  | .destroy a => Counted ms' [] ∧ OthersSame ms ms' a ∧ ¬ ms'.IsMask a

/-- The states after any sequence of operations. -/
inductive Reachable : Masks → Prop
  | init : Reachable ⟨.empty, []⟩
  | step {ms ms' : Masks} {limit : Nat} (op : Operation) : Reachable ms → ms.Allowed op →
      exec limit ms op = some ms' → Reachable ms'

section Runs

variable {op : Operation}

/-- The counters are right, and the paths of every mask are bounded in length. -/
structure Consistent (ms : Masks) : Prop where
  counted : Counted ms []
  bounded : ∀ v, ∃ height, ∀ name ∈ ms.paths v, name.length < height

theorem append_gives (h : Consistent ms) (ha : ms.IsMask a) (hb : ms.IsMask b) :
    ∃ ms', (∃ limit0, ∀ limit, limit0 ≤ limit →
        appendRun limit ms a b = some ⟨ms', Modifier.ofVar a, []⟩) ∧
      Gives ms ms' a (ms.paths a ∪ ms.paths b) := by
  obtain ⟨p, ha⟩ := ha
  obtain ⟨q, hb⟩ := hb
  obtain ⟨height, hheight⟩ := h.bounded b
  rw [paths_of_var hb] at hheight
  obtain ⟨ms', hrun, hcounted', hothers, p', ha', hhas⟩ :=
    appendRun_spec h.counted ha hb hheight
  refine ⟨ms', hrun, gives_of_var hcounted' hothers ha' ?_⟩
  intro name
  rw [hhas name, paths_of_var ha, paths_of_var hb]
  exact Iff.rfl

theorem exists_rest_iff_prefix (name name' : MistParamNameAbs) :
    (∃ subname rest, name' = name ++ subname :: rest) ↔ name <+: name' ∧ name' ≠ name := by
  constructor
  · rintro ⟨subname, rest, rfl⟩
    exact ⟨List.prefix_append _ _, by simp⟩
  · rintro ⟨⟨rest, rfl⟩, hne⟩
    cases rest with
    | nil => exact absurd (List.append_nil name) hne
    | cons subname rest => exact ⟨subname, rest, rfl⟩

theorem cut_gives {name : MistParamNameAbs} (h : Counted ms []) (hname : name ∈ ms.paths a) :
    ∃ ms', ms.cut a name = some ms' ∧
      Gives ms ms' a {name' ∈ ms.paths a | ¬ (name <+: name' ∧ name' ≠ name)} := by
  obtain ⟨p, ha, hhas⟩ := hname
  obtain ⟨ms', hcut, hcounted', hothers, p', ha', hhas'⟩ := cut_spec h ha hhas
  refine ⟨ms', hcut, gives_of_var hcounted' hothers ha' ?_⟩
  intro name'
  rw [hhas' name', exists_rest_iff_prefix, paths_of_var ha]
  exact Iff.rfl

theorem exec_correct (h : Consistent ms) (hallowed : ms.Allowed op) :
    ∃ ms', (∃ limit0, ∀ limit, limit0 ≤ limit → exec limit ms op = some ms') ∧
      ms.Correct ms' op := by
  cases op with
  | construct => exact ⟨_, ⟨0, fun _ _ => rfl⟩, construct_gives h.counted⟩
  | constructName name =>
    obtain ⟨ms', hrun, hgives⟩ := constructName_gives h.counted name
    exact ⟨ms', ⟨0, fun _ _ => hrun⟩, hgives⟩
  | copy b =>
    obtain ⟨ms', hrun, hgives⟩ := copy_gives h.counted hallowed
    exact ⟨ms', ⟨0, fun _ _ => hrun⟩, hgives⟩
  | assign a b =>
    obtain ⟨ms', hrun, hgives⟩ := assign_gives h.counted hallowed.1 hallowed.2
    exact ⟨ms', ⟨0, fun _ _ => hrun⟩, hgives⟩
  | append a b =>
    obtain ⟨ms', ⟨limit0, hrun⟩, hgives⟩ := append_gives h hallowed.1 hallowed.2
    refine ⟨ms', ⟨limit0, ?_⟩, hgives⟩
    intro limit hlimit
    rw [exec, hrun limit hlimit, Option.map_some]
  | cut a name =>
    obtain ⟨ms', hrun, hgives⟩ := cut_gives h.counted hallowed
    exact ⟨ms', ⟨0, fun _ _ => hrun⟩, hgives⟩
  | destroy a =>
    obtain ⟨ms', hrun, hspec⟩ := destroy_spec h.counted hallowed
    exact ⟨ms', ⟨0, fun _ _ => hrun⟩, hspec⟩

theorem exec_unique {limit limit' : Nat} {ms1 ms2 : Masks} (h1 : exec limit ms op = some ms1)
    (h2 : exec limit' ms op = some ms2) :
    ms2 = ms1 := by
  cases op with
  | append a b =>
    obtain ⟨s1, hrun1, rfl⟩ := Option.map_eq_some_iff.mp h1
    obtain ⟨s2, hrun2, rfl⟩ := Option.map_eq_some_iff.mp h2
    obtain ⟨q1, hq1, hrun1⟩ := Option.bind_eq_some_iff.mp hrun1
    obtain ⟨q2, hq2, hrun2⟩ := Option.bind_eq_some_iff.mp hrun2
    obtain ⟨range1, hrange1, hrun1⟩ := Option.bind_eq_some_iff.mp hrun1
    obtain ⟨range2, hrange2, hrun2⟩ := Option.bind_eq_some_iff.mp hrun2
    obtain rfl := Option.some.inj (hq1.symm.trans hq2)
    obtain rfl := Option.some.inj (hrange1.symm.trans hrange2)
    rw [Loop.run_unique hrun1 hrun2]
  | _ => exact Option.some.inj (h2.symm.trans h1)

theorem Gives.consistent
    {names : Set MistParamNameAbs} (h : Consistent ms) (hgives : Gives ms ms' a names)
    (hbounded : ∃ height, ∀ name ∈ names, name.length < height) :
    Consistent ms' := by
  refine ⟨hgives.counted, ?_⟩
  intro v
  by_cases hv : v = a
  · rw [hv, hgives.paths_eq]
    exact hbounded
  · rw [(hgives.others v hv).2]
    exact h.bounded v

theorem Correct.consistent (h : Consistent ms) (hcorrect : ms.Correct ms' op) : Consistent ms' := by
  cases op with
  | construct =>
    refine Gives.consistent h hcorrect ⟨1, ?_⟩
    rintro name rfl
    exact Nat.zero_lt_one
  | constructName name =>
    exact Gives.consistent h hcorrect
      ⟨name.length + 1, fun _ hname => Nat.lt_succ_of_le hname.length_le⟩
  | copy b
  | assign a b => exact Gives.consistent h hcorrect (h.bounded b)
  | append a b =>
    obtain ⟨height, hheight⟩ := h.bounded a
    obtain ⟨height', hheight'⟩ := h.bounded b
    refine Gives.consistent h hcorrect ⟨max height height', ?_⟩
    rintro name (hname | hname)
    · exact (hheight name hname).trans_le (le_max_left _ _)
    · exact (hheight' name hname).trans_le (le_max_right _ _)
  | cut a name =>
    obtain ⟨height, hheight⟩ := h.bounded a
    exact Gives.consistent h hcorrect ⟨height, fun name' hname' => hheight name' hname'.1⟩
  | destroy a =>
    obtain ⟨hcounted, hothers, hnot⟩ := hcorrect
    refine ⟨hcounted, ?_⟩
    intro v
    by_cases hv : v = a
    · subst hv
      exact ⟨0, fun name ⟨p, hp, _⟩ => absurd ⟨p, hp⟩ hnot⟩
    · rw [(hothers v hv).2]
      exact h.bounded v

theorem Reachable.consistent (h : Reachable ms) : Consistent ms := by
  induction h with
  | init =>
    refine ⟨⟨fun p => ?_, fun p submasks hp => by cases hp⟩, fun v => ⟨0, ?_⟩⟩
    · rfl
    · rintro name ⟨p, hp, -⟩
      cases hp
  | step op _ hallowed hexec ih =>
    obtain ⟨ms', ⟨limit0, hrun⟩, hcorrect⟩ := exec_correct ih hallowed
    obtain rfl := exec_unique hexec (hrun limit0 le_rfl)
    exact Correct.consistent ih hcorrect

end Runs

/-- What holds of the masks after a sequence of operations. -/
structure Sound (ms : Masks) : Prop where
  /-- Sibling names are distinct. -/
  names_nodup : ∀ p impl, ms.store.get? p = some impl → (impl.submasks.map Prod.fst).Nodup
  /-- The counters are the numbers of masks. -/
  refs_eq : ∀ p impl, ms.store.get? p = some impl → impl.refs = ms.handles p
  /-- No mask has a deleted implementation. -/
  exists_of_handles : ∀ p, 0 < ms.handles p → ∃ impl, ms.store.get? p = some impl
  /-- Every operation returns; it changes the paths of one variable as it has to. -/
  operation_correct : ∀ op, ms.Allowed op →
    ∃ ms', (∃ limit0, ∀ limit, limit0 ≤ limit → exec limit ms op = some ms') ∧ ms.Correct ms' op
  /-- The traversal of `append` ends with balanced stacks. -/
  append_balanced : ∀ a b, ms.IsMask a → ms.IsMask b → ∃ ms' limit0, ∀ limit, limit0 ≤ limit →
    appendRun limit ms a b = some ⟨ms', Modifier.ofVar a, []⟩

/--
**Masks with copy on write.**  After every sequence of operations the counters are right and
sibling names are distinct; every further operation returns and has the effect on the paths
of its mask that it is made for, and on no other mask, shared or not.
-/
theorem copyOnWrite_sound
    {ms : Masks} (h : Reachable ms) :
    Sound ms := by
  have hconsistent := h.consistent
  have hcounted := hconsistent.counted
  refine ⟨?_, ?_, ?_, ?_, ?_⟩
  · intro p impl hget
    exact hcounted.names_nodup p _ (MaskStore.submasksAt_of_get? hget)
  · intro p impl hget
    rw [← MaskStore.refsAt_of_get? hget, hcounted.refs_eq, List.count_nil, Nat.add_zero]
  · intro p hpos
    obtain ⟨impl, hget, -⟩ := hcounted.exists_of_pos (Nat.add_pos_left hpos _)
    exact ⟨impl, hget⟩
  · exact fun op hallowed => exec_correct hconsistent hallowed
  · intro a b ha hb
    obtain ⟨ms', ⟨limit0, hrun⟩, -⟩ := append_gives hconsistent ha hb
    exact ⟨ms', limit0, hrun⟩

def nameMask : Masks :=
  (Masks.constructName ⟨.empty, []⟩ [['x'], ['y']]).getD ⟨.empty, []⟩

def sharedMasks : Masks :=
  (nameMask.copy 0).getD ⟨.empty, []⟩

theorem sharedMasks_reachable : Reachable sharedMasks := by
  have hname : exec 0 ⟨.empty, []⟩ (.constructName [['x'], ['y']]) = some nameMask := rfl
  have hcopy : exec 0 nameMask (.copy 0) = some sharedMasks := rfl
  exact .step (.copy 0) (.step (.constructName _) .init trivial hname) ⟨0, rfl⟩ hcopy

/-- Two masks with one implementation. -/
theorem copyOnWrite_sound_sharedMasks :
    Reachable sharedMasks ∧ sharedMasks.vars = [some 0, some 0] ∧ Sound sharedMasks :=
  ⟨sharedMasks_reachable, rfl, copyOnWrite_sound sharedMasks_reachable⟩

end Masks
end Mist
end KedrAux
