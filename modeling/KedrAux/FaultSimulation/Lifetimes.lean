import KedrAux.FaultSimulation.WeakRefs

/-!
# Lifetimes of indicators and of their states

In every run the store of weak references has exactly one request for each point with an indicator
of a module and for each registered function, so no indicator outlives its module; and each state
with a destroy function is destroyed once, when it is not used any more.
-/

namespace KedrAux
namespace FaultSimulation

variable {s s' : State} {m : Module} {ddata : DestroyData}

/-- The objects that a request under the module stands for. -/
def State.Uses (s : State) (m : Module) (ddata : DestroyData) : Prop :=
  match ddata.destroy with
  | .unsetIndicatorCallback => ∃ point ∈ s.simPoints,
      point.addr = ddata.userData ∧ point.currentIndicator.m = some m
  | .onModuleUnload => ∃ node ∈ s.indicators, node.addr = ddata.userData ∧ node.m = m

/-- The store and the two lists fit. -/
structure State.Referenced (s : State) : Prop where
  nodes : DistinctNodes s.weakRefs
  points : (s.simPoints.map SimulationPoint.addr).Nodup
  functions : (s.indicators.map IndicatorDescriptor.addr).Nodup
  once : ∀ m, (refsOf s.weakRefs m).Nodup
  exact : ∀ m ddata, ddata ∈ refsOf s.weakRefs m ↔ s.Uses m ddata
  loaded : ∀ m ddata, s.Uses m ddata → m ∈ s.loaded

/-- The states that were handed over, by their numbers. -/
structure State.Accounted (s : State) : Prop where
  installed_lt : ∀ x ∈ s.installed, x.1 < s.serials
  destroyed_lt : ∀ x ∈ s.destroyed, x < s.serials
  destroyed : s.destroyed.Nodup
  current : ∀ point ∈ s.simPoints, point.currentIndicator.destroy.isSome = true →
    (point.currentIndicator.serial, true) ∈ s.installed ∧
      point.currentIndicator.serial ∉ s.destroyed
  distinct : ∀ point ∈ s.simPoints, ∀ point' ∈ s.simPoints,
    point.currentIndicator.destroy.isSome = true → point'.currentIndicator.destroy.isSome = true →
      point.currentIndicator.serial = point'.currentIndicator.serial → point.addr = point'.addr
  ended : ∀ x, (x, true) ∈ s.installed → x ∉ s.destroyed → ∃ point ∈ s.simPoints,
    point.currentIndicator.destroy.isSome = true ∧ point.currentIndicator.serial = x

/-- Each state that was built was installed, or is destroyed if it has a destroy function. -/
def State.BuiltUsed (s : State) : Prop :=
  ∀ x ∈ s.built, x.1 ∈ s.installed.map Prod.fst ∨ (x.2 = true → x.1 ∈ s.destroyed)

variable {point : SimulationPoint} {info : FaultIndicatorInfo}

section Points

variable {points : List SimulationPoint} {addr : Addr}

theorem find_addr (h : point ∈ points) (hnodup : (points.map SimulationPoint.addr).Nodup) :
    (points.find? fun p => p.addr = point.addr) = some point := by
  induction points with
  | nil => cases h
  | cons p points ih =>
    have hdistinct := List.nodup_cons.mp hnodup
    rcases List.mem_cons.mp h with rfl | h
    · simp
    · have hne : p.addr ≠ point.addr := by
        intro heq
        exact hdistinct.1 (heq ▸ List.mem_map_of_mem h)
      rw [List.find?_cons_of_neg (by simpa using hne)]
      exact ih h hdistinct.2

@[simp] theorem map_addr_setCurrent :
    (setCurrent addr info points).map SimulationPoint.addr = points.map SimulationPoint.addr := by
  rw [setCurrent, List.map_map]
  refine List.map_congr_left fun point _ => ?_
  rw [Function.comp_apply]
  split_ifs <;> rfl

theorem mem_setCurrent :
    point ∈ setCurrent addr info points ↔
      (point.addr ≠ addr ∧ point ∈ points) ∨
        (∃ old ∈ points, old.addr = addr ∧ point = { old with currentIndicator := info }) := by
  rw [setCurrent, List.mem_map]
  constructor
  · rintro ⟨old, hold, rfl⟩
    split_ifs with haddr
    · exact Or.inr ⟨old, hold, haddr, rfl⟩
    · exact Or.inl ⟨haddr, hold⟩
  · rintro (⟨haddr, hmem⟩ | ⟨old, hold, haddr, rfl⟩)
    · exact ⟨point, hmem, if_neg haddr⟩
    · exact ⟨old, hold, if_pos haddr⟩

theorem forall_setCurrent {P : SimulationPoint → Prop}
    (hother : ∀ point ∈ points, point.addr ≠ addr → P point)
    (hnew : ∀ old ∈ points, old.addr = addr → P { old with currentIndicator := info }) :
    ∀ point ∈ setCurrent addr info points, P point := by
  intro point hpoint
  rcases mem_setCurrent.mp hpoint with ⟨haddr, hmem⟩ | ⟨old, hold, haddr, rfl⟩
  · exact hother point hmem haddr
  · exact hnew old hold haddr

end Points

section References

theorem State.Referenced.eq_of_addr
    (h : s.Referenced) {point point' : SimulationPoint} (hpoint : point ∈ s.simPoints)
    (hpoint' : point' ∈ s.simPoints) (haddr : point.addr = point'.addr) : point = point' :=
  List.inj_on_of_nodup_map h.points hpoint hpoint' haddr

theorem State.Referenced.mem_unset (h : s.Referenced) (hpoint : point ∈ s.simPoints) :
    ⟨.unsetIndicatorCallback, point.addr⟩ ∈ refsOf s.weakRefs m ↔
      point.currentIndicator.m = some m := by
  rw [h.exact]
  constructor
  · rintro ⟨point', hpoint', haddr, hm⟩
    rwa [h.eq_of_addr hpoint' hpoint haddr] at hm
  · exact fun hm => ⟨point, hpoint, rfl, hm⟩

theorem State.Referenced.unref (h : s.Referenced) (hpoint : point ∈ s.simPoints) :
    ∃ l, unrefIndicator s.weakRefs point.currentIndicator.m point.addr = some l ∧
      DistinctNodes l ∧ (∀ m, (refsOf l m).Nodup) ∧
      (∀ m ddata, ddata ∈ refsOf l m ↔
        ddata ≠ ⟨.unsetIndicatorCallback, point.addr⟩ ∧ ddata ∈ refsOf s.weakRefs m) ∧
      (NoEmptyNode s.weakRefs → NoEmptyNode l) := by
  have hmem : ∀ m, ⟨.unsetIndicatorCallback, point.addr⟩ ∈ refsOf s.weakRefs m ↔
      point.currentIndicator.m = some m := fun m => h.mem_unset hpoint
  cases hm : point.currentIndicator.m with
  | none =>
    refine ⟨_, rfl, h.nodes, h.once, fun m ddata => ?_, id⟩
    refine ⟨fun hddata => ⟨?_, hddata⟩, And.right⟩
    rintro rfl
    rw [hmem, hm] at hddata
    cases hddata
  | some m0 =>
    obtain ⟨l, hl, hnodes, hrefs, hempty⟩ := moduleWeakUnref_spec h.nodes ((hmem m0).mpr hm)
    refine ⟨l, hl, hnodes, fun m => ?_, fun m ddata => ?_, hempty⟩
    · rw [hrefs]
      split_ifs
      · exact (h.once m0).erase _
      · exact h.once m
    · rw [hrefs]
      split_ifs with hm'
      · rw [hm', (h.once m0).mem_erase_iff]
      · refine ⟨fun hddata => ⟨?_, hddata⟩, And.right⟩
        rintro rfl
        rw [hmem, hm] at hddata
        exact hm' (Option.some.inj hddata).symm

/-- Only the module of the indicator gets a reference to it. -/
theorem refIndicator_spec
    {l : WeakRefs} {addr : Addr} (hnodes : DistinctNodes l) (hnodup : ∀ m, (refsOf l m).Nodup)
    (hfresh : ∀ m, ⟨.unsetIndicatorCallback, addr⟩ ∉ refsOf l m) (new : Option Module) :
    DistinctNodes (refIndicator l new addr) ∧
      (∀ m, (refsOf (refIndicator l new addr) m).Nodup) ∧
      (∀ m ddata, ddata ∈ refsOf (refIndicator l new addr) m ↔
        (ddata = ⟨.unsetIndicatorCallback, addr⟩ ∧ new = some m) ∨ ddata ∈ refsOf l m) ∧
      (NoEmptyNode l → NoEmptyNode (refIndicator l new addr)) := by
  cases new with
  | none => exact ⟨hnodes, hnodup, fun m ddata => ⟨Or.inr, fun h => h.elim (by simp) id⟩, id⟩
  | some m0 => exact moduleWeakRef_mem hnodes hnodup hfresh m0

theorem uses_setCurrent (hpoint : point ∈ s.simPoints) (hsame : s'.indicators = s.indicators)
    (hpoints : s'.simPoints = setCurrent point.addr info s.simPoints) :
    s'.Uses m ddata ↔
      (ddata = ⟨.unsetIndicatorCallback, point.addr⟩ ∧ info.m = some m) ∨
        (ddata ≠ ⟨.unsetIndicatorCallback, point.addr⟩ ∧ s.Uses m ddata) := by
  obtain ⟨destroy, addr⟩ := ddata
  cases destroy with
  | unsetIndicatorCallback =>
    simp only [State.Uses, hpoints, mem_setCurrent, DestroyData.mk.injEq, true_and, ne_eq]
    constructor
    · rintro ⟨p, ⟨hne, hp⟩ | ⟨old, hold, haddr, rfl⟩, rfl, hm⟩
      · exact Or.inr ⟨hne, p, hp, rfl, hm⟩
      · exact Or.inl ⟨haddr, hm⟩
    · rintro (⟨rfl, hm⟩ | ⟨hne, p, hp, rfl, hm⟩)
      · exact ⟨_, Or.inr ⟨point, hpoint, rfl, rfl⟩, rfl, hm⟩
      · exact ⟨p, Or.inl ⟨hne, hp⟩, rfl, hm⟩
  | onModuleUnload =>
    simp only [State.Uses, hsame]
    refine ⟨fun h => Or.inr ⟨fun heq => (by cases heq), h⟩, ?_⟩
    rintro (⟨heq, -⟩ | ⟨-, h⟩)
    · cases heq
    · exact h

theorem State.Referenced.setCurrent (h : s.Referenced) (hpoint : point ∈ s.simPoints)
    (hpoints : s'.simPoints = setCurrent point.addr info s.simPoints)
    (hindicators : s'.indicators = s.indicators) (hloaded : s'.loaded = s.loaded)
    (hinfo : ∀ m, info.m = some m → m ∈ s.loaded)
    (hnodes : DistinctNodes s'.weakRefs) (honce : ∀ m, (refsOf s'.weakRefs m).Nodup)
    (hrefs : ∀ m ddata, ddata ∈ refsOf s'.weakRefs m ↔
      (ddata = ⟨.unsetIndicatorCallback, point.addr⟩ ∧ info.m = some m) ∨
        (ddata ≠ ⟨.unsetIndicatorCallback, point.addr⟩ ∧ ddata ∈ refsOf s.weakRefs m)) :
    s'.Referenced where
  nodes := hnodes
  points := by
    rw [hpoints, map_addr_setCurrent]
    exact h.points
  functions := by
    rw [hindicators]
    exact h.functions
  once := honce
  exact := fun m ddata => by
    rw [hrefs, h.exact, uses_setCurrent hpoint hindicators hpoints]
  loaded := fun m ddata huses => by
    rw [hloaded]
    rcases (uses_setCurrent hpoint hindicators hpoints).mp huses with ⟨-, hm⟩ | ⟨-, huses⟩
    · exact hinfo m hm
    · exact h.loaded m ddata huses

end References

section Accounts

theorem mem_destroyed_callDestroy {x : Nat} :
    x ∈ (callDestroy s info).destroyed ↔
      x ∈ s.destroyed ∨ (info.destroy.isSome = true ∧ x = info.serial) := by
  rw [callDestroy]
  split_ifs with h
  · simp [h]
  · simp [h]

theorem callDestroy_same :
    (callDestroy s info).simPoints = s.simPoints ∧ (callDestroy s info).indicators = s.indicators ∧
      (callDestroy s info).weakRefs = s.weakRefs ∧ (callDestroy s info).loaded = s.loaded ∧
      (callDestroy s info).serials = s.serials ∧ (callDestroy s info).installed = s.installed ∧
      (callDestroy s info).built = s.built := by
  rw [callDestroy]
  split_ifs <;> exact ⟨rfl, rfl, rfl, rfl, rfl, rfl, rfl⟩

theorem nodup_callDestroy (h : s.destroyed.Nodup)
    (hnew : info.destroy.isSome = true → info.serial ∉ s.destroyed) :
    (callDestroy s info).destroyed.Nodup := by
  rw [callDestroy]
  split_ifs with hdestroy
  · refine List.nodup_append.mpr ⟨h, List.nodup_singleton _, ?_⟩
    rintro x hx _ hmem rfl
    exact hnew hdestroy (List.mem_singleton.mp hmem ▸ hx)
  · exact h

/--
The indicator of a point is replaced: its state is destroyed.  `new` is the state that is
installed, if there is one.
-/
theorem State.Accounted.replace
    (h : s.Accounted) (hnodup : (s.simPoints.map SimulationPoint.addr).Nodup)
    (hpoint : point ∈ s.simPoints) {new : List (Nat × Bool)}
    (hnew : ∀ x ∈ new, x = (info.serial, info.destroy.isSome))
    (hinstalled : info.destroy.isSome = true → (info.serial, true) ∈ new)
    (hfresh : new ≠ [] → info.serial < s.serials ∧ info.serial ∉ s.destroyed ∧
      info.serial ∉ s.installed.map Prod.fst)
    (weakRefs : WeakRefs) :
    State.Accounted { callDestroy s point.currentIndicator with
      simPoints := setCurrent point.addr info (callDestroy s point.currentIndicator).simPoints
      weakRefs
      installed := (callDestroy s point.currentIndicator).installed ++ new } := by
  obtain ⟨hpoints, -, -, -, hserials, hinst, -⟩ :=
    @callDestroy_same s point.currentIndicator
  have heq : ∀ p ∈ s.simPoints, p.addr = point.addr → p = point := fun p hp haddr =>
    List.inj_on_of_nodup_map hnodup hp hpoint haddr
  have hne : new ≠ [] → info.serial ∉ s.destroyed ∧
      (point.currentIndicator.destroy.isSome = true →
        info.serial ≠ point.currentIndicator.serial) := by
    intro hnil
    refine ⟨(hfresh hnil).2.1, fun hdestroy hserial => (hfresh hnil).2.2 ?_⟩
    rw [hserial]
    exact List.mem_map_of_mem (h.current point hpoint hdestroy).1
  constructor
  · intro x hx
    simp only [hinst, List.mem_append] at hx
    simp only [hserials]
    rcases hx with hx | hx
    · exact h.installed_lt x hx
    · rw [hnew x hx]
      exact (hfresh (List.ne_nil_of_mem hx)).1
  · intro x hx
    simp only [hserials]
    rcases mem_destroyed_callDestroy.mp hx with hx | ⟨hdestroy, rfl⟩
    · exact h.destroyed_lt x hx
    · exact h.installed_lt _ (h.current point hpoint hdestroy).1
  · exact nodup_callDestroy h.destroyed fun hdestroy => (h.current point hpoint hdestroy).2
  · simp only [hpoints, hinst]
    refine forall_setCurrent (fun p hp haddr hdestroy => ?_) fun old _ _ hdestroy => ?_
    · obtain ⟨hmem, hnot⟩ := h.current p hp hdestroy
      refine ⟨List.mem_append_left _ hmem, fun hx => ?_⟩
      rcases mem_destroyed_callDestroy.mp hx with hx | ⟨hdestroy', hserial⟩
      · exact hnot hx
      · exact haddr (h.distinct p hp point hpoint hdestroy hdestroy' hserial)
    · have hmem := hinstalled hdestroy
      refine ⟨List.mem_append_right _ hmem, fun hx => ?_⟩
      obtain ⟨hnot, hserial⟩ := hne (List.ne_nil_of_mem hmem)
      rcases mem_destroyed_callDestroy.mp hx with hx | ⟨hdestroy', hx⟩
      · exact hnot hx
      · exact hserial hdestroy' hx
  · have hother : ∀ p ∈ s.simPoints, p.currentIndicator.destroy.isSome = true →
        info.destroy.isSome = true → p.currentIndicator.serial ≠ info.serial := by
      intro p hp hdestroy hinfo hserial
      have hfresh' := (hfresh (List.ne_nil_of_mem (hinstalled hinfo))).2.2
      rw [← hserial] at hfresh'
      exact hfresh' (List.mem_map_of_mem (h.current p hp hdestroy).1)
    simp only [hpoints]
    refine forall_setCurrent (fun p hp haddr => ?_) fun old _ hold => ?_
    · refine forall_setCurrent (fun p' hp' haddr' => h.distinct p hp p' hp') ?_
      intro old _ _ hdestroy hinfo hserial
      exact absurd hserial (hother p hp hdestroy hinfo)
    · refine forall_setCurrent (fun p' hp' _ hinfo hdestroy hserial => ?_) ?_
      · exact absurd hserial.symm (hother p' hp' hdestroy hinfo)
      · intro old' _ hold' _ _ _
        exact hold.trans hold'.symm
  · intro x hx hnot
    simp only [hinst, List.mem_append] at hx
    have hnot' : x ∉ s.destroyed ∧
        ¬ (point.currentIndicator.destroy.isSome = true ∧ x = point.currentIndicator.serial) :=
      not_or.mp fun hor => hnot (mem_destroyed_callDestroy.mpr hor)
    simp only [hpoints]
    rcases hx with hx | hx
    · obtain ⟨p, hp, hdestroy, hserial⟩ := h.ended x hx hnot'.1
      have haddr : p.addr ≠ point.addr := by
        intro haddr
        rw [heq p hp haddr] at hdestroy hserial
        exact hnot'.2 ⟨hdestroy, hserial.symm⟩
      exact ⟨p, mem_setCurrent.mpr (Or.inl ⟨haddr, hp⟩), hdestroy, hserial⟩
    · have hx' := hnew _ hx
      exact ⟨{ point with currentIndicator := info },
        mem_setCurrent.mpr (Or.inr ⟨point, hpoint, rfl, rfl⟩),
        (congrArg Prod.snd hx').symm, (congrArg Prod.fst hx').symm⟩

theorem State.Accounted.congr
    (h : s.Accounted) (hpoints : s'.simPoints = s.simPoints) (hserials : s'.serials = s.serials)
    (hinstalled : s'.installed = s.installed) (hdestroyed : s'.destroyed = s.destroyed) :
    s'.Accounted := by
  obtain ⟨h1, h2, h3, h4, h5, h6⟩ := h
  constructor <;> simp only [hpoints, hserials, hinstalled, hdestroyed] <;> assumption

theorem State.Accounted.handOver (h : s.Accounted) :
    State.Accounted { s with serials := s.serials + 1 } where
  installed_lt := fun x hx => Nat.lt_succ_of_lt (h.installed_lt x hx)
  destroyed_lt := fun x hx => Nat.lt_succ_of_lt (h.destroyed_lt x hx)
  destroyed := h.destroyed
  current := h.current
  distinct := h.distinct
  ended := h.ended

theorem State.Accounted.serials_fresh (h : s.Accounted) :
    s.serials ∉ s.destroyed ∧ s.serials ∉ s.installed.map Prod.fst := by
  refine ⟨fun hx => Nat.lt_irrefl _ (h.destroyed_lt _ hx), fun hx => ?_⟩
  obtain ⟨x, hx, heq⟩ := List.mem_map.mp hx
  exact Nat.lt_irrefl _ (heq ▸ h.installed_lt x hx)

theorem State.Accounted.points (h : s.Accounted) {points : List SimulationPoint}
    (hpoints : ∀ point, point.currentIndicator.destroy.isSome = true →
      (point ∈ points ↔ point ∈ s.simPoints)) :
    State.Accounted { s with simPoints := points } where
  installed_lt := h.installed_lt
  destroyed_lt := h.destroyed_lt
  destroyed := h.destroyed
  current := fun point hpoint hdestroy =>
    h.current point ((hpoints point hdestroy).mp hpoint) hdestroy
  distinct := fun point hpoint point' hpoint' hdestroy hdestroy' =>
    h.distinct point ((hpoints point hdestroy).mp hpoint) point'
      ((hpoints point' hdestroy').mp hpoint') hdestroy hdestroy'
  ended := fun x hx hnot => by
    obtain ⟨point, hpoint, hdestroy, hserial⟩ := h.ended x hx hnot
    exact ⟨point, (hpoints point hdestroy).mpr hpoint, hdestroy, hserial⟩

end Accounts

structure State.Kept (s : State) : Prop where
  referenced : s.Referenced
  accounted : s.Accounted
  noEmptyNode : NoEmptyNode s.weakRefs

/-- States are neither forgotten nor brought back. -/
structure State.Grows (s s' : State) : Prop where
  installed : ∀ x ∈ s.installed, x ∈ s'.installed
  destroyed : ∀ x ∈ s.destroyed, x ∈ s'.destroyed

theorem State.BuiltUsed.mem
    (h : s.BuiltUsed) (hgrows : s.Grows s') {x : Nat × Bool} (hx : x ∈ s.built) :
    x.1 ∈ s'.installed.map Prod.fst ∨ (x.2 = true → x.1 ∈ s'.destroyed) := by
  rcases h x hx with hx | hx
  · obtain ⟨y, hy, hyx⟩ := List.mem_map.mp hx
    exact Or.inl (List.mem_map.mpr ⟨y, hgrows.installed y hy, hyx⟩)
  · exact Or.inr fun hdestroy => hgrows.destroyed _ (hx hdestroy)

theorem State.BuiltUsed.grows (h : s.BuiltUsed) (hgrows : s.Grows s') (hbuilt : s'.built = s.built) :
    s'.BuiltUsed :=
  fun _ hx => h.mem hgrows (hbuilt ▸ hx)

section PointOperations

variable {formatString : Option CString}

/-- The state that is handed over was neither installed nor destroyed before. -/
def State.Fresh (s : State) (serial : Nat) : Prop :=
  serial < s.serials ∧ serial ∉ s.destroyed ∧ serial ∉ s.installed.map Prod.fst

/-- What a successful change of an indicator does. -/
structure State.Sets (s s' : State) (point : SimulationPoint) (info : FaultIndicatorInfo) : Prop where
  kept : s'.Kept
  grows : s.Grows s'
  points : s'.simPoints = setCurrent point.addr info s.simPoints
  indicators : s'.indicators = s.indicators
  loaded : s'.loaded = s.loaded
  built : s'.built = s.built
  installed : (info.serial, info.destroy.isSome) ∈ s'.installed

theorem fsimSetIndicatorInternal_eq
    (h : s.Kept) (hpoint : point ∈ s.simPoints) (hfresh : s.Fresh info.serial)
    (hinfo : ∀ m, info.m = some m → m ∈ s.loaded)
    (hcompatible : isDataFormatCompatible point.formatString formatString = true) :
    ∃ s', fsimSetIndicatorInternal s point formatString info = some (0, s') ∧
      s.Sets s' point info := by
  obtain ⟨hpoints, hindicators, hweakRefs, hloaded, hserials, hinstalled, hbuilt⟩ :=
    @callDestroy_same s point.currentIndicator
  obtain ⟨l, hl, hnodes, hnodup, hmem, hempty⟩ := h.referenced.unref hpoint
  have hfresh' : ∀ m, ⟨.unsetIndicatorCallback, point.addr⟩ ∉ refsOf l m := fun m hddata =>
    ((hmem m _).mp hddata).1 rfl
  obtain ⟨hnodes', hnodup', hmem', hempty'⟩ :=
    refIndicator_spec hnodes hnodup hfresh' info.m
  refine ⟨{ callDestroy s point.currentIndicator with
      simPoints := setCurrent point.addr info (callDestroy s point.currentIndicator).simPoints
      weakRefs := refIndicator l info.m point.addr
      installed := (callDestroy s point.currentIndicator).installed ++
        [(info.serial, info.destroy.isSome)] }, ?_, ⟨?_, ?_, ?_⟩, ?_, ?_, hindicators, hloaded,
    hbuilt, by simp⟩
  · simp only [fsimSetIndicatorInternal, hcompatible, Bool.not_true, Bool.false_eq_true, if_false,
      hweakRefs, hl]
    rfl
  · refine h.referenced.setCurrent hpoint (by simp only [hpoints]) hindicators hloaded hinfo hnodes'
      hnodup' fun m ddata => ?_
    rw [hmem', hmem]
  · refine h.accounted.replace h.referenced.points hpoint (fun x hx => List.mem_singleton.mp hx)
      (fun hdestroy => ?_) (fun _ => hfresh) _
    rw [hdestroy]
    exact List.mem_singleton_self _
  · exact hempty' (hempty h.noEmptyNode)
  · refine ⟨fun x hx => ?_, fun x hx => mem_destroyed_callDestroy.mpr (Or.inl hx)⟩
    simp only [hinstalled]
    exact List.mem_append_left _ hx
  · simp only [hpoints]

/-- Either nothing changes and there is an error, or the new indicator is installed. -/
theorem kedrFsimSetIndicator_spec {pointName : CString} (h : s.Kept) (hfresh : s.Fresh info.serial)
    (hinfo : ∀ m, info.m = some m → m ∈ s.loaded) :
    (∃ r, r ≠ 0 ∧ kedrFsimSetIndicator s pointName formatString info = some (r, s)) ∨
      ∃ s' point, kedrFsimSetIndicator s pointName formatString info = some (0, s') ∧
        s.Sets s' point info := by
  rw [kedrFsimSetIndicator]
  cases hlookup : fsimLookupPoint s pointName with
  | none => exact Or.inl ⟨-1, by omega, rfl⟩
  | some point =>
    have hpoint : point ∈ s.simPoints := List.mem_of_find?_eq_some hlookup
    cases hcompatible : isDataFormatCompatible point.formatString formatString with
    | false =>
      refine Or.inl ⟨1, by omega, ?_⟩
      simp [fsimSetIndicatorInternal, hcompatible]
    | true =>
      obtain ⟨s', hs', hsets⟩ := fsimSetIndicatorInternal_eq h hpoint hfresh hinfo hcompatible
      exact Or.inr ⟨s', point, hs', hsets⟩

theorem State.Referenced.congr (h : s.Referenced) (hpoints : s'.simPoints = s.simPoints)
    (hindicators : s'.indicators = s.indicators) (hweakRefs : s'.weakRefs = s.weakRefs)
    (hloaded : ∀ m ∈ s.loaded, m ∈ s'.loaded) : s'.Referenced := by
  have huses : ∀ m ddata, s'.Uses m ddata ↔ s.Uses m ddata := by
    intro m ddata
    rw [State.Uses, State.Uses, hpoints, hindicators]
  exact {
    nodes := by rw [hweakRefs]; exact h.nodes
    points := by rw [hpoints]; exact h.points
    functions := by rw [hindicators]; exact h.functions
    once := by rw [hweakRefs]; exact h.once
    exact := fun m ddata => by rw [hweakRefs, huses]; exact h.exact m ddata
    loaded := fun m ddata hu => hloaded m (h.loaded m ddata ((huses m ddata).mp hu)) }

theorem State.Kept.handOver (h : s.Kept) :
    State.Kept { s with serials := s.serials + 1 } ∧
      State.Fresh { s with serials := s.serials + 1 } s.serials :=
  ⟨⟨h.referenced.congr rfl rfl rfl fun _ hm => hm, h.accounted.handOver, h.noEmptyNode⟩,
    Nat.lt_succ_self _, h.accounted.serials_fresh⟩

theorem State.Kept.points (h : s.Kept) {points : List SimulationPoint}
    (hnodup : (points.map SimulationPoint.addr).Nodup)
    (hpoints : ∀ point, point.currentIndicator.destroy.isSome = true ∨
      point.currentIndicator.m.isSome = true → (point ∈ points ↔ point ∈ s.simPoints)) :
    State.Kept { s with simPoints := points } := by
  have huses : ∀ m ddata, State.Uses { s with simPoints := points } m ddata ↔ s.Uses m ddata := by
    rintro m ⟨destroy, addr⟩
    cases destroy with
    | onModuleUnload => exact Iff.rfl
    | unsetIndicatorCallback =>
      refine exists_congr fun point => and_congr_left fun ⟨_, hm⟩ => ?_
      exact hpoints point (Or.inr (by rw [hm]; rfl))
  refine ⟨⟨h.referenced.nodes, hnodup, h.referenced.functions, h.referenced.once, ?_, ?_⟩,
    h.accounted.points fun point hdestroy => hpoints point (Or.inl hdestroy), h.noEmptyNode⟩
  · exact fun m ddata => (h.referenced.exact m ddata).trans (huses m ddata).symm
  · exact fun m ddata hu => h.referenced.loaded m ddata ((huses m ddata).mp hu)

theorem kedrFsimPointRegister_kept {name : CString} {addr : Addr} (h : s.Kept)
    (hfresh : addr ∉ s.simPoints.map SimulationPoint.addr) :
    (kedrFsimPointRegister s name formatString addr).Kept := by
  rw [kedrFsimPointRegister]
  split_ifs
  · exact h
  · refine h.points ?_ fun point hpoint => ?_
    · rw [List.map_append]
      refine List.nodup_append.mpr ⟨h.referenced.points, List.nodup_singleton _, ?_⟩
      rintro x hx _ hmem rfl
      obtain rfl : x = addr := List.mem_singleton.mp hmem
      exact hfresh hx
    · rw [List.mem_append, List.mem_singleton]
      refine or_iff_left ?_
      rintro rfl
      rcases hpoint with hpoint | hpoint <;> cases hpoint

theorem kedrFsimPointUnregister_eq
    {addr : Addr} (h : s.Kept) (haddr : addr ∈ s.simPoints.map SimulationPoint.addr) :
    ∃ s', kedrFsimPointUnregister s addr = some s' ∧ s'.Kept ∧ s.Grows s' ∧ s'.built = s.built ∧
      s'.indicators = s.indicators ∧
      s'.simPoints.map SimulationPoint.addr = (s.simPoints.map SimulationPoint.addr).erase addr := by
  obtain ⟨point, hpoint, rfl⟩ := List.mem_map.mp haddr
  obtain ⟨hhanded, hfresh⟩ := h.handOver
  obtain ⟨s1, hs1, hsets⟩ : ∃ s1, fsimSetIndicatorInternal { s with serials := s.serials + 1 } point
      none { noIndicator with serial := s.serials } = some (0, s1) ∧
      State.Sets { s with serials := s.serials + 1 } s1 point
        { noIndicator with serial := s.serials } :=
    fsimSetIndicatorInternal_eq hhanded hpoint hfresh (fun m hm => (by cases hm)) rfl
  have hremoved : ∀ p ∈ s1.simPoints, p.addr = point.addr →
      p.currentIndicator.destroy = none ∧ p.currentIndicator.m = none := by
    rw [hsets.points]
    exact forall_setCurrent (fun p _ hne heq => absurd heq hne) fun _ _ _ _ => ⟨rfl, rfl⟩
  have hmap : (s1.simPoints.filter fun p => p.addr ≠ point.addr).map SimulationPoint.addr =
      (s.simPoints.map SimulationPoint.addr).erase point.addr := by
    have hs1addr : s1.simPoints.map SimulationPoint.addr = s.simPoints.map SimulationPoint.addr := by
      rw [hsets.points, map_addr_setCurrent]
    rw [h.referenced.points.erase_eq_filter, ← hs1addr, List.filter_map]
    congr 1
    exact List.filter_congr fun p _ => Bool.eq_iff_iff.mpr (by simp)
  refine ⟨{ s1 with simPoints := s1.simPoints.filter fun p => p.addr ≠ point.addr }, ?_, ?_,
    ⟨hsets.grows.installed, hsets.grows.destroyed⟩, hsets.built, hsets.indicators, hmap⟩
  · rw [kedrFsimPointUnregister, find_addr hpoint h.referenced.points]
    simp only [Option.bind_eq_bind, Option.bind_some, hs1]
    rfl
  · refine hsets.kept.points ?_ fun p hp => ?_
    · rw [hmap]
      exact h.referenced.points.erase _
    · rw [List.mem_filter]
      refine and_iff_left_of_imp fun hmem => ?_
      simp only [ne_eq, decide_not, Bool.not_eq_eq_eq_not, Bool.not_true, decide_eq_false_iff_not]
      intro haddr'
      obtain ⟨hdestroy, hm⟩ := hremoved p hmem haddr'
      rw [hdestroy, hm] at hp
      rcases hp with hp | hp <;> cases hp

end PointOperations

section FunctionOperations

variable {node : IndicatorDescriptor}

theorem find_node_addr {nodes : List IndicatorDescriptor} (h : node ∈ nodes) :
    ∃ node', (nodes.find? fun n => n.addr = node.addr) = some node' := by
  have hsome : (nodes.find? fun n => n.addr = node.addr).isSome = true :=
    List.find?_isSome.mpr ⟨node, h, by simp⟩
  exact Option.isSome_iff_exists.mp hsome

theorem State.Referenced.mem_onUnload (h : s.Referenced) (hnode : node ∈ s.indicators) :
    ⟨.onModuleUnload, node.addr⟩ ∈ refsOf s.weakRefs m ↔ node.m = m := by
  rw [h.exact]
  constructor
  · rintro ⟨node', hnode', haddr, hm⟩
    rwa [List.inj_on_of_nodup_map h.functions hnode' hnode haddr] at hm
  · exact fun hm => ⟨node, hnode, rfl, hm⟩

theorem State.Referenced.dropFunction
    (h : s.Referenced) (hpoints : s'.simPoints = s.simPoints) (hloaded : s'.loaded = s.loaded)
    (hindicators : s'.indicators = s.indicators.filter fun other => other.addr ≠ node.addr)
    (hnodes : DistinctNodes s'.weakRefs) (honce : ∀ m, (refsOf s'.weakRefs m).Nodup)
    (hrefs : ∀ m ddata, ddata ∈ refsOf s'.weakRefs m ↔
      ddata ≠ ⟨.onModuleUnload, node.addr⟩ ∧ ddata ∈ refsOf s.weakRefs m) : s'.Referenced := by
  have huses : ∀ m ddata, s'.Uses m ddata ↔
      ddata ≠ ⟨.onModuleUnload, node.addr⟩ ∧ s.Uses m ddata := by
    rintro m ⟨destroy, addr⟩
    cases destroy with
    | unsetIndicatorCallback =>
      simp only [State.Uses, hpoints]
      exact (and_iff_right fun heq => (by cases heq)).symm
    | onModuleUnload =>
      simp only [State.Uses, hindicators, List.mem_filter, ne_eq, DestroyData.mk.injEq, true_and,
        decide_not, Bool.not_eq_eq_eq_not, Bool.not_true, decide_eq_false_iff_not]
      constructor
      · rintro ⟨n, ⟨hn, hne⟩, rfl, hm⟩
        exact ⟨hne, n, hn, rfl, hm⟩
      · rintro ⟨hne, n, hn, rfl, hm⟩
        exact ⟨n, ⟨hn, hne⟩, rfl, hm⟩
  exact {
    nodes := hnodes
    points := by rw [hpoints]; exact h.points
    functions := by
      rw [hindicators]
      exact h.functions.sublist ((List.filter_sublist).map _)
    once := honce
    exact := fun m ddata => by rw [hrefs, h.exact, huses]
    loaded := fun m ddata hu => by
      rw [hloaded]
      exact h.loaded m ddata ((huses m ddata).mp hu).2 }

theorem kedrFsimIndicatorFunctionRegister_kept
    (h : s.Kept) (hfresh : node.addr ∉ s.indicators.map IndicatorDescriptor.addr)
    (hloaded : node.m ∈ s.loaded) : (kedrFsimIndicatorFunctionRegister s node).2.Kept := by
  rw [kedrFsimIndicatorFunctionRegister]
  split_ifs
  · exact h
  · exact h
  have hnew : ∀ m, ⟨.onModuleUnload, node.addr⟩ ∉ refsOf s.weakRefs m := by
    intro m hmem
    obtain ⟨node', hnode', haddr, -⟩ := (h.referenced.exact m _).mp hmem
    exact hfresh (List.mem_map.mpr ⟨node', hnode', haddr⟩)
  obtain ⟨hnodes, hnodup, hrefs, hempty⟩ :=
    moduleWeakRef_mem h.referenced.nodes h.referenced.once hnew node.m
  have huses : ∀ m ddata,
      State.Uses { s with
        indicators := s.indicators ++ [node]
        weakRefs := moduleWeakRef s.weakRefs node.m ⟨.onModuleUnload, node.addr⟩ } m ddata ↔
      (ddata = ⟨.onModuleUnload, node.addr⟩ ∧ some node.m = some m) ∨ s.Uses m ddata := by
    rintro m ⟨destroy, addr⟩
    cases destroy with
    | unsetIndicatorCallback =>
      refine (or_iff_right ?_).symm
      rintro ⟨heq, -⟩
      cases heq
    | onModuleUnload =>
      simp only [State.Uses, List.mem_append, List.mem_singleton, DestroyData.mk.injEq, true_and,
        Option.some.injEq]
      constructor
      · rintro ⟨n, hn | rfl, rfl, hm⟩
        · exact Or.inr ⟨n, hn, rfl, hm⟩
        · exact Or.inl ⟨rfl, hm⟩
      · rintro (⟨rfl, hm⟩ | ⟨n, hn, rfl, hm⟩)
        · exact ⟨node, Or.inr rfl, rfl, hm⟩
        · exact ⟨n, Or.inl hn, rfl, hm⟩
  refine ⟨⟨hnodes, h.referenced.points, ?_, hnodup, fun m ddata => ?_, fun m ddata hu => ?_⟩,
    h.accounted.congr rfl rfl rfl rfl, hempty h.noEmptyNode⟩
  · rw [List.map_append]
    refine List.nodup_append.mpr ⟨h.referenced.functions, List.nodup_singleton _, ?_⟩
    rintro x hx _ hmem rfl
    exact hfresh (List.mem_singleton.mp hmem ▸ hx)
  · rw [hrefs, h.referenced.exact, huses]
  · rcases (huses m ddata).mp hu with ⟨-, hm⟩ | hu
    · exact (Option.some.inj hm) ▸ hloaded
    · exact h.referenced.loaded m ddata hu

theorem kedrFsimIndicatorFunctionUnregister_eq (h : s.Kept) (name : CString) :
    ∃ s', kedrFsimIndicatorFunctionUnregister s name = some s' ∧ s'.Kept ∧ s.Grows s' ∧
      s'.built = s.built ∧ s'.simPoints = s.simPoints ∧
      (∀ node nodes, s.indicators = node :: nodes → name = node.indicatorName →
        s'.indicators = nodes) := by
  rw [kedrFsimIndicatorFunctionUnregister]
  cases hlookup : indicatorDescriptorLookup s name with
  | none =>
    refine ⟨s, rfl, h, ⟨fun _ hx => hx, fun _ hx => hx⟩, rfl, rfl, ?_⟩
    rintro node nodes hnodes rfl
    have hnone := List.find?_eq_none.mp hlookup node (by rw [hnodes]; exact List.mem_cons_self)
    simp at hnone
  | some node =>
    have hnode : node ∈ s.indicators := List.mem_of_find?_eq_some hlookup
    have hmem : ∀ m, ⟨.onModuleUnload, node.addr⟩ ∈ refsOf s.weakRefs m ↔ node.m = m :=
      fun m => h.referenced.mem_onUnload hnode
    obtain ⟨l, hl, hnodes, hrefs, hempty⟩ :=
      moduleWeakUnref_spec h.referenced.nodes ((hmem node.m).mpr rfl)
    refine ⟨{ s with
        weakRefs := l
        indicators := s.indicators.filter fun other => other.addr ≠ node.addr }, ?_,
      ⟨h.referenced.dropFunction rfl rfl rfl hnodes (fun m => ?_) fun m ddata => ?_,
        h.accounted.congr rfl rfl rfl rfl, hempty h.noEmptyNode⟩,
      ⟨fun _ hx => hx, fun _ hx => hx⟩, rfl, rfl, ?_⟩
    · simp only [hl]
      rfl
    · simp only [hrefs]
      split_ifs
      · exact (h.referenced.once node.m).erase _
      · exact h.referenced.once m
    · simp only [hrefs]
      split_ifs with hm
      · rw [hm, (h.referenced.once node.m).mem_erase_iff]
      · refine ⟨fun hddata => ⟨?_, hddata⟩, And.right⟩
        rintro rfl
        exact hm ((hmem m).mp hddata).symm
    · rintro node' nodes hindicators rfl
      rw [indicatorDescriptorLookup, hindicators, List.find?_cons_of_pos (by simp)] at hlookup
      obtain rfl := Option.some.inj hlookup
      have hfunctions := h.referenced.functions
      rw [hindicators, List.map_cons, List.nodup_cons] at hfunctions
      simp only [hindicators]
      rw [List.filter_cons_of_neg (by simp)]
      refine List.filter_eq_self.mpr fun other hother => ?_
      simp only [ne_eq, decide_not, Bool.not_eq_eq_eq_not, Bool.not_true, decide_eq_false_iff_not]
      exact fun heq => hfunctions.1 (heq ▸ List.mem_map_of_mem hother)

end FunctionOperations

end FaultSimulation
end KedrAux
