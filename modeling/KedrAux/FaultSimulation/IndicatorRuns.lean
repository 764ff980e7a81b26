import KedrAux.FaultSimulation.Lifetimes

/-!
# Runs of the fault simulation

Setting an indicator by the name of its function, the unloading of modules, and what holds in every
run.
-/

namespace KedrAux
namespace FaultSimulation

variable {s s' : State} {a : Action} {m : Module}

theorem State.Grows.refl (s : State) : s.Grows s := ⟨fun _ hx => hx, fun _ hx => hx⟩

theorem State.Grows.trans {s1 s2 s3 : State} (h : s1.Grows s2) (h' : s2.Grows s3) : s1.Grows s3 :=
  ⟨fun x hx => h'.installed x (h.installed x hx), fun x hx => h'.destroyed x (h.destroyed x hx)⟩

theorem State.Kept.destroyNew
    {info : FaultIndicatorInfo} (h : s.Kept) (hfresh : s.Fresh info.serial) :
    (callDestroy s info).Kept := by
  obtain ⟨hpoints, hindicators, hweakRefs, hloaded, hserials, hinstalled, -⟩ :=
    @callDestroy_same s info
  have hcurrent : ∀ x, (x, true) ∈ s.installed → x ≠ info.serial := by
    rintro x hx rfl
    exact hfresh.2.2 (List.mem_map_of_mem hx)
  refine ⟨h.referenced.congr hpoints hindicators hweakRefs fun m hm => hloaded ▸ hm, ?_,
    hweakRefs ▸ h.noEmptyNode⟩
  constructor
  · rw [hinstalled, hserials]
    exact h.accounted.installed_lt
  · intro x hx
    rw [hserials]
    rcases mem_destroyed_callDestroy.mp hx with hx | ⟨-, rfl⟩
    · exact h.accounted.destroyed_lt x hx
    · exact hfresh.1
  · exact nodup_callDestroy h.accounted.destroyed fun _ => hfresh.2.1
  · intro point hpoint hdestroy
    rw [hpoints] at hpoint
    rw [hinstalled]
    obtain ⟨hmem, hnot⟩ := h.accounted.current point hpoint hdestroy
    refine ⟨hmem, fun hx => ?_⟩
    rcases mem_destroyed_callDestroy.mp hx with hx | ⟨-, hx⟩
    · exact hnot hx
    · exact hcurrent _ hmem hx
  · rw [hpoints]
    exact h.accounted.distinct
  · intro x hx hnot
    rw [hinstalled] at hx
    rw [hpoints]
    exact h.accounted.ended x hx fun hx' => hnot (mem_destroyed_callDestroy.mpr (Or.inl hx'))

/-- The result of a call that sets an indicator. -/
structure Outcome (s s' : State) (result : Int) : Prop where
  kept : s'.Kept
  built : s'.BuiltUsed
  grows : s.Grows s'
  unchanged : result ≠ 0 →
    s'.simPoints = s.simPoints ∧ s'.weakRefs = s.weakRefs ∧ s'.indicators = s.indicators

/-- A state is handed over, and destroyed if it cannot be installed; `new` tells whether it was
built by `init_state`. -/
theorem installNew_outcome
    {pointName : CString} {formatString : Option CString} {info : FaultIndicatorInfo}
    {new : List (Nat × Bool)} (h : s.Kept) (hbuilt : s.BuiltUsed) (hserial : info.serial = s.serials)
    (hinfo : ∀ m, info.m = some m → m ∈ s.loaded)
    (hnew : ∀ x ∈ new, x = (s.serials, info.destroy.isSome)) :
    ∃ result s', kedrFsimSetIndicator
        { s with serials := s.serials + 1, built := s.built ++ new } pointName formatString info =
      some (result, s') ∧ Outcome s (if result ≠ 0 then callDestroy s' info else s') result := by
  obtain ⟨hhanded, hfresh⟩ := h.handOver
  -- the store and the points do not depend on what was built
  have hkept : State.Kept { s with serials := s.serials + 1, built := s.built ++ new } :=
    ⟨hhanded.referenced.congr rfl rfl rfl fun _ hm => hm,
      hhanded.accounted.congr rfl rfl rfl rfl, hhanded.noEmptyNode⟩
  have hfresh' : State.Fresh { s with serials := s.serials + 1, built := s.built ++ new }
      info.serial := by
    rw [hserial]
    exact hfresh
  rcases kedrFsimSetIndicator_spec hkept hfresh' hinfo with
    ⟨result, hresult, heq⟩ | ⟨s', point, heq, hsets⟩
  · refine ⟨result, _, heq, ?_⟩
    rw [if_pos hresult]
    obtain ⟨hpoints, hindicators, hweakRefs, -, -, hinstalled, hbuilt'⟩ :=
      @callDestroy_same { s with serials := s.serials + 1, built := s.built ++ new } info
    have hgrows : s.Grows (callDestroy
        { s with serials := s.serials + 1, built := s.built ++ new } info) :=
      ⟨fun x hx => by rw [hinstalled]; exact hx,
        fun x hx => mem_destroyed_callDestroy.mpr (Or.inl hx)⟩
    refine ⟨hkept.destroyNew hfresh', fun x hx => ?_, hgrows,
      fun _ => ⟨hpoints, hweakRefs, hindicators⟩⟩
    rw [hbuilt'] at hx
    rcases List.mem_append.mp hx with hx | hx
    · exact hbuilt.mem hgrows hx
    · rw [hnew x hx]
      exact Or.inr fun hsome => mem_destroyed_callDestroy.mpr (Or.inr ⟨hsome, hserial.symm⟩)
  · have hgrows : s.Grows s' := ⟨hsets.grows.installed, hsets.grows.destroyed⟩
    refine ⟨0, s', heq, ?_⟩
    rw [if_neg (not_not.mpr rfl)]
    refine ⟨hsets.kept, fun x hx => ?_, hgrows, fun hne => absurd rfl hne⟩
    rw [hsets.built] at hx
    rcases List.mem_append.mp hx with hx | hx
    · exact hbuilt.mem hgrows hx
    · rw [hnew x hx, ← hserial]
      exact Or.inl (List.mem_map_of_mem hsets.installed)

theorem setIndicator_outcome
    {pointName : CString} {formatString : Option CString} {info : FaultIndicatorInfo}
    (h : s.Kept) (hbuilt : s.BuiltUsed) (hserial : info.serial = s.serials)
    (hinfo : ∀ m, info.m = some m → m ∈ s.loaded) :
    ∃ result s', kedrFsimSetIndicator { s with serials := s.serials + 1 } pointName formatString info =
      some (result, s') ∧ Outcome s s' result := by
  obtain ⟨hhanded, hfresh⟩ := h.handOver
  have hfresh' : State.Fresh { s with serials := s.serials + 1 } info.serial := by
    rw [hserial]
    exact hfresh
  rcases kedrFsimSetIndicator_spec hhanded hfresh' hinfo with
    ⟨result, hresult, heq⟩ | ⟨s', point, heq, hsets⟩
  · exact ⟨result, _, heq, hhanded, hbuilt, ⟨fun _ hx => hx, fun _ hx => hx⟩,
      fun _ => ⟨rfl, rfl, rfl⟩⟩
  · have hgrows : s.Grows s' := ⟨hsets.grows.installed, hsets.grows.destroyed⟩
    exact ⟨0, s', heq, hsets.kept, hbuilt.grows hgrows hsets.built, hgrows,
      fun hne => absurd rfl hne⟩

theorem kedrFsimSetIndicatorByName_outcome
    {pointName : CString} {indicatorName : Option CString} {initResult : Option Addr}
    (h : s.Kept) (hbuilt : s.BuiltUsed) :
    ∃ result s', kedrFsimSetIndicatorByName s pointName indicatorName initResult =
      some (result, s') ∧ Outcome s s' result := by
  have hsame : ∀ result, Outcome s s result := fun result =>
    ⟨h, hbuilt, State.Grows.refl s, fun _ => ⟨rfl, rfl, rfl⟩⟩
  match indicatorName with
  | none => exact setIndicator_outcome h hbuilt rfl fun m hm => (by cases hm)
  | some [] => exact setIndicator_outcome h hbuilt rfl fun m hm => (by cases hm)
  | some (c :: name) =>
    simp only [kedrFsimSetIndicatorByName]
    cases hlookup : indicatorDescriptorLookup s (c :: name) with
    | none => exact ⟨-1, s, rfl, hsame _⟩
    | some node =>
      have hnode : node ∈ s.indicators := List.mem_of_find?_eq_some hlookup
      simp only
      by_cases hfailed : node.initState.isSome = true ∧ initResult = none
      · rw [if_pos hfailed]
        exact ⟨-2, s, rfl, hsame _⟩
      rw [if_neg hfailed]
      have hloaded : ∀ m, some node.m = some m → m ∈ s.loaded := by
        intro m hm
        exact h.referenced.loaded m ⟨.onModuleUnload, node.addr⟩
          ⟨node, hnode, rfl, Option.some.inj hm⟩
      have hnew : ∀ x ∈ (if node.initState.isSome = true then
          [(s.serials, node.destroyState.isSome)] else []),
          x = (s.serials, node.destroyState.isSome) := by
        intro x hx
        split_ifs at hx
        · exact List.mem_singleton.mp hx
        · cases hx
      obtain ⟨result, s', heq, houtcome⟩ := @installNew_outcome s pointName node.formatString
        ⟨node.fi, some node.m, if node.initState.isSome = true then initResult.getD 0 else 0,
          node.destroyState, s.serials⟩ _ h hbuilt rfl hloaded hnew
      exact ⟨result, _, by rw [heq]; rfl, houtcome⟩

/-- What the loop over the callbacks of a module keeps. -/
structure State.Unloading (s : State) (m : Module) : Prop where
  referenced : s.Referenced
  accounted : s.Accounted
  others : OthersNotEmpty s.weakRefs m

variable {ddata : DestroyData}

theorem State.Referenced.mem_erase (h : s.Referenced)
    (honly : ∀ m', ddata ∈ refsOf s.weakRefs m' → m' = m) :
    (∀ m', (refsOf (updateNode m
      (fun node => some { node with destroyData := node.destroyData.erase ddata }) s.weakRefs)
        m').Nodup) ∧
    ∀ m' ddata', ddata' ∈ refsOf (updateNode m
      (fun node => some { node with destroyData := node.destroyData.erase ddata }) s.weakRefs) m' ↔
        ddata' ≠ ddata ∧ ddata' ∈ refsOf s.weakRefs m' := by
  obtain ⟨-, hrefs, -⟩ := eraseNode_spec h.nodes m ddata
  constructor
  · intro m'
    rw [hrefs]
    split_ifs
    · exact (h.once m).erase _
    · exact h.once m'
  · intro m' ddata'
    rw [hrefs]
    split_ifs with hm
    · rw [hm, (h.once m).mem_erase_iff]
    · refine ⟨fun hddata' => ⟨?_, hddata'⟩, And.right⟩
      rintro rfl
      exact hm (honly m' hddata')

theorem State.Unloading.notify {rest : List DestroyData} (h : s.Unloading m)
    (hrefs : refsOf s.weakRefs m = ddata :: rest) :
    ∃ s', notifyUnload m s ddata = some s' ∧ s'.Unloading m ∧ refsOf s'.weakRefs m = rest ∧
      s.Grows s' ∧ s'.built = s.built ∧ s'.loaded = s.loaded := by
  have hmem : ddata ∈ refsOf s.weakRefs m := by
    rw [hrefs]
    exact List.mem_cons_self
  obtain ⟨hnodes, hrefs', hothers⟩ := eraseNode_spec h.referenced.nodes m ddata
  have hrest : (refsOf s.weakRefs m).erase ddata = rest := by
    rw [hrefs, List.erase_cons_head]
  have huses := (h.referenced.exact m ddata).mp hmem
  obtain ⟨destroy, addr⟩ := ddata
  cases destroy with
  | unsetIndicatorCallback =>
    obtain ⟨point, hpoint, rfl, hm⟩ := huses
    have honly : ∀ m', ⟨.unsetIndicatorCallback, point.addr⟩ ∈ refsOf s.weakRefs m' → m' = m := by
      intro m' hmem'
      rw [h.referenced.mem_unset hpoint, hm] at hmem'
      exact (Option.some.inj hmem').symm
    obtain ⟨honce, hexact⟩ := h.referenced.mem_erase honly
    obtain ⟨hpoints, hindicators, hweakRefs, hloaded, hserials, hinstalled, hbuilt⟩ :=
      @callDestroy_same s point.currentIndicator
    have haccounted := @State.Accounted.replace s point noIndicator h.accounted
      h.referenced.points hpoint [] (fun x hx => (by cases hx)) (fun hx => (by cases hx))
      (fun hne => absurd rfl hne) []
    refine ⟨{ callDestroy s point.currentIndicator with
        simPoints := setCurrent point.addr noIndicator
          (callDestroy s point.currentIndicator).simPoints
        weakRefs := updateNode m (fun node => some { node with
          destroyData := node.destroyData.erase ⟨.unsetIndicatorCallback, point.addr⟩ })
          (callDestroy s point.currentIndicator).weakRefs }, ?_, ⟨?_, ?_, ?_⟩, ?_,
      ⟨fun x hx => by simp only [hinstalled]; exact hx,
        fun x hx => mem_destroyed_callDestroy.mpr (Or.inl hx)⟩, hbuilt, hloaded⟩
    · simp only [notifyUnload, FaultSimulation.unsetIndicatorCallback,
        find_addr hpoint h.referenced.points]
      rfl
    · have hset : setCurrent point.addr noIndicator
          (callDestroy s point.currentIndicator).simPoints =
            setCurrent point.addr noIndicator s.simPoints := by
        rw [hpoints]
      refine h.referenced.setCurrent hpoint hset hindicators hloaded
        (fun m hm => (by cases hm)) (by simp only [hweakRefs]; exact hnodes)
        (by simp only [hweakRefs]; exact honce) fun m' ddata' => ?_
      simp only [hweakRefs, hexact]
      refine (or_iff_right ?_).symm
      rintro ⟨-, hm'⟩
      cases hm'
    · refine haccounted.congr rfl rfl ?_ rfl
      simp
    · simp only [hweakRefs]
      exact hothers h.others
    · simp only [hweakRefs]
      rw [hrefs', if_pos rfl, hrest]
  | onModuleUnload =>
    obtain ⟨node, hnode, rfl, hm⟩ := huses
    have honly : ∀ m', ⟨.onModuleUnload, node.addr⟩ ∈ refsOf s.weakRefs m' → m' = m := by
      intro m' hmem'
      rw [h.referenced.mem_onUnload hnode] at hmem'
      exact hmem'.symm.trans hm
    obtain ⟨honce, hexact⟩ := h.referenced.mem_erase honly
    obtain ⟨node', hfind⟩ := find_node_addr hnode
    refine ⟨{ s with
        indicators := s.indicators.filter fun other => other.addr ≠ node.addr
        weakRefs := updateNode m (fun node' => some { node' with
          destroyData := node'.destroyData.erase ⟨.onModuleUnload, node.addr⟩ }) s.weakRefs }, ?_,
      ⟨h.referenced.dropFunction rfl rfl rfl hnodes honce hexact,
        h.accounted.congr rfl rfl rfl rfl, hothers h.others⟩, ?_,
      ⟨fun _ hx => hx, fun _ hx => hx⟩, rfl, rfl⟩
    · simp only [notifyUnload, FaultSimulation.onModuleUnload, hfind]
      rfl
    · rw [hrefs', if_pos rfl, hrest]

theorem State.Unloading.notifyAll
    {l : List DestroyData} (h : s.Unloading m) (hrefs : refsOf s.weakRefs m = l) :
    ∃ s', l.foldlM (notifyUnload m) s = some s' ∧ s'.Unloading m ∧ refsOf s'.weakRefs m = [] ∧
      s.Grows s' ∧ s'.built = s.built ∧ s'.loaded = s.loaded := by
  induction l generalizing s with
  | nil => exact ⟨s, rfl, h, hrefs, State.Grows.refl s, rfl, rfl⟩
  | cons ddata rest ih =>
    obtain ⟨s1, hs1, hunloading, hrest, hgrows, hbuilt, hloaded⟩ := h.notify hrefs
    obtain ⟨s', hs', hunloading', hnil, hgrows', hbuilt', hloaded'⟩ := ih hunloading hrest
    refine ⟨s', ?_, hunloading', hnil, hgrows.trans hgrows', hbuilt'.trans hbuilt,
      hloaded'.trans hloaded⟩
    rw [List.foldlM_cons, hs1]
    exact hs'

theorem detectorModulesUnload_eq (h : s.Kept) (m : Module) :
    ∃ s', detectorModulesUnload s m = some s' ∧ s'.Kept ∧ s.Grows s' ∧ s'.built = s.built ∧
      s'.loaded = s.loaded ∧ ∀ ddata, ¬ s'.Uses m ddata := by
  rw [detectorModulesUnload]
  cases hnode : getModuleNode s.weakRefs m with
  | none =>
    refine ⟨s, rfl, h, State.Grows.refl s, rfl, rfl, fun ddata huses => ?_⟩
    have hmem := (h.referenced.exact m ddata).mpr huses
    rw [refsOf, hnode] at hmem
    cases hmem
  | some node =>
    have hunloading : s.Unloading m :=
      ⟨h.referenced, h.accounted, fun node hnode _ => h.noEmptyNode node hnode⟩
    have hrefs : refsOf s.weakRefs m = node.destroyData := by
      rw [refsOf, hnode]
      rfl
    obtain ⟨s', hs', hunloading', hnil, hgrows, hbuilt, hloaded⟩ := hunloading.notifyAll hrefs
    obtain ⟨hnodes, hdelete, hempty⟩ := deleteNode_spec hunloading'.referenced.nodes m
    have hsame : ∀ m', refsOf (updateNode m (fun _ => none) s'.weakRefs) m' =
        refsOf s'.weakRefs m' := by
      intro m'
      rw [hdelete]
      split_ifs with hm
      · rw [hm, hnil]
      · rfl
    refine ⟨{ s' with weakRefs := updateNode m (fun _ => none) s'.weakRefs },
      by simp only [hs']; rfl,
      ⟨⟨hnodes, hunloading'.referenced.points, hunloading'.referenced.functions, ?_, ?_,
        hunloading'.referenced.loaded⟩, hunloading'.accounted.congr rfl rfl rfl rfl,
        hempty hunloading'.others⟩, ⟨hgrows.installed, hgrows.destroyed⟩, hbuilt, hloaded, ?_⟩
    · intro m'
      rw [hsame]
      exact hunloading'.referenced.once m'
    · intro m' ddata
      rw [hsame]
      exact hunloading'.referenced.exact m' ddata
    · intro ddata huses
      have hmem := (hunloading'.referenced.exact m ddata).mpr huses
      rw [hnil] at hmem
      cases hmem

theorem State.Kept.load (h : s.Kept) (m : Module) :
    State.Kept { s with loaded := m :: s.loaded.filter (· ≠ m) } := by
  refine ⟨h.referenced.congr rfl rfl rfl fun m' hm' => ?_, h.accounted.congr rfl rfl rfl rfl,
    h.noEmptyNode⟩
  by_cases hm : m' = m
  · exact hm ▸ List.mem_cons_self
  · exact List.mem_cons_of_mem _ (List.mem_filter.mpr ⟨hm', by simpa using hm⟩)

theorem State.Kept.unload (h : s.Kept) (hunused : ∀ ddata, ¬ s.Uses m ddata) :
    State.Kept { s with loaded := s.loaded.filter (· ≠ m) } := by
  obtain ⟨hnodes, hpoints, hfunctions, honce, hexact, hloaded⟩ := h.referenced
  refine ⟨⟨hnodes, hpoints, hfunctions, honce, hexact, fun m' ddata huses => ?_⟩,
    h.accounted.congr rfl rfl rfl rfl, h.noEmptyNode⟩
  have hm : m' ≠ m := by
    rintro rfl
    exact hunused ddata huses
  exact List.mem_filter.mpr ⟨hloaded m' ddata huses, by simpa using hm⟩

theorem State.Kept.init : State.init.Kept := by
  refine ⟨⟨List.nodup_nil, List.nodup_nil, List.nodup_nil, fun _ => List.nodup_nil, ?_, ?_⟩,
    ⟨?_, ?_, List.nodup_nil, ?_, ?_, ?_⟩, ?_⟩
  · rintro m ⟨destroy, addr⟩
    cases destroy <;> simp [State.init, State.Uses, refsOf, getModuleNode]
  · rintro m ⟨destroy, addr⟩
    cases destroy <;> simp [State.init, State.Uses]
  all_goals simp [State.init, NoEmptyNode]

theorem kedrFsimPointRegister_same (name : CString) (formatString : Option CString) (addr : Addr) :
    (kedrFsimPointRegister s name formatString addr).installed = s.installed ∧
      (kedrFsimPointRegister s name formatString addr).destroyed = s.destroyed ∧
      (kedrFsimPointRegister s name formatString addr).built = s.built := by
  rw [kedrFsimPointRegister]
  split_ifs <;> exact ⟨rfl, rfl, rfl⟩

theorem kedrFsimIndicatorFunctionRegister_same (node : IndicatorDescriptor) :
    (kedrFsimIndicatorFunctionRegister s node).2.installed = s.installed ∧
      (kedrFsimIndicatorFunctionRegister s node).2.destroyed = s.destroyed ∧
      (kedrFsimIndicatorFunctionRegister s node).2.built = s.built := by
  rw [kedrFsimIndicatorFunctionRegister]
  split_ifs <;> exact ⟨rfl, rfl, rfl⟩

theorem State.BuiltUsed.congr (h : s.BuiltUsed)
    (hsame : s'.installed = s.installed ∧ s'.destroyed = s.destroyed ∧ s'.built = s.built) :
    s'.BuiltUsed := by
  obtain ⟨hinstalled, hdestroyed, hbuilt⟩ := hsame
  rw [State.BuiltUsed, hinstalled, hdestroyed, hbuilt]
  exact h

/-- No action of a run stops at a `BUG_ON` or at a pointer to a deleted object. -/
theorem State.Kept.step (h : s.Kept) (hbuilt : s.BuiltUsed) (ha : Allowed s a) :
    ∃ s', s.step a = some s' ∧ s'.Kept ∧ s'.BuiltUsed := by
  cases a with
  | pointRegister name formatString addr =>
    exact ⟨_, rfl, kedrFsimPointRegister_kept h ha,
      hbuilt.congr (kedrFsimPointRegister_same name formatString addr)⟩
  | pointUnregister addr =>
    obtain ⟨s', hs', hkept, hgrows, hbuilt', -⟩ := kedrFsimPointUnregister_eq h ha
    exact ⟨s', hs', hkept, hbuilt.grows hgrows hbuilt'⟩
  | setIndicator pointName formatString fi m indicatorState destroy =>
    obtain ⟨result, s', hs', houtcome⟩ := @setIndicator_outcome s pointName formatString
      ⟨fi, m, indicatorState, destroy, s.serials⟩ h hbuilt rfl ha
    refine ⟨s', ?_, houtcome.kept, houtcome.built⟩
    rw [State.step, setIndicatorCall, hs']
    rfl
  | functionRegister node =>
    exact ⟨_, rfl, kedrFsimIndicatorFunctionRegister_kept h ha.1 ha.2,
      hbuilt.congr (kedrFsimIndicatorFunctionRegister_same node)⟩
  | functionUnregister name =>
    obtain ⟨s', hs', hkept, hgrows, hbuilt', -⟩ := kedrFsimIndicatorFunctionUnregister_eq h name
    exact ⟨s', hs', hkept, hbuilt.grows hgrows hbuilt'⟩
  | setIndicatorByName pointName indicatorName initResult =>
    obtain ⟨result, s', hs', houtcome⟩ :=
      @kedrFsimSetIndicatorByName_outcome s pointName indicatorName initResult h hbuilt
    refine ⟨s', ?_, houtcome.kept, houtcome.built⟩
    rw [State.step, hs']
    rfl
  | load m => exact ⟨_, rfl, h.load m, hbuilt⟩
  | unload m =>
    obtain ⟨s', hs', hkept, hgrows, hbuilt', -, hunused⟩ := detectorModulesUnload_eq h m
    refine ⟨_, ?_, hkept.unload hunused, hbuilt.grows ⟨hgrows.installed, hgrows.destroyed⟩ hbuilt'⟩
    rw [State.step, hs']
    rfl

theorem Reachable.kept (h : Reachable s) : s.Kept ∧ s.BuiltUsed := by
  induction h with
  | init => exact ⟨State.Kept.init, fun x hx => (by cases hx)⟩
  | step _ ha hstep ih =>
    obtain ⟨s'', hs'', hkept, hbuilt⟩ := ih.1.step ih.2 ha
    rw [hstep] at hs''
    cases hs''
    exact ⟨hkept, hbuilt⟩

theorem faultIndicatorManageExit_eq (h : s.Kept) :
    ∃ s', faultIndicatorManageExit s.indicators.length s = some s' ∧ s'.Kept ∧
      s'.indicators = [] := by
  generalize hn : s.indicators.length = n
  induction n generalizing s with
  | zero => exact ⟨s, rfl, h, List.length_eq_zero_iff.mp hn⟩
  | succ n ih =>
    cases hnodes : s.indicators with
    | nil =>
      rw [hnodes] at hn
      cases hn
    | cons node nodes =>
      obtain ⟨s1, hs1, hkept, -, -, -, hindicators⟩ :=
        kedrFsimIndicatorFunctionUnregister_eq h node.indicatorName
      have hlength : s1.indicators.length = n := by
        rw [hindicators node nodes hnodes rfl]
        rw [hnodes] at hn
        exact Nat.succ.inj hn
      obtain ⟨s', hs', hkept', hnil⟩ := ih hkept hlength
      refine ⟨s', ?_, hkept', hnil⟩
      rw [faultIndicatorManageExit, hnodes]
      simp only [hs1]
      exact hs'

theorem State.Kept.weakRefs_nil
    (h : s.Kept) (hpoints : s.simPoints = []) (hindicators : s.indicators = []) :
    s.weakRefs = [] := by
  rw [List.eq_nil_iff_forall_not_mem]
  intro node hnode
  obtain ⟨ddata, hddata⟩ := List.exists_mem_of_ne_nil _ (h.noEmptyNode node hnode)
  obtain ⟨node', hnode'⟩ : ∃ node', getModuleNode s.weakRefs node.m = some node' := by
    cases hfind : getModuleNode s.weakRefs node.m with
    | none => exact absurd (List.mem_map_of_mem hnode) (getModuleNode_eq_none.mp hfind)
    | some node' => exact ⟨node', rfl⟩
  have hne : node'.destroyData ≠ [] := h.noEmptyNode node' (List.mem_of_find?_eq_some hnode')
  obtain ⟨ddata', hddata'⟩ := List.exists_mem_of_ne_nil _ hne
  have hmem : ddata' ∈ refsOf s.weakRefs node.m := by
    rw [refsOf, hnode']
    exact hddata'
  have huses := (h.referenced.exact node.m ddata').mp hmem
  rw [State.Uses, hpoints, hindicators] at huses
  cases hdestroy : ddata'.destroy <;> simp [hdestroy] at huses

theorem fsimCleanupModule_eq (h : s.Kept) (hindicators : s.indicators = []) :
    ∃ s', fsimCleanupModule s.simPoints.length s = some s' ∧ s'.simPoints = [] := by
  generalize hn : s.simPoints.length = n
  induction n generalizing s with
  | zero =>
    have hpoints := List.length_eq_zero_iff.mp hn
    refine ⟨s, ?_, hpoints⟩
    rw [fsimCleanupModule, h.weakRefs_nil hpoints hindicators]
    rfl
  | succ n ih =>
    cases hcons : s.simPoints with
    | nil =>
      rw [hcons] at hn
      cases hn
    | cons point points =>
      have haddr : point.addr ∈ s.simPoints.map SimulationPoint.addr := by
        rw [hcons]
        exact List.mem_cons_self
      obtain ⟨s1, hs1, hkept, -, -, hindicators1, hmap⟩ := kedrFsimPointUnregister_eq h haddr
      have hlength : s1.simPoints.length = n := by
        have hlen := congrArg List.length hmap
        rw [List.length_erase_of_mem haddr, List.length_map, List.length_map, hn] at hlen
        exact hlen
      obtain ⟨s', hs', hnil⟩ := ih hkept (hindicators1.trans hindicators) hlength
      refine ⟨s', ?_, hnil⟩
      rw [fsimCleanupModule, hcons]
      simp only [hs1]
      exact hs'

/-- All requests of the store, with their modules. -/
def entries (l : WeakRefs) : List (Module × DestroyData) :=
  l.flatMap fun node => node.destroyData.map fun ddata => (node.m, ddata)

theorem count_entries {l : WeakRefs} (h : DistinctNodes l) (m : Module) (ddata : DestroyData) :
    (entries l).count (m, ddata) = (refsOf l m).count ddata := by
  induction l with
  | nil => rfl
  | cons node l ih =>
    have hdistinct := List.nodup_cons.mp h
    have hcount := ih hdistinct.2
    rw [entries] at hcount ⊢
    rw [List.flatMap_cons, List.count_append, hcount, refsOf, refsOf, getModuleNode_cons]
    by_cases hm : node.m = m
    · have hnone : getModuleNode l m = none := getModuleNode_eq_none.mpr (hm ▸ hdistinct.1)
      have hinjective : Function.Injective fun ddata : DestroyData => (m, ddata) :=
        fun _ _ heq => (Prod.mk.inj heq).2
      have hmap := List.count_map_of_injective node.destroyData _ hinjective ddata
      rw [if_pos hm, hnone, hm, hmap]
      rfl
    · have hzero : (node.destroyData.map fun ddata => (node.m, ddata)).count (m, ddata) = 0 := by
        rw [List.count_eq_zero]
        intro hmem
        obtain ⟨_, _, heq⟩ := List.mem_map.mp hmem
        exact hm (Prod.mk.inj heq).1
      rw [if_neg hm, hzero, Nat.zero_add]

/-- No point and no indicator function belongs to the module. -/
def State.Free (s : State) (m : Module) : Prop :=
  (∀ point ∈ s.simPoints, point.currentIndicator.m ≠ some m) ∧ ∀ node ∈ s.indicators, node.m ≠ m

/-- The state with the given number is the state of the current indicator of a point. -/
def State.IsCurrent (s : State) (x : Nat) : Prop :=
  ∃ point ∈ s.simPoints,
    point.currentIndicator.destroy.isSome = true ∧ point.currentIndicator.serial = x

/-- What holds in every state of a run. -/
structure State.Lawful (s : State) : Prop where
  pointEntry : ∀ point ∈ s.simPoints, ∀ m, point.currentIndicator.m = some m →
    (entries s.weakRefs).count (m, ⟨.unsetIndicatorCallback, point.addr⟩) = 1
  functionEntry : ∀ node ∈ s.indicators,
    (entries s.weakRefs).count (node.m, ⟨.onModuleUnload, node.addr⟩) = 1
  noOtherEntry : ∀ m ddata, (m, ddata) ∈ entries s.weakRefs → s.Uses m ddata
  loaded : ∀ m, m ∉ s.loaded → s.Free m
  unloaded : ∀ m s', m ∈ s.loaded → s.step (.unload m) = some s' → s'.Free m
  destroyedOnce : ∀ x, (x, true) ∈ s.installed →
    (s.IsCurrent x → s.destroyed.count x = 0) ∧ (¬ s.IsCurrent x → s.destroyed.count x = 1)
  built : ∀ x destroy, (x, destroy) ∈ s.built →
    x ∈ s.installed.map Prod.fst ∨ (destroy = true → s.destroyed.count x = 1)
  failingSet : ∀ pointName formatString fi m indicatorState destroy result s',
    (∀ m', m = some m' → m' ∈ s.loaded) →
    setIndicatorCall s pointName formatString fi m indicatorState destroy = some (result, s') →
      result ≠ 0 → s'.simPoints = s.simPoints
  failingSetByName : ∀ pointName indicatorName initResult result s',
    kedrFsimSetIndicatorByName s pointName indicatorName initResult = some (result, s') →
      result ≠ 0 → s'.simPoints = s.simPoints
  noBug : ∀ a, Allowed s a → (s.step a).isSome = true
  cleanup : ∃ s1, faultIndicatorManageExit s.indicators.length s = some s1 ∧
    (fsimCleanupModule s1.simPoints.length s1).isSome = true

theorem State.Kept.free (h : s.Kept) (hm : m ∉ s.loaded) : s.Free m := by
  constructor
  · intro point hpoint heq
    exact hm (h.referenced.loaded m ⟨.unsetIndicatorCallback, point.addr⟩ ⟨point, hpoint, rfl, heq⟩)
  · intro node hnode heq
    exact hm (h.referenced.loaded m ⟨.onModuleUnload, node.addr⟩ ⟨node, hnode, rfl, heq⟩)

theorem State.Kept.count_entries_eq (h : s.Kept) (huses : s.Uses m ddata) :
    (entries s.weakRefs).count (m, ddata) = 1 := by
  rw [count_entries h.referenced.nodes]
  exact List.count_eq_one_of_mem (h.referenced.once m) ((h.referenced.exact m ddata).mpr huses)

theorem State.Kept.uses_of_entry (h : s.Kept) (hmem : (m, ddata) ∈ entries s.weakRefs) :
    s.Uses m ddata := by
  rw [← h.referenced.exact, ← List.count_pos_iff, ← count_entries h.referenced.nodes]
  exact List.count_pos_iff.mpr hmem

theorem State.Kept.destroyed_count (h : s.Kept) {x : Nat} (hx : (x, true) ∈ s.installed) :
    (s.IsCurrent x → s.destroyed.count x = 0) ∧ (¬ s.IsCurrent x → s.destroyed.count x = 1) := by
  constructor
  · rintro ⟨point, hpoint, hdestroy, rfl⟩
    exact List.count_eq_zero.mpr (h.accounted.current point hpoint hdestroy).2
  · intro hcurrent
    refine List.count_eq_one_of_mem h.accounted.destroyed ?_
    by_contra hnot
    exact hcurrent (h.accounted.ended x hx hnot)

/-- In every run, references to modules match the installed indicators, a state with a destroy
function is destroyed once it is replaced, failing calls change nothing, and both exits succeed. -/
theorem reachable_lawful (hs : Reachable s) : s.Lawful := by
  obtain ⟨h, hbuilt⟩ := hs.kept
  constructor
  · exact fun point hpoint m hm => h.count_entries_eq ⟨point, hpoint, rfl, hm⟩
  · exact fun node hnode => h.count_entries_eq ⟨node, hnode, rfl, rfl⟩
  · exact fun m ddata hmem => h.uses_of_entry hmem
  · exact fun m hm => h.free hm
  · intro m s' hm hstep
    obtain ⟨s'', hs'', hkept, -⟩ := h.step hbuilt (show Allowed s (.unload m) from hm)
    rw [hstep] at hs''
    cases hs''
    obtain ⟨s1, hs1, -, -, -, hloaded, -⟩ := detectorModulesUnload_eq h m
    rw [State.step, hs1] at hstep
    cases hstep
    exact hkept.free (by simp)
  · exact fun x hx => h.destroyed_count hx
  · intro x destroy hx
    refine (hbuilt _ hx).imp id fun hdestroyed htrue => ?_
    exact List.count_eq_one_of_mem h.accounted.destroyed (hdestroyed htrue)
  · intro pointName formatString fi m indicatorState destroy result s' hm hcall hresult
    obtain ⟨result', s'', hs'', houtcome⟩ := @setIndicator_outcome s pointName formatString
      ⟨fi, m, indicatorState, destroy, s.serials⟩ h hbuilt rfl hm
    rw [setIndicatorCall, hs''] at hcall
    cases hcall
    exact (houtcome.unchanged hresult).1
  · intro pointName indicatorName initResult result s' hcall hresult
    obtain ⟨result', s'', hs'', houtcome⟩ :=
      @kedrFsimSetIndicatorByName_outcome s pointName indicatorName initResult h hbuilt
    rw [hs''] at hcall
    cases hcall
    exact (houtcome.unchanged hresult).1
  · intro a ha
    obtain ⟨s', hs', -⟩ := h.step hbuilt ha
    rw [hs']
    rfl
  · obtain ⟨s1, hs1, hkept, hnil⟩ := faultIndicatorManageExit_eq h
    obtain ⟨s', hs', -⟩ := fsimCleanupModule_eq hkept hnil
    exact ⟨s1, hs1, by rw [hs']; rfl⟩

/-- A point of module 1 has a state that is built by the function of module 2, which is then
unloaded. -/
theorem reachable_lawful_unload :
    ∃ s, Reachable s ∧ s.destroyed = [0] ∧ s.loaded = [1] ∧ s.Lawful := by
  have hloaded := (Reachable.init.step (a := .load 1) trivial rfl).step (a := .load 2) trivial rfl
  have hpoint := hloaded.step (a := .pointRegister ['p'] none 16) (by simp [Allowed, State.init]) rfl
  have hfunction := hpoint.step
    (a := .functionRegister ⟨32, ['i'], some 5, none, 2, some 6, some 7⟩) ⟨by decide, by decide⟩ rfl
  have hset := hfunction.step (a := .setIndicatorByName ['p'] (some ['i']) (some 48)) trivial rfl
  have hunload := hset.step (a := .unload 2) List.mem_cons_self rfl
  exact ⟨_, hunload, rfl, rfl, reachable_lawful hunload⟩

/-- The function that builds the state has no destroy function, and the point does not exist. -/
theorem built_not_installed_not_destroyed :
    ¬ ∀ s, Reachable s → ∀ x destroy, (x, destroy) ∈ s.built →
      x ∈ s.installed.map Prod.fst ∨ x ∈ s.destroyed := by
  intro h
  have hloaded := Reachable.init.step (a := .load 1) trivial rfl
  have hfunction := hloaded.step
    (a := .functionRegister ⟨32, ['i'], some 5, none, 1, some 6, none⟩) ⟨by decide, by decide⟩ rfl
  have hset := hfunction.step (a := .setIndicatorByName ['p'] (some ['i']) (some 48)) trivial rfl
  rcases h _ hset 0 false (by decide) with hmem | hmem
  · exact absurd hmem (by decide)
  · exact absurd hmem (by decide)

end FaultSimulation
end KedrAux
