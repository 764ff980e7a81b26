import KedrAux.FaultSimulation.Indicators

/-!
# The store of weak references

The store is a list of nodes, one for each module with requests.  Its operations are described by
the list of requests under each module.
-/

namespace KedrAux
namespace FaultSimulation

variable {l : WeakRefs} {m m' : Module} {ddata : DestroyData}
variable {f : ModuleWeakRefData → Option ModuleWeakRefData}

def refsOf (l : WeakRefs) (m : Module) : List DestroyData :=
  ((getModuleNode l m).map ModuleWeakRefData.destroyData).getD []

def DistinctNodes (l : WeakRefs) : Prop := (l.map ModuleWeakRefData.m).Nodup

/-- No node is left without requests. -/
def NoEmptyNode (l : WeakRefs) : Prop := ∀ node ∈ l, node.destroyData ≠ []

theorem getModuleNode_cons (node : ModuleWeakRefData) :
    getModuleNode (node :: l) m = if node.m = m then some node else getModuleNode l m := by
  rw [getModuleNode, List.find?_cons]
  by_cases h : node.m = m <;> simp [h, getModuleNode]

theorem getModuleNode_eq_none : getModuleNode l m = none ↔ m ∉ l.map ModuleWeakRefData.m := by
  rw [getModuleNode, List.find?_eq_none]
  simp

theorem getModuleNode_append (node : ModuleWeakRefData) :
    getModuleNode (l ++ [node]) m =
      (getModuleNode l m).or (if node.m = m then some node else none) := by
  rw [getModuleNode, List.find?_append, getModuleNode]
  by_cases h : node.m = m <;> simp [h]

theorem getModuleNode_updateNode
    (h : DistinctNodes l) (hf : ∀ node node', f node = some node' → node'.m = node.m) :
    getModuleNode (updateNode m f l) m' =
      if m' = m then (getModuleNode l m).bind f else getModuleNode l m' := by
  induction l with
  | nil => simp [updateNode, getModuleNode]
  | cons node l ih =>
    have hdistinct := List.nodup_cons.mp h
    have hl := ih hdistinct.2
    rw [updateNode, getModuleNode_cons, getModuleNode_cons]
    by_cases hm : node.m = m
    · have hnone : getModuleNode l m = none := getModuleNode_eq_none.mpr (hm ▸ hdistinct.1)
      rw [if_pos hm, if_pos hm, Option.bind_some]
      cases hnode : f node with
      | none =>
        rw [Option.toList_none, List.nil_append]
        by_cases hm' : m' = m
        · rw [if_pos hm', hm', hnone]
        · rw [if_neg hm', if_neg fun heq => hm' (heq.symm.trans hm)]
      | some node' =>
        have hkey := hf node node' hnode
        rw [Option.toList_some, List.singleton_append, getModuleNode_cons, hkey, hm]
        by_cases hm' : m' = m
        · rw [if_pos hm', if_pos hm'.symm]
        · rw [if_neg hm', if_neg (Ne.symm hm'), if_neg (Ne.symm hm')]
    · rw [if_neg hm, if_neg hm, getModuleNode_cons, hl]
      by_cases hm' : m' = m
      · rw [if_pos hm', if_pos hm', hm', if_neg hm]
      · rw [if_neg hm', if_neg hm']

theorem updateNode_keys_sublist (hf : ∀ node node', f node = some node' → node'.m = node.m) :
    ((updateNode m f l).map ModuleWeakRefData.m).Sublist (l.map ModuleWeakRefData.m) := by
  induction l with
  | nil => exact List.Sublist.refl _
  | cons node l ih =>
    rw [updateNode]
    split_ifs with hm
    · cases hnode : f node with
      | none => exact List.sublist_cons_self _ _
      | some node' =>
        rw [Option.toList_some, List.singleton_append, List.map_cons, List.map_cons,
          hf node node' hnode]
    · exact List.Sublist.cons_cons _ ih

theorem DistinctNodes.updateNode
    (h : DistinctNodes l) (hf : ∀ node node', f node = some node' → node'.m = node.m) :
    DistinctNodes (updateNode m f l) :=
  h.sublist (updateNode_keys_sublist hf)

theorem mem_updateNode {node : ModuleWeakRefData} (h : node ∈ updateNode m f l) :
    node ∈ l ∨ ∃ node' ∈ l, node'.m = m ∧ f node' = some node := by
  induction l with
  | nil => cases h
  | cons node' l ih =>
    rw [updateNode] at h
    split_ifs at h with hm
    · rcases List.mem_append.mp h with h | h
      · exact Or.inr ⟨node', List.mem_cons_self, hm, Option.mem_toList.mp h⟩
      · exact Or.inl (List.mem_cons_of_mem _ h)
    · rcases List.mem_cons.mp h with rfl | h
      · exact Or.inl List.mem_cons_self
      · rcases ih h with h | ⟨node'', hmem, hf⟩
        · exact Or.inl (List.mem_cons_of_mem _ h)
        · exact Or.inr ⟨node'', List.mem_cons_of_mem _ hmem, hf⟩

/-- One more request under the module, and no other change. -/
theorem moduleWeakRef_spec (h : DistinctNodes l) (m : Module) (ddata : DestroyData) :
    DistinctNodes (moduleWeakRef l m ddata) ∧
      ∀ m', refsOf (moduleWeakRef l m ddata) m' =
        if m' = m then refsOf l m ++ [ddata] else refsOf l m' := by
  rw [moduleWeakRef]
  cases hnode : getModuleNode l m with
  | none =>
    refine ⟨?_, fun m' => ?_⟩
    · have hkey := getModuleNode_eq_none.mp hnode
      rw [DistinctNodes, List.map_append]
      refine List.nodup_append.mpr ⟨h, List.nodup_singleton _, ?_⟩
      rintro key hkey' _ hmem rfl
      obtain rfl : key = m := List.mem_singleton.mp hmem
      exact hkey hkey'
    · simp only [refsOf, getModuleNode_append]
      by_cases hm' : m' = m
      · simp [hm', hnode]
      · simp [hm', Ne.symm hm']
  | some node =>
    have hf : ∀ node node' : ModuleWeakRefData,
        some { node with destroyData := node.destroyData ++ [ddata] } = some node' →
          node'.m = node.m := by
      intro node node' heq
      rw [← Option.some.inj heq]
    refine ⟨h.updateNode hf, fun m' => ?_⟩
    simp only [refsOf, getModuleNode_updateNode h hf]
    by_cases hm' : m' = m
    · simp [hm', hnode]
    · simp [hm']

theorem NoEmptyNode.moduleWeakRef (h : NoEmptyNode l) : NoEmptyNode (moduleWeakRef l m ddata) := by
  rw [FaultSimulation.moduleWeakRef]
  cases getModuleNode l m with
  | none =>
    intro node hnode
    rcases List.mem_append.mp hnode with hnode | hnode
    · exact h node hnode
    · rw [List.mem_singleton.mp hnode]
      exact List.cons_ne_nil _ _
  | some _ =>
    intro node hnode
    rcases mem_updateNode hnode with hnode | ⟨node', -, -, hf⟩
    · exact h node hnode
    · rw [← Option.some.inj hf]
      simp

theorem moduleWeakRef_mem (hnodes : DistinctNodes l) (hnodup : ∀ m, (refsOf l m).Nodup)
    (hfresh : ∀ m, ddata ∉ refsOf l m) (m0 : Module) :
    DistinctNodes (moduleWeakRef l m0 ddata) ∧
      (∀ m, (refsOf (moduleWeakRef l m0 ddata) m).Nodup) ∧
      (∀ m ddata', ddata' ∈ refsOf (moduleWeakRef l m0 ddata) m ↔
        (ddata' = ddata ∧ some m0 = some m) ∨ ddata' ∈ refsOf l m) ∧
      (NoEmptyNode l → NoEmptyNode (moduleWeakRef l m0 ddata)) := by
  obtain ⟨hnodes', hrefs⟩ := moduleWeakRef_spec hnodes m0 ddata
  refine ⟨hnodes', fun m => ?_, fun m ddata' => ?_, NoEmptyNode.moduleWeakRef⟩
  · rw [hrefs]
    split_ifs
    · refine List.nodup_append.mpr ⟨hnodup m0, List.nodup_singleton _, ?_⟩
      rintro ddata' hddata' _ hmem rfl
      exact hfresh m0 (List.mem_singleton.mp hmem ▸ hddata')
    · exact hnodup m
  · rw [hrefs]
    split_ifs with hm
    · rw [hm, List.mem_append, List.mem_singleton]
      simp only [and_true]
      exact or_comm
    · simp [Ne.symm hm]

/-- The request is taken out, and its node with the last one. -/
theorem moduleWeakUnref_spec (h : DistinctNodes l) (hddata : ddata ∈ refsOf l m) :
    ∃ l', moduleWeakUnref l m ddata = some l' ∧ DistinctNodes l' ∧
      (∀ m', refsOf l' m' = if m' = m then (refsOf l m).erase ddata else refsOf l m') ∧
      (NoEmptyNode l → NoEmptyNode l') := by
  cases hnode : getModuleNode l m with
  | none =>
    rw [refsOf, hnode] at hddata
    cases hddata
  | some node =>
    have hf : ∀ node node' : ModuleWeakRefData,
        (if (node.destroyData.erase ddata).isEmpty then none
          else some { node with destroyData := node.destroyData.erase ddata }) = some node' →
          node'.m = node.m := by
      intro node node' heq
      split_ifs at heq
      rw [← Option.some.inj heq]
    refine ⟨_, by rw [moduleWeakUnref, hnode], h.updateNode hf, fun m' => ?_, ?_⟩
    · simp only [refsOf, getModuleNode_updateNode h hf]
      by_cases hm' : m' = m
      · simp only [if_pos hm', hnode, Option.bind_some, Option.map_some, Option.getD_some]
        split_ifs with hempty
        · exact (List.isEmpty_iff.mp hempty).symm
        · rfl
      · rw [if_neg hm', if_neg hm']
    · intro hne node' hnode'
      rcases mem_updateNode hnode' with hnode' | ⟨node'', -, -, hf⟩
      · exact hne node' hnode'
      · split_ifs at hf with hempty
        rw [← Option.some.inj hf]
        exact fun heq => hempty (List.isEmpty_iff.mpr heq)

/-- No node of another module is left without requests. -/
def OthersNotEmpty (l : WeakRefs) (m : Module) : Prop :=
  ∀ node ∈ l, node.m ≠ m → node.destroyData ≠ []

theorem eraseNode_spec (h : DistinctNodes l) (m : Module) (ddata : DestroyData) :
    DistinctNodes (updateNode m
      (fun node => some { node with destroyData := node.destroyData.erase ddata }) l) ∧
    (∀ m', refsOf (updateNode m
      (fun node => some { node with destroyData := node.destroyData.erase ddata }) l) m' =
        if m' = m then (refsOf l m).erase ddata else refsOf l m') ∧
    (OthersNotEmpty l m → OthersNotEmpty (updateNode m
      (fun node => some { node with destroyData := node.destroyData.erase ddata }) l) m) := by
  have hf : ∀ node node' : ModuleWeakRefData,
      some { node with destroyData := node.destroyData.erase ddata } = some node' →
        node'.m = node.m := by
    intro node node' heq
    rw [← Option.some.inj heq]
  refine ⟨h.updateNode hf, fun m' => ?_, fun hothers node hnode hm => ?_⟩
  · simp only [refsOf, getModuleNode_updateNode h hf]
    by_cases hm' : m' = m
    · simp only [if_pos hm']
      cases getModuleNode l m with
      | none => rfl
      | some node => rfl
    · simp only [if_neg hm']
  · rcases mem_updateNode hnode with hnode | ⟨node', -, hm', heq⟩
    · exact hothers node hnode hm
    · rw [← Option.some.inj heq] at hm
      exact absurd hm' hm

theorem deleteNode_spec (h : DistinctNodes l) (m : Module) :
    DistinctNodes (updateNode m (fun _ => none) l) ∧
    (∀ m', refsOf (updateNode m (fun _ => none) l) m' = if m' = m then [] else refsOf l m') ∧
    (OthersNotEmpty l m → NoEmptyNode (updateNode m (fun _ => none) l)) := by
  have hf : ∀ node node' : ModuleWeakRefData,
      (none : Option ModuleWeakRefData) = some node' → node'.m = node.m := by
    intro node node' heq
    cases heq
  refine ⟨h.updateNode hf, fun m' => ?_, fun hothers node hnode => ?_⟩
  · simp only [refsOf, getModuleNode_updateNode h hf]
    by_cases hm' : m' = m
    · simp [hm']
    · simp only [if_neg hm']
  · have hnone : getModuleNode (updateNode m (fun _ => none) l) m = none := by
      rw [getModuleNode_updateNode h hf, if_pos rfl]
      cases getModuleNode l m <;> rfl
    have hm : node.m ≠ m := by
      rintro rfl
      exact getModuleNode_eq_none.mp hnone (List.mem_map_of_mem hnode)
    rcases mem_updateNode hnode with hnode | ⟨node', -, -, heq⟩
    · exact hothers node hnode hm
    · cases heq

end FaultSimulation
end KedrAux
