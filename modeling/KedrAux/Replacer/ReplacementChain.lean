import KedrAux.Replacer.OperationReplacer

/-!
# Chains of replacements

The operation of a replaced object belongs to the last payload that masks it.  Each
payload asks for the operation that it replaces, and gets the one of the payload before;
in the end there is the original operation of the object.
-/

namespace KedrAux
namespace Replacer

variable {n : Nat}

theorem forEachOperationInMask_eq {S : Type} (mask : Ops n) (body : S → Fin n → Option S) (s : S) :
    forEachOperationInMask mask body s =
      ((List.finRange n).filter mask.masks).foldlM body s :=
  SortedScan.loop_first (List.pairwise_lt_finRange n) (by rw [List.length_finRange]) s

variable {op : Fin n} {payload : OperationPayload n} {payloads before : List (OperationPayload n)}

theorem mem_filter_masks {mask : Ops n} :
    op ∈ (List.finRange n).filter mask.masks ↔ mask op ≠ 0 := by
  simp [Ops.masks, List.mem_finRange]

theorem ite_mem_update (ops : List (Fin n)) (op : Fin n) (f g : Ops n) :
    (fun i => if i ∈ ops then f i else Function.update g op (f op) i) =
      fun i => if i ∈ op :: ops then f i else g i := by
  funext i
  by_cases hi : i = op
  · subst hi
    simp
  · simp [hi]

namespace OperationReplacerData

/-- The operations of a payload are put over the other ones. -/
def merge (data : OperationReplacerData n) (payload : OperationPayload n) :
    OperationReplacerData n :=
  { data with
    opsMaskTotal := fun op => if payload.mask op ≠ 0 then payload.mask op else data.opsMaskTotal op
    opsReplTotal := fun op => if payload.mask op ≠ 0 then payload.repl op else data.opsReplTotal op }

/-- A layer with the tables as they are is added for a special payload. -/
def pushLayer (data : OperationReplacerData n) (payload : OperationPayload n) :
    OperationReplacerData n :=
  { data with layers := data.layers ++ [⟨payload, data.opsMaskTotal, data.opsReplTotal⟩] }

theorem foldlM_setOp (payload : OperationPayload n) (data : OperationReplacerData n)
    (ops : List (Fin n)) :
    ops.foldlM (fun data op => some (data.setOp payload op)) data =
      some { data with
        opsMaskTotal := fun op => if op ∈ ops then payload.mask op else data.opsMaskTotal op
        opsReplTotal := fun op => if op ∈ ops then payload.repl op else data.opsReplTotal op } := by
  induction ops generalizing data with
  | nil => simp
  | cons op ops ih =>
    rw [List.foldlM_cons, Option.bind_eq_bind, Option.bind_some, ih, setOp]
    simp only [ite_mem_update]

theorem foldlM_checked
    {payload : OperationPayload n} {data : OperationReplacerData n} {ops : List (Fin n)}
    (hnodup : ops.Nodup) (hfree : ∀ op ∈ ops, data.opsMaskTotal op = 0) :
    ops.foldlM (fun data op =>
        if data.opsMaskTotal op ≠ 0 then none else some (data.setOp payload op)) data =
      ops.foldlM (fun data op => some (data.setOp payload op)) data := by
  induction ops generalizing data with
  | nil => rfl
  | cons op ops ih =>
    rw [List.nodup_cons] at hnodup
    rw [List.foldlM_cons, List.foldlM_cons, hfree op List.mem_cons_self, if_neg (by simp),
      Option.bind_eq_bind, Option.bind_some, Option.bind_some]
    refine ih hnodup.2 fun op' hop' => ?_
    have hne : op' ≠ op := fun heq => hnodup.1 (heq ▸ hop')
    exact (Function.update_of_ne hne _ _).trans (hfree op' (List.mem_cons_of_mem _ hop'))

theorem foldlM_setOp_masks (payload : OperationPayload n) (data : OperationReplacerData n) :
    ((List.finRange n).filter payload.mask.masks).foldlM
      (fun data op => some (data.setOp payload op)) data = some (data.merge payload) := by
  rw [foldlM_setOp]
  simp only [mem_filter_masks]
  rfl

end OperationReplacerData

theorem addStandard_eq {data : OperationReplacerData n}
    (hfree : ∀ op, payload.mask op ≠ 0 → data.opsMaskTotal op = 0) :
    addStandard data payload = some (data.merge payload) := by
  rw [addStandard, forEachOperationInMask_eq, OperationReplacerData.foldlM_checked,
    OperationReplacerData.foldlM_setOp_masks]
  · exact (List.nodup_finRange n).filter _
  · intro op hop
    exact hfree op (mem_filter_masks.mp hop)

theorem addSpecial_eq (data : OperationReplacerData n) (payload : OperationPayload n) :
    addSpecial data payload = some ((data.pushLayer payload).merge payload) := by
  rw [addSpecial, forEachOperationInMask_eq, OperationReplacerData.foldlM_setOp_masks]
  rfl

theorem replaceOps_eq (repl mask ops : Ops n) :
    replaceOps repl mask ops = some fun op => if mask op ≠ 0 then repl op else ops op := by
  rw [replaceOps, forEachOperationInMask_eq]
  have h : ∀ (l : List (Fin n)) (ops : Ops n),
      l.foldlM (fun ops op => some (Function.update ops op (repl op))) ops =
        some fun op => if op ∈ l then repl op else ops op := by
    intro l
    induction l with
    | nil => simp
    | cons op l ih =>
      intro ops
      rw [List.foldlM_cons, Option.bind_eq_bind, Option.bind_some, ih, ite_mem_update]
  rw [h]
  simp only [mem_filter_masks]

def owner (payloads : List (OperationPayload n)) (op : Fin n) : Option (OperationPayload n) :=
  (payloads.filter fun payload => payload.mask.masks op).getLast?

theorem owner_concat (payloads : List (OperationPayload n)) (payload : OperationPayload n)
    (op : Fin n) :
    owner (payloads ++ [payload]) op =
      if payload.mask op ≠ 0 then some payload else owner payloads op := by
  rw [owner, List.filter_append]
  by_cases hmask : payload.mask op = 0
  · simp [hmask, Ops.masks, owner]
  · simp [hmask, Ops.masks]

theorem mem_of_owner (h : owner payloads op = some payload) :
    payload ∈ payloads ∧ payload.mask op ≠ 0 := by
  have hmem := List.mem_filter.mp (List.mem_of_getLast? h)
  exact ⟨hmem.1, by simpa [Ops.masks] using hmem.2⟩

theorem owner_eq_none :
    owner payloads op = none ↔ ∀ payload ∈ payloads, payload.mask op = 0 := by
  rw [owner, List.getLast?_eq_none_iff, List.filter_eq_nil_iff]
  simp [Ops.masks]

theorem exists_owner :
    (∃ payload, owner payloads op = some payload) ↔
      ∃ payload ∈ payloads, payload.mask op ≠ 0 := by
  rw [← Option.ne_none_iff_exists', ne_eq, owner_eq_none]
  push Not
  rfl

@[simp] theorem owner_append (payloads payloads' : List (OperationPayload n)) (op : Fin n) :
    owner (payloads ++ payloads') op = (owner payloads' op).or (owner payloads op) := by
  rw [owner, List.filter_append, List.getLast?_append]
  rfl

/-- The tables are those of the last payloads. -/
structure Merged (payloads : List (OperationPayload n)) (mask repl : Ops n) : Prop where
  mask_eq : ∀ op, mask op = ((owner payloads op).map fun payload => payload.mask op).getD 0
  repl_eq : ∀ op, repl op = ((owner payloads op).map fun payload => payload.repl op).getD 0

namespace Merged

variable {mask repl : Ops n}

theorem nil : Merged ([] : List (OperationPayload n)) (fun _ => 0) (fun _ => 0) :=
  ⟨fun _ => rfl, fun _ => rfl⟩

theorem concat {data : OperationReplacerData n}
    (h : Merged payloads data.opsMaskTotal data.opsReplTotal) (payload : OperationPayload n) :
    Merged (payloads ++ [payload]) (data.merge payload).opsMaskTotal
      (data.merge payload).opsReplTotal := by
  constructor
  · intro op
    rw [owner_concat, OperationReplacerData.merge]
    by_cases hmask : payload.mask op = 0
    · simp [hmask, h.mask_eq]
    · simp [hmask]
  · intro op
    rw [owner_concat, OperationReplacerData.merge]
    by_cases hmask : payload.mask op = 0
    · simp [hmask, h.repl_eq]
    · simp [hmask]

theorem repl_of_owner {op : Fin n} {payload : OperationPayload n} (h : Merged payloads mask repl)
    (howner : owner payloads op = some payload) :
    repl op = payload.repl op := by
  rw [h.repl_eq, howner]
  rfl

theorem mask_ne_zero_iff (h : Merged payloads mask repl) (op : Fin n) :
    mask op ≠ 0 ↔ ∃ payload, owner payloads op = some payload := by
  rw [h.mask_eq]
  cases howner : owner payloads op with
  | none => simp
  | some payload => simp [(mem_of_owner howner).2]

end Merged

/-- The layers for some special payloads that follow other ones. -/
def LayersOf : List (OperationPayload n) → List (OperationPayload n) →
    List (OperationReplacerDataLayer n) → Prop
  | _, [], [] => True
  | payloads, payload :: rest, layer :: layers => layer.payload = payload ∧
      Merged payloads layer.opsMaskPrev layer.opsReplPrev ∧
      LayersOf (payloads ++ [payload]) rest layers
  | _, _, _ => False

def DisjointMasks (payloads : List (OperationPayload n)) : Prop :=
  payloads.Pairwise fun p q => ∀ op, p.mask op = 0 ∨ q.mask op = 0

theorem foldlM_addStandard
    {before rest : List (OperationPayload n)} {data : OperationReplacerData n}
    (hmerged : Merged before data.opsMaskTotal data.opsReplTotal)
    (hdisjoint : DisjointMasks (before ++ rest)) :
    ∃ data', rest.foldlM addStandard data = some data' ∧
      Merged (before ++ rest) data'.opsMaskTotal data'.opsReplTotal ∧
      data'.layers = data.layers := by
  induction rest generalizing before data with
  | nil => exact ⟨data, rfl, by rwa [List.append_nil], rfl⟩
  | cons payload rest ih =>
    have hfree : ∀ op, payload.mask op ≠ 0 → data.opsMaskTotal op = 0 := by
      intro op hmask
      by_contra hne
      obtain ⟨p, hp⟩ := (hmerged.mask_ne_zero_iff op).mp hne
      obtain ⟨hmem, hne'⟩ := mem_of_owner hp
      have hpair := (List.pairwise_append.mp hdisjoint).2.2 p hmem payload List.mem_cons_self op
      exact hpair.elim hne' hmask
    rw [List.foldlM_cons, addStandard_eq hfree, Option.bind_eq_bind, Option.bind_some]
    rw [List.append_cons] at hdisjoint ⊢
    exact ih (hmerged.concat payload) hdisjoint

theorem foldlM_addSpecial (rest : List (OperationPayload n)) {data : OperationReplacerData n}
    (hmerged : Merged before data.opsMaskTotal data.opsReplTotal) :
    ∃ data' layers, rest.foldlM addSpecial data = some data' ∧
      Merged (before ++ rest) data'.opsMaskTotal data'.opsReplTotal ∧
      data'.layers = data.layers ++ layers ∧ LayersOf before rest layers := by
  induction rest generalizing before data with
  | nil => exact ⟨data, [], rfl, by rwa [List.append_nil], (List.append_nil _).symm, trivial⟩
  | cons payload rest ih =>
    rw [List.foldlM_cons, addSpecial_eq, Option.bind_eq_bind, Option.bind_some]
    have hpushed : Merged before (data.pushLayer payload).opsMaskTotal
        (data.pushLayer payload).opsReplTotal := hmerged
    obtain ⟨data', layers, hfold, hmerged', hlayers, hof⟩ := ih (hpushed.concat payload)
    rw [List.append_cons]
    refine ⟨data', ⟨payload, data.opsMaskTotal, data.opsReplTotal⟩ :: layers, hfold, hmerged', ?_,
      rfl, hmerged, hof⟩
    rw [hlayers]
    exact List.append_assoc _ _ _

theorem LayersOf.find {layers : List (OperationReplacerDataLayer n)}
    {first rest : List (OperationPayload n)} (h : LayersOf before (first ++ payload :: rest) layers)
    (hnew : payload ∉ first) :
    ∃ layer, layers.find? (fun layer => layer.payload = payload) = some layer ∧
      Merged (before ++ first) layer.opsMaskPrev layer.opsReplPrev := by
  induction first generalizing before layers with
  | nil =>
    match layers, h with
    | layer :: layers, ⟨hpayload, hmerged, _⟩ =>
      refine ⟨layer, List.find?_cons_of_pos (by simpa using hpayload), ?_⟩
      rwa [List.append_nil]
  | cons p first ih =>
    match layers, h with
    | layer :: layers, ⟨hpayload, _, hrest⟩ =>
      rw [List.mem_cons, not_or] at hnew
      have hne : ¬ layer.payload = payload := fun heq => hnew.1 (heq.symm.trans hpayload)
      obtain ⟨layer', hfind, hmerged⟩ := ih hrest hnew.2
      refine ⟨layer', ?_, ?_⟩
      · rw [List.find?_cons_of_neg (by simpa using hne)]
        exact hfind
      · rwa [List.append_cons]

structure CacheOf (standard special : List (OperationPayload n)) (data : OperationReplacerData n) :
    Prop where
  merged : Merged (standard ++ special) data.opsMaskTotal data.opsReplTotal
  layers : LayersOf standard special data.layers

theorem operationReplacerDataCreate_spec
    {replacer : OperationReplacer n} (hdisjoint : DisjointMasks replacer.payloadsUsed) :
    ∃ data, operationReplacerDataCreate replacer true = some { replacer with data := some data } ∧
      CacheOf replacer.payloadsUsed replacer.payloadsSpecialUsed data := by
  obtain ⟨data, hstandard, hmerged, hnil⟩ :=
    @foldlM_addStandard n [] replacer.payloadsUsed .empty Merged.nil hdisjoint
  rw [List.nil_append] at hmerged
  obtain ⟨data', layers, hspecial, hmerged', hlayers, hof⟩ :=
    foldlM_addSpecial replacer.payloadsSpecialUsed hmerged
  rw [hnil] at hlayers
  refine ⟨data', ?_, hmerged', ?_⟩
  · simp [operationReplacerDataCreate, hstandard, hspecial]
  · rw [hlayers]
    exact hof

section Chain

variable (hashPtr : Pointer → Nat → Nat) (replacer : OperationReplacer n) (mem : Memory n)
variable (op : Fin n) (key : Pointer)

/--
The special and the standard payloads that are visited from an operation on, and the
operation at the end.
-/
inductive Chain :
    Pointer → List (OperationPayload n) → List (OperationPayload n) → Pointer → Prop
  | orig (f : Pointer) : Chain f [] [] f
  | standard {payload : OperationPayload n} {f last : Pointer}
      {standards : List (OperationPayload n)} (hused : payload ∈ replacer.payloadsUsed)
      (hmask : payload.mask op ≠ 0) (hnext : operationGetOrig hashPtr replacer mem op key = some f)
      (hrest : Chain f [] standards last) : Chain (payload.repl op) [] (payload :: standards) last
  | special {payload : OperationPayload n} {f last : Pointer}
      {specials standards : List (OperationPayload n)}
      (hused : payload ∈ replacer.payloadsSpecialUsed) (hmask : payload.mask op ≠ 0)
      (hnext : operationGetOrigSpecial hashPtr replacer mem op key payload = some f)
      (hrest : Chain f specials standards last) :
      Chain (payload.repl op) (payload :: specials) standards last

end Chain

section Chain

variable {hashPtr : Pointer → Nat → Nat} {replacer : OperationReplacer n} {mem : Memory n}
variable {op : Fin n} {key orig : Pointer} {data : OperationReplacerData n}

/-- The operation that the payloads lead to: that of the last one, or the original one. -/
def topOp (payloads : List (OperationPayload n)) (op : Fin n) (orig : Pointer) : Pointer :=
  ((owner payloads op).map fun payload => payload.repl op).getD orig

variable {first rest : List (OperationPayload n)}
variable {own : Pointer}

theorem topOp_concat (payloads : List (OperationPayload n)) :
    topOp (payloads ++ [payload]) op orig =
      if payload.mask op ≠ 0 then payload.repl op else topOp payloads op orig := by
  rw [topOp, owner_concat]
  split_ifs
  · rfl
  · rfl

/-- The next special payload that masks the operation, then the standard one. -/
theorem operationGetOrigSpecial_eq (huses : replacer.nUses ≠ 0) (hdata : replacer.data = some data)
    (hcache : CacheOf replacer.payloadsUsed replacer.payloadsSpecialUsed data)
    (horig : operationGetOrig hashPtr replacer mem op key = some orig)
    (hspecial : replacer.payloadsSpecialUsed = first ++ payload :: rest) (hnew : payload ∉ first)
    (hmask : payload.mask op ≠ 0) :
    operationGetOrigSpecial hashPtr replacer mem op key payload =
      some (topOp (replacer.payloadsUsed ++ first) op orig) := by
  have hlayers := hcache.layers
  rw [hspecial] at hlayers
  obtain ⟨layer, hfind, hmerged⟩ := hlayers.find hnew
  rw [operationGetOrigSpecial, if_neg huses, hdata]
  simp only [Option.bind_eq_bind, Option.bind_some, if_neg hmask, hfind]
  cases howner : owner (replacer.payloadsUsed ++ first) op with
  | none =>
    have hzero : layer.opsMaskPrev op = 0 := by
      rw [hmerged.mask_eq, howner]
      rfl
    rw [if_neg (by simp [hzero]), horig, topOp, howner]
    rfl
  | some p =>
    rw [if_pos ((hmerged.mask_ne_zero_iff op).mpr ⟨p, howner⟩), hmerged.repl_of_owner howner, topOp,
      howner]
    rfl

theorem filter_masks_of_disjoint (hdisjoint : DisjointMasks payloads) (op : Fin n) :
    payloads.filter (fun payload => payload.mask.masks op) = (owner payloads op).toList := by
  rw [owner]
  have hpair := hdisjoint.filter fun payload => payload.mask.masks op
  have hmasks : ∀ payload, payload ∈ payloads.filter (fun payload => payload.mask.masks op) →
      payload.mask op ≠ 0 := by
    intro payload hmem
    simpa [Ops.masks] using (List.mem_filter.mp hmem).2
  generalize payloads.filter (fun payload => payload.mask.masks op) = masking at hpair hmasks ⊢
  match masking, hpair, hmasks with
  | [], _, _ => rfl
  | [payload], _, _ => rfl
  | p :: q :: rest, hpair, hmasks =>
    have hor := (List.pairwise_cons.mp hpair).1 q List.mem_cons_self op
    exact absurd hor (not_or.mpr ⟨hmasks p List.mem_cons_self,
      hmasks q (List.mem_cons_of_mem _ List.mem_cons_self)⟩)

theorem owner_of_disjoint (hdisjoint : DisjointMasks payloads) (hmem : payload ∈ payloads)
    (hmask : payload.mask op ≠ 0) :
    owner payloads op = some payload := by
  have hfilter : payload ∈ payloads.filter fun payload => payload.mask.masks op :=
    List.mem_filter.mpr ⟨hmem, by simpa [Ops.masks] using hmask⟩
  rw [filter_masks_of_disjoint hdisjoint] at hfilter
  exact Option.mem_toList.mp hfilter

theorem chain_of_first (huses : replacer.nUses ≠ 0) (hdata : replacer.data = some data)
    (hcache : CacheOf replacer.payloadsUsed replacer.payloadsSpecialUsed data)
    (hdisjoint : DisjointMasks replacer.payloadsUsed) (hnodup : replacer.payloadsSpecialUsed.Nodup)
    (horig : operationGetOrig hashPtr replacer mem op key = some orig)
    (hspecial : replacer.payloadsSpecialUsed = first ++ rest) :
    Chain hashPtr replacer mem op key (topOp (replacer.payloadsUsed ++ first) op orig)
      (first.filter fun payload => payload.mask.masks op).reverse
      (replacer.payloadsUsed.filter fun payload => payload.mask.masks op) orig := by
  induction first using List.reverseRecOn generalizing rest with
  | nil =>
    rw [List.append_nil, filter_masks_of_disjoint hdisjoint, topOp]
    cases howner : owner replacer.payloadsUsed op with
    | none => exact .orig orig
    | some payload =>
      obtain ⟨hmem, hmask⟩ := mem_of_owner howner
      exact .standard hmem hmask horig (.orig orig)
  | append_singleton first payload ih =>
    rw [List.append_assoc, List.singleton_append] at hspecial
    have hchain := ih hspecial
    rw [← List.append_assoc, topOp_concat, List.filter_append, List.reverse_append]
    by_cases hmask : payload.mask op = 0
    · rw [if_neg (by simp [hmask])]
      simpa [Ops.masks, hmask] using hchain
    · have hnew : payload ∉ first := by
        rw [hspecial] at hnodup
        exact fun hmem => (List.nodup_append'.mp hnodup).2.2 hmem List.mem_cons_self
      have hnext := operationGetOrigSpecial_eq huses hdata hcache horig hspecial hnew hmask
      have hused : payload ∈ replacer.payloadsSpecialUsed := by
        rw [hspecial]
        exact List.mem_append_right _ List.mem_cons_self
      rw [if_pos hmask, List.filter_cons_of_pos (by simpa [Ops.masks] using hmask)]
      exact .special hused hmask hnext hchain

/-- The operation of an object after a replacement, and what is found as the original one. -/
structure Replaced (hashPtr : Pointer → Nat → Nat) (data : OperationReplacerData n)
    (replacer replacer' : OperationReplacer n) (mem mem' : Memory n) (key : Pointer) : Prop where
  operationOf_eq : ∀ op, replacer'.operationOf mem' key op =
    if data.opsMaskTotal op ≠ 0 then data.opsReplTotal op else replacer.operationOf mem key op
  getOrig_eq : ∀ op, data.opsMaskTotal op ≠ 0 →
    operationGetOrig hashPtr replacer' mem' op key = some (replacer.operationOf mem key op)

theorem operationReplace_replacePointer (huses : replacer.nUses ≠ 0)
    (hdata : replacer.data = some data) (hkey : replacer.dataMap.get hashPtr key = none)
    (htype : replacer.type = .replacePointer) (hown : own ≠ mem.opsPointer key) :
    ∃ dataMap mem', operationReplace hashPtr replacer mem (some own) true key =
        some (0, { replacer with dataMap := dataMap }, mem') ∧
      Replaced hashPtr data replacer { replacer with dataMap := dataMap } mem mem' key := by
  obtain ⟨hadd, hget⟩ :=
    DataMap.get_add hkey (OperationData.replacePointer (mem.opsPointer key) own)
  refine ⟨(replacer.dataMap.add hashPtr true key (.replacePointer (mem.opsPointer key) own)).2,
    ⟨Function.update mem.ops own fun op => if data.opsMaskTotal op ≠ 0 then data.opsReplTotal op
      else mem.ops (mem.opsPointer key) op, Function.update mem.opsPointer key own⟩, ?_, ?_, ?_⟩
  · simp [operationReplace, huses, hdata, htype, operationReplaceReplacePointer, replaceOps_eq, hadd]
  · intro op
    simp [OperationReplacer.operationOf, htype]
  · intro op hmask
    simp [operationGetOrig, huses, hdata, hmask, hget, OperationReplacer.operationOf, htype,
      Function.update_of_ne hown.symm]

theorem operationReplace_atPlace
    (own : Pointer) (huses : replacer.nUses ≠ 0) (hdata : replacer.data = some data)
    (hkey : replacer.dataMap.get hashPtr key = none) (htype : replacer.type = .atPlace) :
    ∃ dataMap mem', operationReplace hashPtr replacer mem (some own) true key =
        some (0, { replacer with dataMap := dataMap }, mem') ∧
      Replaced hashPtr data replacer { replacer with dataMap := dataMap } mem mem' key := by
  obtain ⟨hadd, hget⟩ := DataMap.get_add hkey (OperationData.atPlace key (mem.ops key))
  refine ⟨(replacer.dataMap.add hashPtr true key (.atPlace key (mem.ops key))).2,
    { mem with ops := Function.update mem.ops key fun op =>
      if data.opsMaskTotal op ≠ 0 then data.opsReplTotal op else mem.ops key op }, ?_, ?_, ?_⟩
  · simp [operationReplace, huses, hdata, htype, operationReplaceAtPlace, replaceOps_eq, hadd]
  · intro op
    simp [OperationReplacer.operationOf, htype]
  · intro op hmask
    simp [operationGetOrig, huses, hdata, hmask, hget, OperationReplacer.operationOf, htype]

/-- The first replacement of an object saves its operations. -/
theorem operationReplace_spec (huses : replacer.nUses ≠ 0) (hdata : replacer.data = some data)
    (hkey : replacer.dataMap.get hashPtr key = none)
    (hown : replacer.type = .replacePointer → own ≠ mem.opsPointer key) :
    ∃ dataMap mem', operationReplace hashPtr replacer mem (some own) true key =
        some (0, { replacer with dataMap := dataMap }, mem') ∧
      Replaced hashPtr data replacer { replacer with dataMap := dataMap } mem mem' key := by
  by_cases htype : replacer.type = .replacePointer
  · exact operationReplace_replacePointer huses hdata hkey htype (hown htype)
  · have htype : replacer.type = .atPlace := by
      cases h : replacer.type with
      | replacePointer => exact absurd h htype
      | atPlace => rfl
    exact operationReplace_atPlace own huses hdata hkey htype

end Chain

/--
After the cache is made, each operation has the mask and the replacement of the last
payload that masks it.  The chain from the operation of an object that is replaced goes
through the special payloads that mask it, from the last to the first, then through the
standard one, and ends in the original operation.
-/
theorem replacement_chain
    (hashPtr : Pointer → Nat → Nat) (replacer : OperationReplacer n)
    (huses : replacer.nUses ≠ 0) (hdisjoint : DisjointMasks replacer.payloadsUsed)
    (hnodup : replacer.payloadsSpecialUsed.Nodup) :
    ∃ data replacer', operationReplacerDataCreate replacer true = some replacer' ∧
      replacer'.data = some data ∧
      (∀ op, (data.opsMaskTotal op ≠ 0 ↔ ∃ payload, (payload ∈ replacer.payloadsUsed ∨
          payload ∈ replacer.payloadsSpecialUsed) ∧ payload.mask op ≠ 0) ∧
        (∀ payload, owner replacer.payloadsSpecialUsed op = some payload →
          data.opsReplTotal op = payload.repl op) ∧
        ((∀ payload ∈ replacer.payloadsSpecialUsed, payload.mask op = 0) →
          ∀ payload ∈ replacer.payloadsUsed, payload.mask op ≠ 0 →
            data.opsReplTotal op = payload.repl op)) ∧
      ∀ mem own key, replacer'.dataMap.get hashPtr key = none →
        (replacer.type = .replacePointer → own ≠ mem.opsPointer key) →
        ∃ replacer'' mem', operationReplace hashPtr replacer' mem (some own) true key =
            some (0, replacer'', mem') ∧
          ∀ op, (data.opsMaskTotal op = 0 →
              replacer''.operationOf mem' key op = replacer.operationOf mem key op) ∧
            (data.opsMaskTotal op ≠ 0 →
              replacer''.operationOf mem' key op = data.opsReplTotal op ∧
              Chain hashPtr replacer'' mem' op key (data.opsReplTotal op)
                (replacer.payloadsSpecialUsed.filter fun payload => payload.mask.masks op).reverse
                (replacer.payloadsUsed.filter fun payload => payload.mask.masks op)
                (replacer.operationOf mem key op)) := by
  obtain ⟨data, hcreate, hcache⟩ := operationReplacerDataCreate_spec hdisjoint
  refine ⟨data, _, hcreate, rfl, fun op => ⟨?_, ?_, ?_⟩, ?_⟩
  · rw [hcache.merged.mask_ne_zero_iff, exists_owner]
    simp only [List.mem_append]
  · intro payload howner
    apply hcache.merged.repl_of_owner
    rw [owner_append, howner, Option.some_or]
  · intro hspecial payload hmem hmask
    apply hcache.merged.repl_of_owner
    rw [owner_append, owner_eq_none.mpr hspecial, Option.none_or]
    exact owner_of_disjoint hdisjoint hmem hmask
  · intro mem own key hkey hown
    obtain ⟨dataMap, mem', hreplace, hreplaced⟩ :=
      @operationReplace_spec n hashPtr { replacer with data := some data } mem key data own huses rfl
        hkey hown
    refine ⟨_, mem', hreplace, fun op => ⟨fun hmask => ?_, fun hmask => ?_⟩⟩
    · rw [hreplaced.operationOf_eq, if_neg (by simp [hmask])]
      rfl
    · refine ⟨by rw [hreplaced.operationOf_eq, if_pos hmask], ?_⟩
      obtain ⟨payload, howner⟩ := (hcache.merged.mask_ne_zero_iff op).mp hmask
      have htop : topOp (replacer.payloadsUsed ++ replacer.payloadsSpecialUsed) op
          (replacer.operationOf mem key op) = data.opsReplTotal op := by
        rw [topOp, howner, hcache.merged.repl_of_owner howner]
        rfl
      rw [← htop]
      exact chain_of_first huses rfl hcache hdisjoint hnodup (hreplaced.getOrig_eq op hmask)
        (List.append_nil _).symm

def onePayload (ptr repl : Pointer) : OperationPayload 1 :=
  ⟨ptr, fun _ => repl, fun _ => 1⟩

/-- One standard payload and two special ones. -/
def threePayloads : OperationReplacer 1 where
  nUses := 1
  type := .replacePointer
  payloadsUsed := [onePayload 1 10]
  payloadsSpecialUsed := [onePayload 2 20, onePayload 3 30]
  data := none
  dataMap := ⟨1, fun _ => []⟩

/-- Two special payloads and a standard one. -/
theorem replacement_chain_threePayloads :
    ∃ replacer'' mem' f, Chain (fun _ _ => 0) replacer'' mem' 0 100 f
      [onePayload 3 30, onePayload 2 20] [onePayload 1 10] 7 := by
  obtain ⟨data, replacer', hcreate, -, htotal, hchain⟩ := replacement_chain (fun _ _ => 0)
    threePayloads (by decide) (List.pairwise_singleton _ _) (by decide)
  have hmask : data.opsMaskTotal 0 ≠ 0 :=
    (htotal 0).1.mpr ⟨onePayload 1 10, Or.inl List.mem_cons_self, by decide⟩
  have hmap : replacer'.dataMap.get (fun _ _ => 0) 100 = none := by
    cases hcreate
    rfl
  obtain ⟨replacer'', mem', -, hop⟩ := hchain ⟨fun _ _ => 7, fun _ => 200⟩ 300 100 hmap
    (fun _ => (by decide : 300 ≠ 200))
  exact ⟨replacer'', mem', _, ((hop 0).2 hmask).2⟩

end Replacer
end KedrAux
