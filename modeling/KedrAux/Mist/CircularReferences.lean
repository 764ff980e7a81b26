import KedrAux.Mist.References

/-!
# Circular references

Every step of the builder keeps the blocks that are cached.  A template that is being
built refers, through other ones, to the name that is asked for; so an error means a
cycle, and a block that is made means that no cycle can be reached.
-/

namespace KedrAux
namespace Mist

def NamedCache.lookup (cache : NamedCache) (name : Str) (base : MistParamNameAbs) :
    Option MistTemplateGroupBlock :=
  (cache name).refGlobal.or ((cache name).contexts base)

def NamedCache.blocks (cache : NamedCache) (x : Reference) : Option MistTemplateGroupBlock :=
  cache.lookup x.name x.base

/-- The place of a block depends on whether the template uses its context. -/
structure NamedCache.Keyed (collection : TemplateCollection) (cache : NamedCache) : Prop where
  refGlobal : ∀ {name t}, collection.findTemplate name = some t → t.usesContext = true →
    (cache name).refGlobal = none
  contexts : ∀ {name}, (∀ t, collection.findTemplate name = some t → t.usesContext = false) →
    ∀ base, (cache name).contexts base = none

/-- What the builder may do to the cache while some templates are being built. -/
structure NamedCache.Grows (collection : TemplateCollection) (cache cache' : NamedCache) :
    Prop where
  lookup : ∀ {name base block}, cache.lookup name base = some block →
    cache'.lookup name base = some block
  inProgress : ∀ name, (cache' name).inProgress = (cache name).inProgress
  locked : ∀ {name t}, collection.findTemplate name = some t → (cache name).inProgress = true →
    cache' name = cache name

variable {collection : TemplateCollection} {name : Str} {t : Template} {base : MistParamNameAbs}
variable {block : MistTemplateGroupBlock}

namespace NamedCache

variable {cache cache' cache'' : NamedCache}

theorem Grows.refl (cache : NamedCache) : cache.Grows collection cache :=
  ⟨fun h => h, fun _ => rfl, fun _ _ => rfl⟩

theorem Grows.trans (h : cache.Grows collection cache') (h' : cache'.Grows collection cache'') :
    cache.Grows collection cache'' where
  lookup hlookup := h'.lookup (h.lookup hlookup)
  inProgress name := (h'.inProgress name).trans (h.inProgress name)
  locked hfind hprogress := by
    rw [h'.locked hfind (by rw [h.inProgress, hprogress]), h.locked hfind hprogress]

theorem Grows.groupOf (h : cache.Grows collection cache') {joins : List MistParamNameAbs}
    (hgroup : groupOf cache.blocks t base joins = some block) :
    Mist.groupOf cache'.blocks t base joins = some block :=
  groupOf_mono hgroup fun _ _ _ hb => h.lookup hb

theorem lookup_eq_contexts (hkeyed : cache.Keyed collection)
    (hfind : collection.findTemplate name = some t) (huses : t.usesContext = true)
    (base : MistParamNameAbs) :
    cache.lookup name base = (cache name).contexts base := by
  rw [lookup, hkeyed.refGlobal hfind huses, Option.none_or]

theorem lookup_eq_refGlobal (hkeyed : cache.Keyed collection)
    (hfind : collection.findTemplate name = some t) (huses : t.usesContext = false)
    (base : MistParamNameAbs) :
    cache.lookup name base = (cache name).refGlobal := by
  rw [lookup, hkeyed.contexts (fun t' ht' => ?_), Option.or_none]
  rw [hfind] at ht'
  cases ht'
  exact huses

@[simp] theorem set_self (entry : NamedBlockCached) : cache.set name entry name = entry := by
  rw [set, Function.update_self]

variable {name' : Str}

theorem set_of_ne (h : name' ≠ name) (entry : NamedBlockCached) :
    cache.set name entry name' = cache name' := by
  rw [set, Function.update_of_ne h]

theorem lookup_set_of_ne (h : name' ≠ name) (entry : NamedBlockCached) (base : MistParamNameAbs) :
    (cache.set name entry).lookup name' base = cache.lookup name' base := by
  rw [lookup, lookup, set_of_ne h]

@[simp] theorem lookup_setProgress (name' : Str) (inProgress : Bool) (base : MistParamNameAbs) :
    (cache.setProgress name' inProgress).lookup name base = cache.lookup name base := by
  by_cases h : name = name'
  · subst h
    simp [lookup, setProgress]
  · exact lookup_set_of_ne h _ base

theorem Keyed.set (h : cache.Keyed collection) {entry : NamedBlockCached}
    (hglobal : ∀ t, collection.findTemplate name = some t → t.usesContext = true →
      entry.refGlobal = none)
    (hcontexts : (∀ t, collection.findTemplate name = some t → t.usesContext = false) →
      ∀ base, entry.contexts base = none) :
    (cache.set name entry).Keyed collection where
  refGlobal {name' t} hfind huses := by
    by_cases heq : name' = name
    · subst heq
      rw [set_self]
      exact hglobal t hfind huses
    · rw [set_of_ne heq]
      exact h.refGlobal hfind huses
  contexts {name'} huses := by
    by_cases heq : name' = name
    · subst heq
      rw [set_self]
      exact hcontexts huses
    · rw [set_of_ne heq]
      exact h.contexts huses

theorem Keyed.setProgress (h : cache.Keyed collection) (name : Str) (inProgress : Bool) :
    (cache.setProgress name inProgress).Keyed collection :=
  Keyed.set h (fun _ hfind huses => h.refGlobal hfind huses) h.contexts

theorem lookup_storeParam (name' : Str) (base : MistParamNameAbs) :
    (cache.storeParam name).lookup name' base =
      if name' = name then some (.paramRef [name]) else cache.lookup name' base := by
  by_cases h : name' = name
  · subst h
    simp [lookup, storeParam]
  · rw [if_neg h]
    exact lookup_set_of_ne h _ base

theorem lookup_store (hkeyed : cache.Keyed collection)
    (hfind : collection.findTemplate name = some t) (hnone : cache.lookup name base = none)
    (block : MistTemplateGroupBlock) (name' : Str) (base' : MistParamNameAbs) :
    (cache.store name t.usesContext base block).lookup name' base' =
      if name' = name ∧ (t.usesContext = true → base' = base) then some block
      else cache.lookup name' base' := by
  by_cases h : name' = name
  · subst h
    cases huses : t.usesContext with
    | true =>
      have hglobal := hkeyed.refGlobal hfind huses
      rw [lookup_eq_contexts hkeyed hfind huses] at hnone ⊢
      simp only [lookup, store, set_self, cacheBlock, if_true, hglobal, Option.none_or, hnone,
        Option.getD_none, Function.update_apply, true_and, forall_const]
    | false =>
      simp [lookup, store, cacheBlock]
  · rw [if_neg fun hand => h hand.1]
    exact lookup_set_of_ne h _ base'

theorem Keyed.storeParam
    (h : cache.Keyed collection) (hfind : collection.findTemplate name = none) :
    (cache.storeParam name).Keyed collection := by
  refine Keyed.set h (fun t ht => ?_) h.contexts
  rw [hfind] at ht
  cases ht

theorem Keyed.store (h : cache.Keyed collection) (hfind : collection.findTemplate name = some t)
    (base : MistParamNameAbs) (block : MistTemplateGroupBlock) :
    (cache.store name t.usesContext base block).Keyed collection := by
  refine Keyed.set h (fun t' ht' huses => ?_) (fun huses => ?_)
  · rw [hfind] at ht'
    cases ht'
    rw [huses]
    exact h.refGlobal hfind huses
  · rw [huses t hfind]
    exact h.contexts huses

theorem lookup_eq_none_of_store {base' : MistParamNameAbs} (hkeyed : cache.Keyed collection)
    (hfind : collection.findTemplate name = some t) (hnone : cache.lookup name base = none)
    (hbase : t.usesContext = true → base' = base) :
    cache.lookup name base' = none := by
  cases huses : t.usesContext with
  | true => rw [hbase huses, hnone]
  | false =>
    rw [lookup_eq_refGlobal hkeyed hfind huses] at hnone ⊢
    exact hnone

end NamedCache

/-- A property of the cached blocks that storing a block keeps. -/
structure Kept (collection : TemplateCollection) (Reached : Reference → Prop)
    (I : (Str → MistParamNameAbs → Option MistTemplateGroupBlock) → Prop) : Prop where
  param : ∀ {lookup name}, I lookup → collection.findTemplate name = none →
    I fun name' base => if name' = name then some (.paramRef [name]) else lookup name' base
  template : ∀ {lookup name t base joins block}, I lookup →
    collection.findTemplate name = some t → Reached ⟨name, base, joins⟩ →
    groupOf (fun x => lookup x.name x.base) t base joins = some block →
    (∀ base', (t.usesContext = true → base' = base) → lookup name base' = none) →
    I fun name' base' => if name' = name ∧ (t.usesContext = true → base' = base) then some block
      else lookup name' base'

/-- A property of single blocks is kept if it passes from references to templates. -/
theorem Kept.pointwise {Reached : Reference → Prop}
    {Q : Str → MistParamNameAbs → MistTemplateGroupBlock → Prop}
    (hparam : ∀ name base, collection.findTemplate name = none → Q name base (.paramRef [name]))
    (htemplate : ∀ name t base joins block (blocks : Reference → Option MistTemplateGroupBlock),
      collection.findTemplate name = some t → Reached ⟨name, base, joins⟩ →
      groupOf blocks t base joins = some block →
      (∀ x ∈ t.references base joins, ∀ b, blocks x = some b → Q x.name x.base b) →
      ∀ base', (t.usesContext = true → base' = base) → Q name base' block) :
    Kept collection Reached fun lookup => ∀ name base block, lookup name base = some block →
      Q name base block where
  param {lookup name} h hfind name' base block hlookup := by
    simp only at hlookup
    split_ifs at hlookup with heq
    · cases hlookup
      rw [heq]
      exact hparam name base hfind
    · exact h name' base block hlookup
  template {lookup name t base joins block} h hfind hreached hgroup _ name' base' block' hlookup := by
    simp only at hlookup
    split_ifs at hlookup with hand
    · cases hlookup
      rw [hand.1]
      exact htemplate name t base joins block _ hfind hreached hgroup
        (fun x _ b hb => h x.name x.base b hb) base' hand.2
    · exact h name' base' block' hlookup

variable {I : (Str → MistParamNameAbs → Option MistTemplateGroupBlock) → Prop}

section Steps

variable {order : EvalOrder} {Reached : Reference → Prop}

/-- The cache while the given templates are being built, with the blocks of the given sites. -/
structure NamedCache.Good (collection : TemplateCollection)
    (I : (Str → MistParamNameAbs → Option MistTemplateGroupBlock) → Prop)
    (inProgress : Str → Bool) (sites : List Reference) (cache : NamedCache) : Prop where
  keyed : cache.Keyed collection
  kept : I cache.lookup
  inProgress_eq : ∀ name, (cache name).inProgress = inProgress name
  siteBlocks : ∀ {x block}, cache.blocks x = some block →
    siteBlocks collection sites x = some block
  made : ∀ {y}, y ∈ sites → ∃ block, cache.blocks y = some block

variable {cache : NamedCache} {inProgress : Str → Bool}
variable {sites : List Reference}

theorem NamedCache.blocks_of_sharesBlock {x y : Reference} (hkeyed : cache.Keyed collection)
    (hfind : collection.findTemplate x.name = some t) (hshares : SharesBlock t y x) :
    cache.blocks y = cache.blocks x := by
  obtain ⟨hname, hbase⟩ := hshares
  cases huses : t.usesContext with
  | true => rw [blocks, blocks, hname, hbase huses]
  | false =>
    rw [blocks, blocks, hname, lookup_eq_refGlobal hkeyed hfind huses,
      lookup_eq_refGlobal hkeyed hfind huses]

/-- A block is cached for a reference exactly if it was made at a site with which it shares. -/
theorem NamedCache.Good.any_sharesBlock
    {x : Reference} (h : cache.Good collection I inProgress sites)
    (hfind : collection.findTemplate x.name = some t) :
    (sites.any fun y => decide (SharesBlock t y x)) = (cache.blocks x).isSome := by
  rw [Bool.eq_iff_iff, List.any_eq_true]
  constructor
  · rintro ⟨y, hy, hshares⟩
    have hshares := of_decide_eq_true hshares
    obtain ⟨block, hblock⟩ := h.made hy
    rw [← NamedCache.blocks_of_sharesBlock h.keyed hfind hshares, hblock]
    rfl
  · intro hsome
    obtain ⟨block, hblock⟩ := Option.isSome_iff_exists.mp hsome
    obtain ⟨y, hy, hshares⟩ := exists_sharesBlock hfind (h.siteBlocks hblock)
    exact ⟨y, hy, decide_eq_true hshares⟩

theorem blockOf_yields (collection : TemplateCollection)
    {ref : Str → MistParamNameAbs → List MistParamNameAbs → CacheM MistTemplateGroupBlock}
    {G : List Reference → NamedCache → Prop} {E : BuildError → Prop} (t : Template)
    (base : MistParamNameAbs)
    (joins : List MistParamNameAbs) (hjoins : joins ≠ [])
    {done : List Reference}
    (href : ∀ x ∈ t.references base joins, ∀ done cache, G done cache →
      Yields (ref x.name x.base x.joins) cache (fun block cache' => G (done ++ [x]) cache' ∧
        cache.Grows collection cache' ∧ cache'.blocks x = some block) E)
    (hgood : G done cache) :
    Yields (blockOf order ref t base joins) cache (fun block cache' =>
      G (done ++ t.referencesIn order base joins) cache' ∧ cache.Grows collection cache' ∧
        groupOf cache'.blocks t base joins = some block) E := by
  induction t using Template.ind generalizing base joins cache done with
  | empty =>
    rw [blockOf, Template.referencesIn, List.append_nil]
    exact .pure ⟨hgood, .refl _, rfl⟩
  | sequence ts ih =>
    rw [Template.references] at href
    rw [blockOf, Template.referencesIn]
    suffices hall : Yields (blocksOf order ref ts base joins) cache (fun blocks cache' =>
        G (done ++ Template.referencesInAll order ts base joins) cache' ∧
          cache.Grows collection cache' ∧ groupsOf cache'.blocks ts base joins = some blocks) E by
      refine hall.bind fun blocks cache' hblocks => .pure ⟨hblocks.1, hblocks.2.1, ?_⟩
      rw [groupOf, hblocks.2.2]
      rfl
    induction ts generalizing cache done with
    | nil =>
      rw [blocksOf, Template.referencesInAll, List.append_nil]
      exact .pure ⟨hgood, .refl _, rfl⟩
    | cons t ts ihts =>
      rw [Template.referencesAll] at href
      rw [blocksOf, Template.referencesInAll, ← List.append_assoc]
      refine (ih t List.mem_cons_self base joins hjoins
        (fun x hx => href x (List.mem_append_left _ hx)) hgood).bind
        fun block cache' hblock => ?_
      obtain ⟨hgood', hgrows, hgroup⟩ := hblock
      refine (ihts (fun t' ht' => ih t' (List.mem_cons_of_mem _ ht'))
        (fun x hx => href x (List.mem_append_right _ hx)) hgood').bind
        fun blocks cache'' hblocks => ?_
      obtain ⟨hgood'', hgrows', hgroups⟩ := hblocks
      refine .pure ⟨hgood'', hgrows.trans hgrows', ?_⟩
      simp only [groupsOf, hgrows'.groupOf hgroup, hgroups]
      rfl
  | text s =>
    rw [blockOf, Template.referencesIn, List.append_nil]
    exact .pure ⟨hgood, .refl _, rfl⟩
  | ref name =>
    rw [Template.references] at href
    simp only [blockOf, groupOf, Template.referencesIn]
    cases hsingle : name.single? with
    | none =>
      rw [List.append_nil]
      exact .pure ⟨hgood, .refl _, rfl⟩
    | some component =>
      rw [hsingle] at href
      exact href _ List.mem_cons_self done cache hgood
  | ifTemplate c p e ihc ihp ihe =>
    rw [Template.references] at href
    rw [blockOf, Template.referencesIn]
    refine (Yields.order (I := G) (R := fun cache cache' => cache.Grows collection cache')
      (A := fun block cache' => groupOf cache'.blocks c base joins = some block)
      (B := fun block cache' => groupOf cache'.blocks p base joins = some block)
      (C := fun block cache' => groupOf cache'.blocks e base joins = some block) order
      (fun _ _ _ h h' => h.trans h') (fun _ _ _ h h' => h'.groupOf h)
      (fun _ _ _ h h' => h'.groupOf h) (fun _ _ _ h h' => h'.groupOf h)
      (fun _ _ h => ihc base joins hjoins (fun x hx => href x (List.mem_append_left _ hx)) h)
      (fun _ _ h => ihp base joins hjoins (fun x hx => href x
        (List.mem_append_right _ (List.mem_append_left _ hx))) h)
      (fun _ _ h => ihe base joins hjoins (fun x hx => href x
        (List.mem_append_right _ (List.mem_append_right _ hx))) h) hgood).bind
      fun blocks cache' hblocks => ?_
    obtain ⟨hgood', hgrows, hc, hp, he⟩ := hblocks
    refine .pure ⟨hgood', hgrows, ?_⟩
    simp only [groupOf, hc, hp, he]
    rfl
  | join reversed t textBetween ih =>
    rw [blockOf, Template.referencesIn]
    refine (ih base (base :: joins) (List.cons_ne_nil _ _) href hgood).bind
      fun block cache' hblock => ?_
    obtain ⟨hgood', hgrows, hgroup⟩ := hblock
    obtain ⟨mask, submask, hnew, -, -⟩ :=
      MistTemplateGroupBlock.newJoin_spec reversed block base textBetween
    rw [hnew]
    refine .pure ⟨hgood', hgrows, ?_⟩
    simp only [groupOf, hgroup]
    exact hnew
  | withContext context t ih =>
    rw [blockOf, Template.referencesIn]
    exact ih (context.resolve base) joins hjoins href hgood
  | index first t ih =>
    rw [blockOf, Template.referencesIn]
    refine (ih base joins hjoins href hgood).bind fun block cache' hblock => ?_
    obtain ⟨hgood', hgrows, hgroup⟩ := hblock
    have hlt : joins.length - 1 < joins.length :=
      Nat.sub_one_lt (List.length_pos_iff.mpr hjoins).ne'
    rw [if_pos hlt]
    refine .pure ⟨hgood', hgrows, ?_⟩
    rw [groupOf, hgroup]
    rfl
  | indent t s ih =>
    rw [blockOf, Template.referencesIn]
    refine (ih base joins hjoins href hgood).bind fun block cache' hblock => ?_
    obtain ⟨hgood', hgrows, hgroup⟩ := hblock
    refine .pure ⟨hgood', hgrows, ?_⟩
    rw [groupOf, hgroup]
    rfl

def idleTemplates (collection : TemplateCollection) (inProgress : Str → Bool) : Finset Str :=
  (collection.map Prod.fst).toFinset.filter fun name => inProgress name = false

theorem mem_idleTemplates (hfind : collection.findTemplate name = some t)
    (hidle : inProgress name = false) :
    name ∈ idleTemplates collection inProgress := by
  rw [idleTemplates, Finset.mem_filter, List.mem_toFinset]
  refine ⟨?_, hidle⟩
  obtain ⟨before, after, rfl, -⟩ := List.lookup_eq_some_iff.mp hfind
  simp

theorem card_idleTemplates_le (collection : TemplateCollection) (inProgress : Str → Bool) :
    (idleTemplates collection inProgress).card ≤ collection.length :=
  calc (idleTemplates collection inProgress).card
      ≤ (collection.map Prod.fst).toFinset.card := Finset.card_filter_le _ _
    _ ≤ (collection.map Prod.fst).length := List.toFinset_card_le _
    _ = collection.length := List.length_map _

theorem idleTemplates_update (inProgress : Str → Bool) (name : Str) :
    idleTemplates collection (Function.update inProgress name true) =
      (idleTemplates collection inProgress).erase name := by
  ext name'
  simp only [idleTemplates, Finset.mem_filter, Finset.mem_erase, Function.update_apply]
  split_ifs with h
  · simp [h]
  · simp [h]

theorem NamedCache.grows_storeParam (hkeyed : cache.Keyed collection)
    (hglobal : (cache name).refGlobal = none) (hfind : collection.findTemplate name = none) :
    cache.Grows collection (cache.storeParam name) where
  lookup {name' base block} hlookup := by
    rw [lookup_storeParam]
    split_ifs with heq
    · -- there was no block for the name
      subst heq
      have hcontexts : (cache name').contexts base = none := hkeyed.contexts (fun t ht => by
        rw [hfind] at ht
        cases ht) base
      rw [NamedCache.lookup, hglobal, hcontexts] at hlookup
      cases hlookup
    · exact hlookup
  inProgress name' := by
    rw [NamedCache.storeParam]
    by_cases heq : name' = name
    · rw [heq, set_self]
    · rw [set_of_ne heq]
  locked {name' t} ht _ := by
    refine set_of_ne (fun heq => ?_) _
    rw [heq, hfind] at ht
    cases ht

theorem NamedCache.Good.storeParam (hkept : Kept collection Reached I)
    (h : cache.Good collection I inProgress sites) (hglobal : (cache name).refGlobal = none)
    (hfind : collection.findTemplate name = none) :
    (cache.storeParam name).Good collection I inProgress sites where
  keyed := h.keyed.storeParam hfind
  kept := by
    have hlookup : (cache.storeParam name).lookup = fun name' base =>
        if name' = name then some (.paramRef [name]) else cache.lookup name' base := by
      funext name' base
      exact lookup_storeParam name' base
    rw [hlookup]
    exact hkept.param h.kept hfind
  inProgress_eq name' := by
    rw [← h.inProgress_eq name', NamedCache.storeParam]
    by_cases heq : name' = name
    · rw [heq, set_self]
    · rw [set_of_ne heq]
  siteBlocks {x block} hblock := by
    rw [blocks, lookup_storeParam] at hblock
    split_ifs at hblock with heq
    · rw [siteBlocks_of_param (heq ▸ hfind), heq]
      exact hblock
    · exact h.siteBlocks hblock
  made hy := by
    obtain ⟨block, hblock⟩ := h.made hy
    exact ⟨block, (grows_storeParam h.keyed hglobal hfind).lookup hblock⟩

@[simp] theorem NamedCache.blocks_setProgress (name : Str) (value : Bool) :
    (cache.setProgress name value).blocks = cache.blocks :=
  funext fun x => lookup_setProgress name value x.base

theorem NamedCache.Good.setProgress (h : cache.Good collection I inProgress sites) (name : Str)
    (value : Bool) :
    (cache.setProgress name value).Good collection I (Function.update inProgress name value) sites where
  keyed := h.keyed.setProgress name value
  kept := by
    have hlookup : (cache.setProgress name value).lookup = cache.lookup := by
      funext name' base
      exact lookup_setProgress name value base
    rw [hlookup]
    exact h.kept
  inProgress_eq name' := by
    rw [NamedCache.setProgress, Function.update_apply]
    split_ifs with heq
    · rw [heq, set_self]
    · rw [set_of_ne heq, h.inProgress_eq]
  siteBlocks hblock := h.siteBlocks (by rwa [blocks_setProgress] at hblock)
  made hy := by
    rw [blocks_setProgress]
    exact h.made hy

theorem NamedCache.lookup_store_of_lookup (hkeyed : cache.Keyed collection)
    (hfind : collection.findTemplate name = some t) (hnone : cache.lookup name base = none)
    (block : MistTemplateGroupBlock) {name' : Str} {base' : MistParamNameAbs}
    {block' : MistTemplateGroupBlock} (hlookup : cache.lookup name' base' = some block') :
    (cache.store name t.usesContext base block).lookup name' base' = some block' := by
  rw [lookup_store hkeyed hfind hnone]
  split_ifs with hand
  · obtain ⟨rfl, hbase⟩ := hand
    rw [lookup_eq_none_of_store hkeyed hfind hnone hbase] at hlookup
    cases hlookup
  · exact hlookup

theorem NamedCache.Good.store {joins : List MistParamNameAbs}
    (hkept : Kept collection Reached I) (h : cache.Good collection I inProgress sites)
    (hfind : collection.findTemplate name = some t) (hreached : Reached ⟨name, base, joins⟩)
    (hgroup : groupOf cache.blocks t base joins = some block)
    (hnone : cache.lookup name base = none) :
    (cache.store name t.usesContext base block).Good collection I inProgress
      (⟨name, base, joins⟩ :: sites) where
  keyed := h.keyed.store hfind base block
  kept := by
    have hlookup : (cache.store name t.usesContext base block).lookup = fun name' base' =>
        if name' = name ∧ (t.usesContext = true → base' = base) then some block
        else cache.lookup name' base' := by
      funext name' base'
      exact lookup_store h.keyed hfind hnone block name' base'
    rw [hlookup]
    exact hkept.template h.kept hfind hreached hgroup fun base' hbase' =>
      lookup_eq_none_of_store h.keyed hfind hnone hbase'
  inProgress_eq name' := by
    rw [← h.inProgress_eq name', NamedCache.store]
    by_cases heq : name' = name
    · rw [heq, set_self, cacheBlock]
      split_ifs <;> rfl
    · rw [set_of_ne heq]
  siteBlocks {x block'} hblock := by
    rw [blocks, lookup_store h.keyed hfind hnone] at hblock
    split_ifs at hblock with hand
    · -- the reference gets the new block
      rw [← hblock, siteBlocks_of_shares (hand.1 ▸ hfind)
        ⟨hand.1.symm, fun huses => (hand.2 huses).symm⟩]
      exact groupOf_mono hgroup fun _ _ _ => h.siteBlocks
    · rw [siteBlocks_of_not_shares fun t' hfind' hshares => hand ⟨hshares.1.symm, fun huses => ?_⟩]
      · exact h.siteBlocks hblock
      · rw [← hshares.1, hfind] at hfind'
        cases hfind'
        exact (hshares.2 huses).symm
  made hy := by
    rcases List.mem_cons.mp hy with rfl | hy
    · refine ⟨block, ?_⟩
      rw [blocks, lookup_store h.keyed hfind hnone]
      exact if_pos ⟨rfl, fun _ => rfl⟩
    · obtain ⟨b, hb⟩ := h.made hy
      exact ⟨b, lookup_store_of_lookup h.keyed hfind hnone block hb⟩

theorem NamedCache.grows_store {cache' : NamedCache}
    (hgrows : (cache.setProgress name true).Grows collection cache')
    (hkeyed : cache'.Keyed collection) (hfind : collection.findTemplate name = some t)
    (hnone : cache'.lookup name base = none) (hidle : (cache name).inProgress = false)
    (block : MistTemplateGroupBlock) :
    cache.Grows collection ((cache'.store name t.usesContext base block).setProgress name false) where
  lookup hlookup := by
    rw [lookup_setProgress]
    refine lookup_store_of_lookup hkeyed hfind hnone block (hgrows.lookup ?_)
    rw [lookup_setProgress, hlookup]
  inProgress name' := by
    by_cases heq : name' = name
    · rw [heq, NamedCache.setProgress, set_self, hidle]
    · rw [NamedCache.setProgress, set_of_ne heq, NamedCache.store, set_of_ne heq,
        hgrows.inProgress, NamedCache.setProgress, set_of_ne heq]
  locked {name' t'} hfind' hprogress := by
    have hne : name' ≠ name := fun heq => by
      rw [heq, hidle] at hprogress
      cases hprogress
    have hlocked := hgrows.locked hfind' (by rwa [NamedCache.setProgress, set_of_ne hne])
    rw [NamedCache.setProgress, set_of_ne hne, NamedCache.store, set_of_ne hne, hlocked,
      NamedCache.setProgress, set_of_ne hne]

variable {x : Reference}

theorem template_yields (order : EvalOrder) (hkept : Kept collection Reached I)
    {ref : Str → MistParamNameAbs → List MistParamNameAbs → CacheM MistTemplateGroupBlock}
    {E : BuildError → Prop} {f : List Reference → Reference → List Reference} (hx : Reached x)
    (hjoins : x.joins ≠ []) (hgood : cache.Good collection I inProgress sites)
    (hfind : collection.findTemplate x.name = some t) (hprogress : inProgress x.name = false)
    (hnone : cache.lookup x.name x.base = none)
    (href : ∀ y ∈ t.references x.base x.joins, ∀ sites cache',
      cache'.Good collection I (Function.update inProgress x.name true) sites →
      Yields (ref y.name y.base y.joins) cache' (fun block cache'' =>
        cache''.Good collection I (Function.update inProgress x.name true) (f sites y) ∧
          cache'.Grows collection cache'' ∧ cache''.blocks y = some block) E) :
    Yields
      (do let block ← blockOf order ref t x.base x.joins
          let cache ← get
          set ((cache.store x.name t.usesContext x.base block).setProgress x.name false)
          return block)
      (cache.setProgress x.name true)
      (fun block cache' => cache'.Good collection I inProgress
          (x :: (t.referencesIn order x.base x.joins).foldl f sites) ∧
        cache.Grows collection cache' ∧ cache'.blocks x = some block) E := by
  have hgood1 := hgood.setProgress x.name true
  have hstart : (cache.setProgress x.name true).Good collection I
      (Function.update inProgress x.name true) (([] : List Reference).foldl f sites) := hgood1
  refine (blockOf_yields collection (G := fun done cache =>
      cache.Good collection I (Function.update inProgress x.name true) (done.foldl f sites))
    t x.base x.joins hjoins (fun y hy done cache' hgood' => ?_) hstart).bind
      fun block cache2 hblock => ?_
  · rw [List.foldl_append]
    exact href y hy _ cache' hgood'
  obtain ⟨hgood2, hgrows, hgroup⟩ := hblock
  -- no block for the template was stored meanwhile
  have hlocked : cache2 x.name = (cache.setProgress x.name true) x.name :=
    hgrows.locked hfind (by rw [hgood1.inProgress_eq, Function.update_self])
  have hnone2 : cache2.lookup x.name x.base = none := by
    rw [NamedCache.lookup, hlocked, ← NamedCache.lookup, NamedCache.lookup_setProgress, hnone]
  have hgood3 := (hgood2.store hkept hfind hx hgroup hnone2).setProgress x.name false
  rw [Function.update_idem, ← hprogress, Function.update_eq_self] at hgood3
  refine .get_bind (.set_bind (.pure ⟨?_, ?_, ?_⟩))
  · rw [← hprogress]
    exact hgood3
  · refine NamedCache.grows_store hgrows hgood2.keyed hfind hnone2 ?_ block
    rw [hgood.inProgress_eq, hprogress]
  · rw [NamedCache.blocks, NamedCache.lookup_setProgress,
      NamedCache.lookup_store hgood2.keyed hfind hnone2]
    exact if_pos ⟨rfl, fun _ => rfl⟩

theorem visit_of_findTemplate (order : EvalOrder) (limit : Nat)
    (hgood : cache.Good collection I inProgress sites)
    (hfind : collection.findTemplate x.name = some t) :
    visit collection order (limit + 1) sites x = if (cache.blocks x).isSome then sites
      else x :: (t.referencesIn order x.base x.joins).foldl (visit collection order limit) sites := by
  rw [visit, hfind]
  simp only [hgood.any_sharesBlock hfind]

theorem namedBlock_yields (order : EvalOrder) (hkept : Kept collection Reached I)
    (hreached : ∀ x t, Reached x → collection.findTemplate x.name = some t →
      ∀ y ∈ t.references x.base x.joins, Reached y) {limit : Nat} (hx : Reached x)
    (hjoins : x.joins ≠ []) (hgood : cache.Good collection I inProgress sites)
    (hpath : ∀ name, inProgress name = true → ∀ t, collection.findTemplate x.name = some t →
      Relation.TransGen (RefersTo collection) name x.name)
    (hlimit : (idleTemplates collection inProgress).card < limit) :
    Yields (namedBlock collection order limit x.name x.base x.joins) cache
      (fun block cache' =>
        cache'.Good collection I inProgress (visit collection order limit sites x) ∧
          cache.Grows collection cache' ∧ cache'.blocks x = some block)
      (fun e => e = .circular ∧ ReachesCycle collection x.name) := by
  induction limit generalizing x inProgress cache sites with
  | zero => exact absurd hlimit (Nat.not_lt_zero _)
  | succ limit ih =>
    -- a block that is cached is returned, and nothing else is visited
    have hcached : ∀ {block}, cache.blocks x = some block →
        cache.Good collection I inProgress (visit collection order (limit + 1) sites x) ∧
          cache.Grows collection cache ∧ cache.blocks x = some block := by
      intro block hblock
      refine ⟨?_, .refl _, hblock⟩
      cases hfind : collection.findTemplate x.name with
      | none =>
        rw [visit, hfind]
        exact hgood
      | some t =>
        rw [visit_of_findTemplate order limit hgood hfind, hblock]
        exact hgood
    rw [namedBlock]
    refine .get_bind ?_
    cases hglobal : (cache x.name).refGlobal with
    | some block =>
      exact .pure (hcached (by rw [NamedCache.blocks, NamedCache.lookup, hglobal, Option.some_or]))
    | none =>
      cases hfind : collection.findTemplate x.name with
      | none =>
        refine .set_bind (.pure ⟨?_, NamedCache.grows_storeParam hgood.keyed hglobal hfind, ?_⟩)
        · rw [visit, hfind]
          exact hgood.storeParam hkept hglobal hfind
        · rw [NamedCache.blocks, NamedCache.lookup_storeParam, if_pos rfl]
      | some t =>
        simp only
        cases hcontext : (cache x.name).contexts x.base with
        | some block =>
          refine .pure (hcached ?_)
          rw [NamedCache.blocks, NamedCache.lookup, hglobal, hcontext, Option.none_or]
        | none =>
          cases hprogress : (cache x.name).inProgress with
          | true =>
            -- the name is asked for while its own template is being built
            rw [hgood.inProgress_eq] at hprogress
            exact .throw ⟨rfl, x.name, .refl, hpath x.name hprogress t hfind⟩
          | false =>
            rw [hgood.inProgress_eq] at hprogress
            have hnone : cache.lookup x.name x.base = none := by
              rw [NamedCache.lookup, hglobal, hcontext, Option.none_or]
            have hvisit := visit_of_findTemplate order limit hgood hfind
            rw [NamedCache.blocks, hnone] at hvisit
            rw [hvisit]
            refine .set_bind (template_yields order hkept hx hjoins hgood hfind hprogress
              hnone fun y hy sites' cache' hgood' => ?_)
            refine (ih (hreached x t hx hfind y hy)
              (Template.joins_ne_nil_of_mem_references hy hjoins) hgood' ?_ ?_).mono
              (fun _ _ h => h) ?_
            · intro name hname t' ht'
              have hrefers := RefersTo.of_mem_references hfind hy ht'
              rw [Function.update_apply] at hname
              split_ifs at hname with heq
              · exact heq ▸ .single hrefers
              · exact (hpath name hname t hfind).tail hrefers
            · have hidle := mem_idleTemplates hfind hprogress
              rw [idleTemplates_update, Finset.card_erase_of_mem hidle]
              have hpos := Finset.card_pos.mpr ⟨x.name, hidle⟩
              omega
            · rintro e ⟨he, hcycle⟩
              refine ⟨he, ?_⟩
              cases ht' : collection.findTemplate y.name with
              | none =>
                exact absurd hcycle (not_reachesCycle_of_findTemplate_eq_none ht')
              | some t' =>
                exact hcycle.of_refersTo (RefersTo.of_mem_references hfind hy ht')

end Steps

variable {limit : Nat}

theorem NamedCache.good_empty (h : I fun _ _ => none) :
    NamedCache.empty.Good collection I (fun _ => false) [] :=
  ⟨⟨fun _ _ => rfl, fun _ _ => rfl⟩, h, fun _ => rfl, fun hblock => (by cases hblock),
    fun hy => (by cases hy)⟩

theorem buildGroup_yields {Reached : Reference → Prop} (order : EvalOrder) (mainTemplate : Str)
    (hkept : Kept collection Reached I)
    (hreached : ∀ x t, Reached x → collection.findTemplate x.name = some t →
      ∀ y ∈ t.references x.base x.joins, Reached y) (hmain : Reached (.main mainTemplate))
    (hI : I fun _ _ => none) (hlimit : collection.length < limit)
    (hfind : collection.findTemplate mainTemplate = some t) :
    (∃ block cache, buildGroup collection order limit mainTemplate =
        .ok (block, ⟨cache, [], [], []⟩) ∧
        cache.Good collection I (fun _ => false) (buildSites collection order limit mainTemplate) ∧
        cache.lookup mainTemplate [] = some block) ∨
      (buildGroup collection order limit mainTemplate = .error .circular ∧
        ReachesCycle collection mainTemplate) := by
  have hcard := lt_of_le_of_lt (card_idleTemplates_le collection fun _ => false) hlimit
  have hrun := namedBlock_yields order hkept hreached hmain (List.cons_ne_nil _ _)
    (NamedCache.good_empty hI) (fun _ h => by cases h) hcard
  rw [buildGroup_eq, hfind]
  cases hresult : (namedBlock collection order limit mainTemplate [] [[]]).run .empty with
  | ok r =>
    obtain ⟨hgood, -, hblock⟩ := hrun.of_ok hresult
    exact Or.inl ⟨r.1, r.2, rfl, hgood, hblock⟩
  | error e =>
    obtain ⟨rfl, hcycle⟩ := hrun.of_error hresult
    exact Or.inr ⟨rfl, hcycle⟩

theorem kept_not_reachesCycle (collection : TemplateCollection) (Reached : Reference → Prop) :
    Kept collection Reached fun lookup => ∀ name base block, lookup name base = some block →
      ¬ ReachesCycle collection name := by
  refine Kept.pointwise (fun name base hfind => not_reachesCycle_of_findTemplate_eq_none hfind) ?_
  intro name t base joins block blocks hfind _ hgroup hblocks _ _ hcycle
  obtain ⟨y, hrefers, hcycle'⟩ := hcycle.exists_refersTo
  obtain ⟨x, hx, rfl⟩ := hrefers.exists_mem_references hfind base joins
  obtain ⟨b, hb⟩ := exists_of_groupOf hgroup hx
  exact hblocks x hx b hb hcycle'

theorem not_reachesCycle_of_buildGroup (order : EvalOrder) {mainTemplate : Str}
    {context : BuildContext} (hlimit : collection.length < limit)
    (hfind : collection.findTemplate mainTemplate = some t)
    (hbuild : buildGroup collection order limit mainTemplate = .ok (block, context)) :
    ¬ ReachesCycle collection mainTemplate := by
  rcases buildGroup_yields order mainTemplate (kept_not_reachesCycle collection fun _ => True)
      (fun _ _ _ _ _ _ => trivial) trivial (fun _ _ _ h => by cases h) hlimit hfind with
    ⟨block', cache, -, hgood, hlookup⟩ | ⟨herror, -⟩
  · exact hgood.kept mainTemplate [] block' hlookup
  · rw [hbuild] at herror
    cases herror

/--
Building a group ends.  It reports a circular dependency exactly if a cycle of references
can be reached from the main template; otherwise there is a group, and the stacks are
empty.
-/
theorem buildGroup_circular_iff
    (collection : TemplateCollection) (order : EvalOrder) (mainTemplate : Str) (limit : Nat)
    (hlimit : collection.length < limit) :
    buildGroup collection order limit mainTemplate ≠ .error .limit ∧
    (buildGroup collection order limit mainTemplate = .error .circular ↔
      ReachesCycle collection mainTemplate) ∧
    ((collection.findTemplate mainTemplate).isSome → ¬ ReachesCycle collection mainTemplate →
      ∃ block context, buildGroup collection order limit mainTemplate = .ok (block, context) ∧
        context.baseParamStack = [] ∧ context.joinBaseStack = []) := by
  cases hfind : collection.findTemplate mainTemplate with
  | none =>
    have hbuild : buildGroup collection order limit mainTemplate = .error .absent := by
      rw [buildGroup, hfind]
    have hcycle := not_reachesCycle_of_findTemplate_eq_none hfind
    refine ⟨by simp [hbuild], by simp [hbuild, hcycle], fun h => ?_⟩
    cases h
  | some t =>
    rcases buildGroup_yields order mainTemplate
        (kept_not_reachesCycle collection fun _ => True) (fun _ _ _ _ _ _ => trivial) trivial
        (fun _ _ _ h => by cases h) hlimit hfind with
      ⟨block, cache, hbuild, hgood, hlookup⟩ | ⟨hbuild, hcycle⟩
    · have hcycle := hgood.kept mainTemplate [] block hlookup
      refine ⟨by simp [hbuild], by simp [hbuild, hcycle], fun _ _ => ?_⟩
      exact ⟨block, _, hbuild, rfl, rfl⟩
    · refine ⟨by simp [hbuild], by simp [hbuild, hcycle], fun _ hnot => ?_⟩
      exact absurd hcycle hnot

def diamond : TemplateCollection :=
  [(['m'], .sequence [.ref ⟨[['a']], false⟩, .ref ⟨[['b']], false⟩]),
    (['a'], .ref ⟨[['c']], false⟩), (['b'], .ref ⟨[['c']], false⟩), (['c'], .text ['x'])]

/-- Two references to one template are no cycle. -/
theorem buildGroup_circular_iff_diamond :
    ¬ ReachesCycle diamond ['m'] ∧ buildGroup diamond .abc 5 ['m'] ≠ .error .circular := by
  have h := buildGroup_circular_iff diamond .abc ['m'] 5 (by decide)
  have hbuild : buildGroup diamond .abc 5 ['m'] ≠ .error .circular := by
    intro herror
    cases herror
  exact ⟨mt h.2.1.mpr hbuild, hbuild⟩

end Mist
end KedrAux
