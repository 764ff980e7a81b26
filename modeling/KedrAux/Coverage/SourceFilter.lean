import KedrAux.Coverage.FilesGrouper
import KedrAux.Lib.CommonPrefix

/-!
# Files of a trace by the beginnings of their names

`Trace::commonSourcePrefix` and `Trace::filterSources` (`trace.cpp`), and the prefix that
the command `stat` passes to them.  Both rest on the order of the maps: a name is never compared
behind the end of the shorter one, and the files to keep are taken as one range.
-/

namespace KedrAux
namespace Coverage

open CommonPrefix (IsLongest)

/-- File names in the order in which the groups and their files are visited. -/
def Trace.fileNames (t : Trace) : List Str :=
  t.fileGroups.entries.flatMap fun group => group.2.files.keys

variable {t : Trace}

theorem Trace.mem_fileNames {f : Str} : f ∈ t.fileNames ↔ ∃ g, (t.fileOf g f).isSome := by
  simp only [fileNames, List.mem_flatMap, OrderedMap.mem_keys_iff]
  constructor
  · rintro ⟨⟨g, gi⟩, hmem, fi, hfi⟩
    have hg := (OrderedMap.find_eq_some_iff _ _ _).mpr hmem
    exact ⟨g, by simp [Trace.fileOf, hg, hfi]⟩
  · rintro ⟨g, hsome⟩
    obtain ⟨fi, hfi⟩ := Option.isSome_iff_exists.mp hsome
    obtain ⟨gi, hg, hfi⟩ := Option.bind_eq_some_iff.mp hfi
    exact ⟨(g, gi), (OrderedMap.find_eq_some_iff _ _ _).mp hg, fi, hfi⟩

namespace CommonPrefixFinder

/-- The loop over the positions that both names have. -/
def shorten (pre source : Str) : Str :=
  let n := min pre.length source.length
  match (List.range n).find? fun i => decide (pre[i]? ≠ source[i]?) with
  | some i => pre.take i
  | none => pre

/-- `operator()` for a file; the state is `none` until the first file is found. -/
def visitSource (pre : Option Str) (source : Str) : Option Str :=
  match pre with
  | some pre => some (shorten pre source)
  | none => some source

def visitGroup (pre : Option Str) (group : FileGroupID × FileGroupInfo) : Option Str :=
  group.2.files.keys.foldl visitSource pre

end CommonPrefixFinder

def Trace.commonSourcePrefix (t : Trace) : Str :=
  (t.fileGroups.entries.foldl CommonPrefixFinder.visitGroup none).getD []

namespace PrefixFilter

/-- `operator()` for a group: erase what is below the prefix, then everything from the
first other name on. -/
def filterGroup (pre : Str) (group : FileGroupInfo) : FileGroupInfo where
  files :=
    { entries := (group.files.entries.dropWhile fun file => decide (file.1 < pre)).takeWhile
        fun file => decide (file.1.take pre.length = pre)
      sorted := group.files.sorted.sublist
        ((List.takeWhile_sublist _).trans (List.dropWhile_sublist _)) }

end PrefixFilter

def Trace.filterSources (t : Trace) (pre : Str) : Trace :=
  ⟨t.fileGroups.mapVal (PrefixFilter.filterGroup pre)⟩

namespace StatProcessor

/-- A relative prefix is appended to the common one. -/
def prefixStr (trace : Trace) (pre : Str) : Str :=
  if pre.head? ≠ some '/' then trace.commonSourcePrefix ++ pre else pre

/-- The grouped trace without the files that the option `-p` excludes. -/
def selectSources (trace : Trace) (pre : Option Str) : Trace :=
  match pre with
  | none => trace
  | some pre => trace.filterSources (prefixStr trace pre)

end StatProcessor

namespace CommonPrefixFinder

theorem shorten_cases (pre source : Str) :
    ((pre <+: source ∨ source <+: pre) ∧ shorten pre source = pre) ∨
      ∃ (i : Nat) (hp : i < pre.length) (hs : i < source.length),
        pre.take i = source.take i ∧ pre[i] ≠ source[i] ∧ shorten pre source = pre.take i := by
  simp only [shorten]
  cases hfind : (List.range (min pre.length source.length)).find?
      fun i => decide (pre[i]? ≠ source[i]?) with
  | none =>
    left
    refine ⟨?_, rfl⟩
    rw [List.find?_eq_none] at hfind
    have hsame : ∀ i, i < pre.length → i < source.length → pre[i]? = source[i]? := by
      intro i hp hs
      simpa using hfind i (List.mem_range.mpr (lt_min hp hs))
    rcases le_total pre.length source.length with hle | hle
    · left
      rw [List.prefix_iff_getElem?]
      intro i hi
      rw [← hsame i hi (by omega), List.getElem?_eq_getElem hi]
    · right
      rw [List.prefix_iff_getElem?]
      intro i hi
      rw [hsame i (by omega) hi, List.getElem?_eq_getElem hi]
  | some i =>
    right
    obtain ⟨hdiff, hi, hbefore⟩ := List.find?_range_eq_some.mp hfind
    obtain ⟨hp, hs⟩ := lt_min_iff.mp (List.mem_range.mp hi)
    refine ⟨i, hp, hs, ?_, ?_, rfl⟩
    · apply List.ext_getElem?
      intro j
      rw [List.getElem?_take, List.getElem?_take]
      split_ifs with hj
      · simpa using hbefore j hj
      · rfl
    · simpa [List.getElem?_eq_getElem hp, List.getElem?_eq_getElem hs] using hdiff

variable {pre m : Str} {names : List Str}

theorem shorten_isLongest {source : Str} (h : IsLongest pre names) (hm : m ∈ names)
    (hle : m ≤ source) :
    IsLongest (shorten pre source) (names ++ [source]) := by
  rcases shorten_cases pre source with ⟨hagree, heq⟩ | ⟨i, hp, hs, hsame, hdiff, heq⟩
  · rw [heq]
    exact h.keep hm hle hagree
  · rw [heq]
    exact h.cut hsame hp hs hdiff

theorem foldl_visitSource (names : List Str) {seen : List Str} (hm : m ∈ seen)
    (hsorted : ∀ n ∈ names, m ≤ n) (h : IsLongest pre seen) :
    ∃ pre', names.foldl visitSource (some pre) = some pre' ∧
      IsLongest pre' (seen ++ names) := by
  induction names generalizing seen pre with
  | nil => exact ⟨pre, rfl, by rwa [List.append_nil]⟩
  | cons n names ih =>
    have hstep := shorten_isLongest h hm (hsorted n List.mem_cons_self)
    obtain ⟨pre', hfold, hpre'⟩ := ih (List.mem_append_left [n] hm)
      (fun n' hn' => hsorted n' (List.mem_cons_of_mem _ hn')) hstep
    exact ⟨pre', hfold, by rwa [List.append_assoc] at hpre'⟩

theorem foldl_visitSource_none (hsorted : names.Pairwise (· ≤ ·)) (hne : names ≠ []) :
    ∃ pre, names.foldl visitSource none = some pre ∧ IsLongest pre names := by
  cases names with
  | nil => exact absurd rfl hne
  | cons n names =>
    exact foldl_visitSource names List.mem_cons_self (List.pairwise_cons.mp hsorted).1
      (CommonPrefix.isLongest_singleton n)

end CommonPrefixFinder

theorem Trace.commonSourcePrefix_eq (t : Trace) :
    t.commonSourcePrefix = (t.fileNames.foldl CommonPrefixFinder.visitSource none).getD [] := by
  rw [commonSourcePrefix, fileNames, List.foldl_flatMap]
  rfl

theorem Trace.Grouped.fileNames_eq (ht : t.Grouped) :
    t.fileNames = t.fileGroups.keys.map FileGroupID.filename := by
  rw [fileNames, OrderedMap.keys, List.map_map, List.map_eq_flatMap]
  apply List.flatMap_congr
  intro group hgroup
  exact ht group.1 group.2 ((OrderedMap.find_eq_some_iff _ _ _).mpr hgroup)

theorem Trace.Grouped.fileNames_sorted (ht : t.Grouped) : t.fileNames.Pairwise (· ≤ ·) := by
  rw [ht.fileNames_eq, List.pairwise_map]
  apply t.fileGroups.keys_sorted.imp
  intro g g' hlt
  rcases (FileGroupID.lt_iff g g').mp hlt with h | ⟨h, -⟩
  · exact h.le
  · exact h.le

theorem Trace.Grouped.commonSourcePrefix_isLongest (ht : t.Grouped) (hne : t.fileNames ≠ []) :
    IsLongest t.commonSourcePrefix t.fileNames := by
  obtain ⟨pre, hfold, hpre⟩ :=
    CommonPrefixFinder.foldl_visitSource_none ht.fileNames_sorted hne
  rw [t.commonSourcePrefix_eq, hfold]
  exact hpre

theorem Trace.commonSourcePrefix_of_no_files (hnone : t.fileNames = []) :
    t.commonSourcePrefix = [] := by
  rw [t.commonSourcePrefix_eq, hnone]
  rfl

namespace FilesGrouper

theorem visit_fileOf_isSome {k : FileGroupID} {gi : FileGroupInfo} {groups groups' : FileGroups}
    (hk : groups.find k = some gi)
    (hvisit : ∀ g, groups'.find g = visitedGroup k gi groups g) (f : Str) :
    (∃ g, ((Trace.mk groups').fileOf g f).isSome) ↔
      ∃ g, ((Trace.mk groups).fileOf g f).isSome := by
  have hsome : ∀ (m : FileGroups) g, ((Trace.mk m).fileOf g f).isSome ↔
      ∃ gi, m.find g = some gi ∧ (gi.files.find f).isSome := by
    intro m g
    rw [Trace.fileOf]
    cases m.find g <;> simp
  simp only [hsome]
  constructor
  · rintro ⟨g, gi', hg, hf⟩
    rw [hvisit] at hg
    by_cases hne : g = k
    · rw [visitedGroup, if_pos hne] at hg
      cases hg
      rw [find_ownFile] at hf
      split_ifs at hf
      · exact ⟨k, gi, hk, hf⟩
      · cases hf
    · rcases visitedGroup_cases gi groups hne with ⟨fi, -, -, hfi, heq⟩ | ⟨-, heq⟩
      · rw [hg] at heq
        cases heq
        rcases (find_targetGroup_isSome _ _ f).mp hf with rfl | ⟨gi0, hgi0, hf⟩
        · exact ⟨k, gi, hk, Option.isSome_iff_exists.mpr ⟨fi, hfi⟩⟩
        · exact ⟨g, gi0, hgi0, hf⟩
      · exact ⟨g, gi', heq ▸ hg, hf⟩
  · rintro ⟨g, gi', hg, hf⟩
    by_cases hne : g = k
    · subst hne
      obtain rfl : gi = gi' := Option.some.inj (hk.symm.trans hg)
      by_cases hown : f = g.filename
      · refine ⟨g, ownFile g gi, by rw [hvisit, visitedGroup, if_pos rfl], ?_⟩
        rw [find_ownFile, if_pos hown]
        exact hf
      · -- the file goes to its own group
        rcases visitedGroup_cases gi groups (targetID_ne hown) with
          ⟨fi, -, -, -, heq⟩ | ⟨hnone, -⟩
        · exact ⟨targetID g f, _, (hvisit _).trans heq,
            (find_targetGroup_isSome _ _ f).mpr (Or.inl rfl)⟩
        · have hnot : gi.files.find f = none := hnone rfl
          rw [hnot] at hf
          cases hf
    · rcases visitedGroup_cases gi groups hne with ⟨fi, -, -, -, heq⟩ | ⟨-, heq⟩
      · exact ⟨g, _, (hvisit g).trans heq,
          (find_targetGroup_isSome _ _ f).mpr (Or.inr ⟨gi', hg, hf⟩)⟩
      · exact ⟨g, gi', ((hvisit g).trans heq).trans hg, hf⟩

theorem groupFiles_fileNames {t : Trace} (hinv : t.GroupInvariant) :
    ∃ t', t.groupFiles = some t' ∧ t'.Grouped ∧ ∀ f, f ∈ t'.fileNames ↔ f ∈ t.fileNames := by
  obtain ⟨t', _, hrun, hgrouped, hnames⟩ := groupFiles_induction hinv
    (P := fun groups _ => ∀ f, f ∈ (Trace.mk groups).fileNames ↔ f ∈ t.fileNames)
    (fun _ => Iff.rfl)
    (fun groups groups' visited k gi hnames hnext hvisit f => by
      rw [← hnames f, Trace.mem_fileNames, Trace.mem_fileNames]
      exact visit_fileOf_isSome (OrderedMap.nextAfter_eq_some hnext).1 hvisit f)
  exact ⟨t', hrun, hgrouped, hnames⟩

end FilesGrouper

namespace PrefixFilter

theorem begins_iff_take {pre name : Str} : name.take pre.length = pre ↔ pre <+: name :=
  ⟨fun h => List.prefix_iff_eq_take.mpr h.symm, fun h => (List.prefix_iff_eq_take.mp h).symm⟩

theorem filterGroup_entries (pre : Str) (group : FileGroupInfo) :
    (filterGroup pre group).files.entries =
      group.files.entries.filter fun file => decide (pre <+: file.1) := by
  have hinside : (fun file : Str × FileInfo => decide (file.1.take pre.length = pre)) =
      fun file => decide (pre <+: file.1) := by
    funext file
    exact decide_eq_decide.mpr begins_iff_take
  change (group.files.entries.dropWhile _).takeWhile _ = _
  rw [hinside]
  apply CommonPrefix.takeWhile_dropWhile
  · intro file hlow
    rw [decide_eq_true_eq] at hlow
    rw [decide_eq_false_iff_not]
    exact fun h => absurd (CommonPrefix.le_of_isPrefix h) (not_le.mpr hlow)
  · apply group.files.sorted.imp
    intro file file' hlt
    simp only [decide_eq_true_eq, decide_eq_false_iff_not, not_lt]
    exact ⟨fun h => hlt.trans h, fun h h' => CommonPrefix.prefix_of_between h hlt.le h'⟩

theorem find_filterGroup (pre : Str) (group : FileGroupInfo) (f : Str) :
    (filterGroup pre group).files.find f =
      if pre <+: f then group.files.find f else none := by
  have hmem : ∀ fi, (filterGroup pre group).files.find f = some fi ↔
      group.files.find f = some fi ∧ pre <+: f := by
    intro fi
    rw [OrderedMap.find_eq_some_iff, OrderedMap.find_eq_some_iff, filterGroup_entries,
      List.mem_filter, decide_eq_true_eq]
  ext fi
  rw [hmem]
  split_ifs with h <;> simp [h]

end PrefixFilter

theorem Trace.fileOf_filterSources (t : Trace) (pre : Str) (g : FileGroupID) (f : Str) :
    (t.filterSources pre).fileOf g f = if pre <+: f then t.fileOf g f else none := by
  rw [Trace.fileOf, filterSources, OrderedMap.find_mapVal, Trace.fileOf]
  cases t.fileGroups.find g with
  | none => simp
  | some gi => exact PrefixFilter.find_filterGroup pre gi f

/--
**Selection of sources.**  After grouping, the common prefix is the longest common
beginning of all file names of the trace, and the empty string when there are none.
The filter keeps the groups, and in each group exactly the files whose names begin
with the given string, as they are.
-/
theorem sourceSelection :
    (∀ t : Trace, t.GroupInvariant →
      ∃ t', t.groupFiles = some t' ∧ (∀ f, f ∈ t'.fileNames ↔ f ∈ t.fileNames) ∧
        (t.fileNames = [] → t'.commonSourcePrefix = []) ∧
        (t.fileNames ≠ [] → IsLongest t'.commonSourcePrefix t.fileNames)) ∧
    ∀ (t : Trace) (pre : Str),
      (∀ g, g ∈ (t.filterSources pre).fileGroups.keys ↔ g ∈ t.fileGroups.keys) ∧
      ∀ g f, (t.filterSources pre).fileOf g f = if pre <+: f then t.fileOf g f else none := by
  refine ⟨?_, fun t pre => ⟨?_, t.fileOf_filterSources pre⟩⟩
  · intro t hinv
    obtain ⟨t', hrun, hgrouped, hnames⟩ := FilesGrouper.groupFiles_fileNames hinv
    refine ⟨t', hrun, hnames, ?_, ?_⟩
    · intro hnone
      apply t'.commonSourcePrefix_of_no_files
      rw [List.eq_nil_iff_forall_not_mem] at hnone ⊢
      exact fun f hf => hnone f ((hnames f).mp hf)
    · intro hne
      have hne' : t'.fileNames ≠ [] := by
        obtain ⟨f, hf⟩ := List.exists_mem_of_ne_nil _ hne
        exact List.ne_nil_of_mem ((hnames f).mpr hf)
      have hlongest := hgrouped.commonSourcePrefix_isLongest hne'
      exact ⟨fun f hf => hlongest.common f ((hnames f).mpr hf),
        fun q hq => hlongest.longest q fun f hf => hq f ((hnames f).mp hf)⟩
  · intro g
    rw [OrderedMap.mem_keys_iff, OrderedMap.mem_keys_iff, Trace.filterSources,
      OrderedMap.find_mapVal]
    simp

/-- The prefix `/a` leaves out the file `/z.c`. -/
theorem sourceSelection_sharedHeader :
    sharedHeaderTrace.GroupInvariant ∧
      ∃ t', sharedHeaderTrace.groupFiles = some t' ∧
        IsLongest t'.commonSourcePrefix sharedHeaderTrace.fileNames ∧
        (t'.filterSources "/a".toList).fileOf ⟨[], "/z.c".toList⟩ "/z.c".toList = none := by
  have hinv : sharedHeaderTrace.GroupInvariant :=
    Trace.groupInvariant_of_entries (by decide +kernel)
  obtain ⟨hcommon, hfilter⟩ := sourceSelection
  obtain ⟨t', hrun, -, -, hlongest⟩ := hcommon sharedHeaderTrace hinv
  refine ⟨hinv, t', hrun, hlongest (by decide +kernel), ?_⟩
  rw [(hfilter t' "/a".toList).2]
  exact if_neg (by decide)

theorem Trace.fileOf_selectSources (t : Trace) (pre : Str) (g : FileGroupID) (f : Str) :
    (StatProcessor.selectSources t (some pre)).fileOf g f =
      if StatProcessor.prefixStr t pre <+: f then t.fileOf g f else none :=
  t.fileOf_filterSources _ g f

/-- The files that are left are those of the trace whose names begin with the prefix. -/
theorem StatProcessor.selectSources_spec (hinv : t.GroupInvariant) (pre : Str) :
    ∃ t', t.groupFiles = some t' ∧ ∀ f, f ∈ (selectSources t' (some pre)).fileNames ↔
      f ∈ t.fileNames ∧ prefixStr t' pre <+: f := by
  obtain ⟨t', hrun, -, hnames⟩ := FilesGrouper.groupFiles_fileNames hinv
  refine ⟨t', hrun, fun f => ?_⟩
  rw [← hnames, Trace.mem_fileNames, Trace.mem_fileNames]
  simp only [Trace.fileOf_selectSources]
  split_ifs with h <;> simp [h]

end Coverage
end KedrAux
