import Mathlib.Algebra.Group.WithOne.Defs
import KedrAux.Coverage.Trace

/-!
# Grouping of files

`Trace::groupFiles` (`trace.cpp`) moves every file into the group of its own
name, within the test.  The groups are visited in the order of the map while new
groups are inserted into the map: a new group is visited too when it comes after
the current one.  A failed assertion and an exhausted bound on the visits give `none`.
-/

namespace KedrAux
namespace Coverage

namespace CombineFile

/-- `combineBranchCounter`: the new value of `counter`. -/
def combineBranchCounter (counter counterAnother : Int) : Int :=
  let counter :=
    if counter = -1 then if counterAnother ≠ -1 then counterAnother else counter
    else counter
  if counterAnother > 0 then counter + counterAnother else counter

/-- `updateFuncLine`: the new value of `line`. -/
def updateFuncLine (line lineAnother : Int) : Int :=
  if line = -1 then if lineAnother ≥ 0 then lineAnother else line else line

def combineFunction (dest func : FuncInfo) : FuncInfo :=
  ⟨updateFuncLine dest.lineStart func.lineStart, dest.counter + func.counter⟩

/-- `addFile`: the counters of `file` are added to `destFile`. -/
def addFile (destFile file : FileInfo) : FileInfo where
  lines := destFile.lines.combine (· + ·) file.lines
  branches := destFile.branches.combine combineBranchCounter file.branches
  functions := destFile.functions.combine combineFunction file.functions

end CombineFile

abbrev FileGroups := OrderedMap FileGroupID FileGroupInfo

namespace FilesGrouper

def moveFile (currentGroup : FileGroupID) (groups : FileGroups) (file : Str × FileInfo) :
    Option FileGroups :=
  if file.1 = currentGroup.filename then some groups
  else
    let newGroupID : FileGroupID := ⟨currentGroup.testName, file.1⟩
    match groups.find newGroupID with
    | some gi =>
      -- the group has to have its own file
      match gi.files.find file.1 with
      | some destFile =>
        some (groups.set newGroupID
          ⟨gi.files.set file.1 (CombineFile.addFile destFile file.2)⟩)
      | none => none
    | none => some (groups.set newGroupID ⟨OrderedMap.empty.set file.1 file.2⟩)

def ownFile (currentGroup : FileGroupID) (gi : FileGroupInfo) : FileGroupInfo :=
  ⟨gi.files.filterMapVal fun f fi => if f ≠ currentGroup.filename then none else some fi⟩

/-- `operator()` for a group: move its files, then remove those that were moved. -/
def visitGroup (groups : FileGroups) (group : FileGroupID × FileGroupInfo) :
    Option FileGroups :=
  (group.2.files.entries.foldlM (moveFile group.1) groups).map fun groups =>
    groups.set group.1 (ownFile group.1 group.2)

def visitAll : (fuel : Nat) → FileGroups → (visited : Option FileGroupID) → Option FileGroups
  | fuel, groups, visited =>
    match groups.nextAfter visited with
    | none => some groups
    | some group =>
      match fuel with
      | 0 => none
      | fuel + 1 =>
        (visitGroup groups group).bind fun groups => visitAll fuel groups (some group.1)

/-- Identificators that a group can get. -/
def candidates (groups : FileGroups) : List FileGroupID :=
  groups.entries.flatMap fun group =>
    group.1 :: group.2.files.keys.map fun f => ⟨group.1.testName, f⟩

end FilesGrouper

def Trace.groupFiles (t : Trace) : Option Trace :=
  (FilesGrouper.visitAll (FilesGrouper.candidates t.fileGroups).length t.fileGroups none).map
    Trace.mk

namespace FilesGrouper

theorem find_ownFile (k : FileGroupID) (gi : FileGroupInfo) (f : Str) :
    (ownFile k gi).files.find f = if f = k.filename then gi.files.find f else none := by
  rw [ownFile, OrderedMap.find_filterMapVal]
  by_cases hf : f = k.filename
  · simp [hf]
  · simp [hf]

def targetID (k : FileGroupID) (f : Str) : FileGroupID :=
  ⟨k.testName, f⟩

variable {k g : FileGroupID} {groups groups' : FileGroups} {gi : FileGroupInfo}
variable {ids : List FileGroupID} {visited : Option FileGroupID} {T : Str}

theorem targetID_ne {f : Str} (h : f ≠ k.filename) : targetID k f ≠ k := by
  rintro heq
  exact h (congrArg FileGroupID.filename heq)

def targetGroup (gi : Option FileGroupInfo) (file : Str × FileInfo) : FileGroupInfo :=
  match gi with
  | some gi =>
    ⟨gi.files.set file.1
      (match gi.files.find file.1 with
      | some dest => CombineFile.addFile dest file.2
      | none => file.2)⟩
  | none => ⟨OrderedMap.empty.set file.1 file.2⟩

/-- The group `g` after moving the files `files` out of the group `k`. -/
def movedGroup (k : FileGroupID) (files : List (Str × FileInfo)) (g : FileGroupID)
    (gi : Option FileGroupInfo) : Option FileGroupInfo :=
  if g.testName = k.testName ∧ g.filename ≠ k.filename then
    match OrderedMap.findIn g.filename files with
    | some fi => some (targetGroup gi (g.filename, fi))
    | none => gi
  else gi

def TargetsOwn (k : FileGroupID) (files : List (Str × FileInfo)) (groups : FileGroups) : Prop :=
  ∀ file gi, file ∈ files → groups.find (targetID k file.1) = some gi →
    (gi.files.find file.1).isSome

theorem moveFile_eq {file : Str × FileInfo}
    (hown : ∀ gi, groups.find (targetID k file.1) = some gi → (gi.files.find file.1).isSome)
    (hfile : file.1 ≠ k.filename) :
    moveFile k groups file =
      some (groups.set (targetID k file.1)
        (targetGroup (groups.find (targetID k file.1)) file)) := by
  unfold moveFile
  rw [if_neg hfile]
  change (match groups.find (targetID k file.1) with | some gi => _ | none => _) = _
  cases hg : groups.find (targetID k file.1) with
  | none => rfl
  | some gi =>
    obtain ⟨dest, hdest⟩ := Option.isSome_iff_exists.mp (hown gi hg)
    simp only [targetGroup, hdest]
    rfl

/-- The files of a group are moved one after another. -/
theorem moveFiles_spec (k : FileGroupID) :
    ∀ (files : List (Str × FileInfo)) (groups : FileGroups),
      files.Pairwise (fun a b => a.1 < b.1) → TargetsOwn k files groups →
      ∃ groups', files.foldlM (moveFile k) groups = some groups' ∧
        ∀ g, groups'.find g = movedGroup k files g (groups.find g)
  | [], groups, _, _ => by
      refine ⟨groups, rfl, ?_⟩
      intro g
      simp [movedGroup, OrderedMap.findIn]
  | file :: files, groups, hsorted, hown => by
      obtain ⟨hhead, htail⟩ := List.pairwise_cons.mp hsorted
      rw [List.foldlM_cons]
      by_cases hfile : file.1 = k.filename
      · have hown' : TargetsOwn k files groups := fun f gi hf hg =>
          hown f gi (List.mem_cons_of_mem _ hf) hg
        obtain ⟨groups', hrun, hfind⟩ := moveFiles_spec k files groups htail hown'
        refine ⟨groups', by simpa [moveFile, hfile] using hrun, ?_⟩
        intro g
        rw [hfind]
        unfold movedGroup
        split_ifs with hg
        · rw [OrderedMap.findIn, if_neg (by rw [hfile]; exact hg.2)]
        · rfl
      · rw [moveFile_eq (fun gi hg => hown file gi List.mem_cons_self hg) hfile]
        have hown' : TargetsOwn k files (groups.set (targetID k file.1)
            (targetGroup (groups.find (targetID k file.1)) file)) := by
          intro f gi hf hg
          have hne : targetID k f.1 ≠ targetID k file.1 := by
            intro heq
            exact (hhead f hf).ne' (congrArg FileGroupID.filename heq)
          rw [OrderedMap.find_set_of_ne _ _ hne] at hg
          exact hown f gi (List.mem_cons_of_mem _ hf) hg
        obtain ⟨groups', hrun, hfind⟩ := moveFiles_spec k files _ htail hown'
        refine ⟨groups', by simpa using hrun, ?_⟩
        intro g
        rw [hfind, OrderedMap.find_set]
        by_cases hg : g = targetID k file.1
        · -- the names are different, so no later file comes to this group
          have hnone : OrderedMap.findIn file.1 files = none := by
            rw [Option.eq_none_iff_forall_ne_some]
            intro fi hfi
            rw [OrderedMap.findIn_eq_some_of_sorted _ _ htail] at hfi
            exact lt_irrefl _ (hhead (file.1, fi) hfi)
          subst hg
          simp [movedGroup, targetID, OrderedMap.findIn, hfile, hnone]
        · rw [if_neg hg]
          unfold movedGroup
          split_ifs with htest
          · have hne : g.filename ≠ file.1 := by
              intro heq
              apply hg
              cases g
              simp only [targetID, FileGroupID.mk.injEq]
              exact ⟨htest.1, heq⟩
            rw [OrderedMap.findIn, if_neg hne]
          · rfl

def visitedGroup (k : FileGroupID) (gi : FileGroupInfo) (groups : FileGroups) (g : FileGroupID) :
    Option FileGroupInfo :=
  if g = k then some (ownFile k gi) else movedGroup k gi.files.entries g (groups.find g)

theorem visitGroup_spec (hinv : Trace.GroupInvariant ⟨groups⟩) (k : FileGroupID)
    (gi : FileGroupInfo) :
    ∃ groups', visitGroup groups (k, gi) = some groups' ∧
      ∀ g, groups'.find g = visitedGroup k gi groups g := by
  have hown : TargetsOwn k gi.files.entries groups := fun file gi' _ hg =>
    hinv.own_file (targetID k file.1) gi' hg
  obtain ⟨groups', hrun, hfind⟩ := moveFiles_spec k gi.files.entries groups gi.files.sorted hown
  refine ⟨groups'.set k (ownFile k gi), by simp [visitGroup, hrun], ?_⟩
  intro g
  rw [OrderedMap.find_set, hfind]
  unfold visitedGroup
  split_ifs <;> rfl

theorem visitedGroup_cases (gi : FileGroupInfo) (groups : FileGroups) (hne : g ≠ k) :
    (∃ fi, g.testName = k.testName ∧ g.filename ≠ k.filename ∧
        gi.files.find g.filename = some fi ∧
        visitedGroup k gi groups g = some (targetGroup (groups.find g) (g.filename, fi))) ∨
      ((g.testName = k.testName → gi.files.find g.filename = none) ∧
        visitedGroup k gi groups g = groups.find g) := by
  rw [visitedGroup, if_neg hne]
  unfold movedGroup
  by_cases htest : g.testName = k.testName
  · have hname : g.filename ≠ k.filename := by
      intro heq
      apply hne
      cases g
      cases k
      simp_all
    rw [if_pos ⟨htest, hname⟩]
    cases hfi : OrderedMap.findIn g.filename gi.files.entries with
    | none => exact Or.inr ⟨fun _ => hfi, rfl⟩
    | some fi => exact Or.inl ⟨fi, htest, hname, hfi, rfl⟩
  · rw [if_neg fun h => htest h.1]
    exact Or.inr ⟨fun h => absurd h htest, rfl⟩

theorem visitedGroup_of_test_ne (h : g.testName ≠ k.testName) :
    visitedGroup k gi groups g = groups.find g := by
  have hne : g ≠ k := fun heq => h (congrArg FileGroupID.testName heq)
  rcases visitedGroup_cases gi groups hne with ⟨_, htest, -⟩ | ⟨-, heq⟩
  · exact absurd htest h
  · exact heq

theorem find_targetGroup_isSome (gi : Option FileGroupInfo) (file : Str × FileInfo) (f : Str) :
    ((targetGroup gi file).files.find f).isSome ↔
      f = file.1 ∨ ∃ gi', gi = some gi' ∧ (gi'.files.find f).isSome := by
  cases gi with
  | none
  | some gi =>
    by_cases hf : f = file.1
    · simp [targetGroup, hf]
    · simp [targetGroup, hf, OrderedMap.find_set_of_ne]

theorem visitedGroup_files {gi' : FileGroupInfo} (hg : visitedGroup k gi groups g = some gi')
    {f : Str} (hf : (gi'.files.find f).isSome) :
    f = g.filename ∨
      g ≠ k ∧ ∃ gi0, groups.find g = some gi0 ∧ (gi0.files.find f).isSome := by
  by_cases hne : g = k
  · rw [visitedGroup, if_pos hne] at hg
    cases hg
    rw [find_ownFile] at hf
    split_ifs at hf with hname
    · exact Or.inl (hne ▸ hname)
    · cases hf
  · rcases visitedGroup_cases gi groups hne with
      ⟨fi, -, -, -, heq⟩ | ⟨-, heq⟩
    · rw [hg] at heq
      cases heq
      rcases (find_targetGroup_isSome _ _ f).mp hf with heq | ⟨gi0, hgi0, hf⟩
      · exact Or.inl heq
      · exact Or.inr ⟨hne, gi0, hgi0, hf⟩
    · rw [hg] at heq
      exact Or.inr ⟨hne, gi', heq.symm, hf⟩

theorem visit_groupInvariant (hinv : Trace.GroupInvariant ⟨groups⟩) (hk : groups.find k = some gi)
    (hvisit : ∀ g, groups'.find g = visitedGroup k gi groups g) :
    Trace.GroupInvariant ⟨groups'⟩ := by
  constructor
  · intro g gi' hg
    rw [hvisit] at hg
    by_cases hne : g = k
    · rw [visitedGroup, if_pos hne] at hg
      cases hg
      subst hne
      rw [find_ownFile, if_pos rfl]
      exact hinv.own_file g gi hk
    · rcases visitedGroup_cases gi groups hne with
        ⟨fi, -, -, -, heq⟩ | ⟨-, heq⟩
      · rw [hg] at heq
        cases heq
        exact (find_targetGroup_isSome _ _ _).mpr (Or.inl rfl)
      · rw [hg] at heq
        exact hinv.own_file g gi' heq.symm
  · intro g gi' f hg hf hend
    rw [hvisit] at hg
    rcases visitedGroup_files hg hf with heq | ⟨-, gi0, hg0, hf0⟩
    · exact heq
    · exact hinv.source_is_own g gi0 f hg0 hf0 hend

/-- The identificators of the groups and of the groups their files can move to are in `ids`. -/
structure Within (ids : List FileGroupID) (groups : FileGroups) : Prop where
  group : ∀ g gi, groups.find g = some gi → g ∈ ids
  file : ∀ g gi f, groups.find g = some gi → (gi.files.find f).isSome → targetID g f ∈ ids

theorem within_candidates (groups : FileGroups) : Within (candidates groups) groups := by
  constructor
  · intro g gi hg
    exact List.mem_flatMap.mpr
      ⟨(g, gi), (OrderedMap.find_eq_some_iff _ _ _).mp hg, List.mem_cons_self⟩
  · intro g gi f hg hf
    refine List.mem_flatMap.mpr ⟨(g, gi), (OrderedMap.find_eq_some_iff _ _ _).mp hg, ?_⟩
    apply List.mem_cons_of_mem
    exact List.mem_map.mpr
      ⟨f, (gi.files.mem_keys_iff f).mpr (Option.isSome_iff_exists.mp hf), rfl⟩

theorem visit_within (hids : Within ids groups) (hk : groups.find k = some gi)
    (hvisit : ∀ g, groups'.find g = visitedGroup k gi groups g) :
    Within ids groups' := by
  have hgroup : ∀ g gi', groups'.find g = some gi' → g ∈ ids := by
    intro g gi' hg
    rw [hvisit] at hg
    by_cases hne : g = k
    · exact hne ▸ hids.group k gi hk
    · rcases visitedGroup_cases gi groups hne with
        ⟨fi, htest, -, hfi, -⟩ | ⟨-, heq⟩
      · have hmem := hids.file k gi g.filename hk (by simp [hfi])
        rwa [targetID, ← htest] at hmem
      · exact hids.group g gi' (heq ▸ hg)
  refine ⟨hgroup, ?_⟩
  intro g gi' f hg hf
  rcases visitedGroup_files (hvisit g ▸ hg) hf with rfl | ⟨-, gi0, hg0, hf0⟩
  · exact hgroup g gi' hg
  · exact hids.file g gi0 f hg0 hf0

/-- Groups that were visited already hold their own file only. -/
def VisitedGrouped (groups : FileGroups) (visited : Option FileGroupID) : Prop :=
  ∀ g gi f, groups.find g = some gi → ¬OrderedMap.Beyond visited g →
    (gi.files.find f).isSome → f = g.filename

/-- What holds between two visits. -/
structure TraversalInvariant (ids : List FileGroupID) (groups : FileGroups)
    (visited : Option FileGroupID) : Prop where
  inv : Trace.GroupInvariant ⟨groups⟩
  within : Within ids groups
  grouped : VisitedGrouped groups visited

theorem visit_visitedGrouped (hgrouped : VisitedGrouped groups visited)
    (hnext : groups.nextAfter visited = some (k, gi))
    (hvisit : ∀ g, groups'.find g = visitedGroup k gi groups g) :
    VisitedGrouped groups' (some k) := by
  obtain ⟨-, -, hleast⟩ := OrderedMap.nextAfter_eq_some hnext
  intro g gi' f hg hbeyond hf
  rcases visitedGroup_files (hvisit g ▸ hg) hf with heq | ⟨hne, gi0, hg0, hf0⟩
  · exact heq
  · refine hgrouped g gi0 f hg0 ?_ hf0
    intro hafter
    apply hbeyond
    rintro _ ⟨⟩
    exact lt_of_le_of_ne (hleast g gi0 hg0 hafter) (Ne.symm hne)

theorem visit_traversalInvariant (h : TraversalInvariant ids groups visited)
    (hnext : groups.nextAfter visited = some (k, gi)) :
    ∃ groups', visitGroup groups (k, gi) = some groups' ∧
      (∀ g, groups'.find g = visitedGroup k gi groups g) ∧
      TraversalInvariant ids groups' (some k) := by
  obtain ⟨hk, -, -⟩ := OrderedMap.nextAfter_eq_some hnext
  obtain ⟨groups', hrun, hvisit⟩ := visitGroup_spec h.inv k gi
  exact ⟨groups', hrun, hvisit, visit_groupInvariant h.inv hk hvisit,
    visit_within h.within hk hvisit, visit_visitedGrouped h.grouped hnext hvisit⟩

/-- The number of identificators that can still be visited. -/
noncomputable def remaining (ids : List FileGroupID) (visited : Option FileGroupID) : Nat :=
  by classical exact (ids.toFinset.filter fun g => OrderedMap.Beyond visited g).card

theorem remaining_visit_lt (hmem : k ∈ ids) (hbeyond : OrderedMap.Beyond visited k) :
    remaining ids (some k) < remaining ids visited := by
  classical
  unfold remaining
  apply Finset.card_lt_card
  refine (Finset.ssubset_iff_of_subset ?_).mpr ⟨k, by simp [hmem, hbeyond], ?_⟩
  · intro g hg
    rw [Finset.mem_filter] at hg ⊢
    refine ⟨hg.1, ?_⟩
    intro a ha
    exact (hbeyond a ha).trans (hg.2 k rfl)
  · simp [OrderedMap.Beyond]

theorem remaining_le (ids : List FileGroupID) (visited : Option FileGroupID) :
    remaining ids visited ≤ ids.length := by
  classical
  exact (Finset.card_filter_le _ _).trans (List.toFinset_card_le ids)

variable {P : FileGroups → Option FileGroupID → Prop}

/--
The rule for the traversal: a relation between the groups at the start and the
current groups that every visit keeps holds at the end, which is reached within
the given number of visits.
-/
theorem visitAll_induction (hstep : ∀ groups groups' visited k gi,
      TraversalInvariant ids groups visited → P groups visited →
      groups.nextAfter visited = some (k, gi) →
      (∀ g, groups'.find g = visitedGroup k gi groups g) → P groups' (some k)) :
    ∀ (fuel : Nat) (groups : FileGroups) (visited : Option FileGroupID),
      TraversalInvariant ids groups visited → P groups visited →
      remaining ids visited ≤ fuel →
      ∃ groups' visited', visitAll fuel groups visited = some groups' ∧
        groups'.nextAfter visited' = none ∧
        TraversalInvariant ids groups' visited' ∧ P groups' visited'
  | fuel, groups, visited, hinv, hP, hfuel => by
      unfold visitAll
      cases hnext : groups.nextAfter visited with
      | none => exact ⟨groups, visited, rfl, hnext, hinv, hP⟩
      | some group =>
        obtain ⟨k, gi⟩ := group
        obtain ⟨hk, hbeyond, -⟩ := OrderedMap.nextAfter_eq_some hnext
        have hlt := remaining_visit_lt (hinv.within.group k gi hk) hbeyond
        obtain ⟨groups', hrun, hvisit, hinv'⟩ := visit_traversalInvariant hinv hnext
        cases fuel with
        | zero => omega
        | succ fuel =>
          have hP' := hstep groups groups' visited k gi hinv hP hnext hvisit
          simp only [hrun, Option.bind_some]
          exact visitAll_induction hstep fuel groups' (some k) hinv' hP' (by omega)

theorem traversalInvariant_start (hinv : Trace.GroupInvariant ⟨groups⟩) :
    TraversalInvariant (candidates groups) groups none := by
  refine ⟨hinv, within_candidates groups, ?_⟩
  intro g gi f _ hbeyond _
  exact absurd (by simp [OrderedMap.Beyond]) hbeyond

theorem TraversalInvariant.groupedAtEnd (h : TraversalInvariant ids groups visited)
    (hend : groups.nextAfter visited = none) :
    Trace.Grouped ⟨groups⟩ := by
  rw [Trace.grouped_iff]
  intro g gi hg f
  constructor
  · exact h.grouped g gi f hg (OrderedMap.nextAfter_eq_none hend hg)
  · rintro rfl
    exact h.inv.own_file g gi hg

theorem groupFiles_induction {t : Trace} (hinv : t.GroupInvariant) (hstart : P t.fileGroups none)
    (hstep : ∀ groups groups' visited k gi,
      P groups visited → groups.nextAfter visited = some (k, gi) →
      (∀ g, groups'.find g = visitedGroup k gi groups g) → P groups' (some k)) :
    ∃ t' visited, t.groupFiles = some t' ∧ t'.Grouped ∧ P t'.fileGroups visited := by
  obtain ⟨groups', visited, hrun, hend, hinv', hP⟩ :=
    visitAll_induction (P := P) (fun groups groups' visited k gi _ => hstep groups groups' visited k gi)
      (candidates t.fileGroups).length t.fileGroups none (traversalInvariant_start hinv) hstart
      (remaining_le _ _)
  exact ⟨⟨groups'⟩, visited, by simp [Trace.groupFiles, hrun], hinv'.groupedAtEnd hend, hP⟩

section Conservation

variable {M : Type*} [AddCommMonoid M]

/-- A quantity of the file `F`, summed over the groups of the test `T`. -/
def total (φ : FileInfo → M) (T F : Str) (groups : FileGroups) : M :=
  groups.sumOver fun g gi => if g.testName = T then (gi.files.find F).elim 0 φ else 0

def share (φ : FileInfo → M) (T F : Str) (g : FileGroupID) (gi : Option FileGroupInfo) : M :=
  gi.elim 0 fun gi => if g.testName = T then (gi.files.find F).elim 0 φ else 0

variable {φ : FileInfo → M}

variable {F : Str}

theorem share_of_test_ne (h : g.testName ≠ T) (F : Str) (gi : Option FileGroupInfo) :
    share φ T F g gi = 0 := by
  cases gi <;> simp [share, h]

theorem share_targetGroup (hφ : ∀ a b, φ (CombineFile.addFile a b) = φ a + φ b)
    (gi : Option FileGroupInfo) (fi : FileInfo) :
    share φ T F ⟨T, F⟩ (some (targetGroup gi (F, fi))) = share φ T F ⟨T, F⟩ gi + φ fi := by
  cases gi with
  | none => simp [share, targetGroup]
  | some gi =>
    cases hdest : gi.files.find F with
    | none => simp [share, targetGroup, hdest]
    | some dest => simp [share, targetGroup, hdest, hφ]

theorem share_targetGroup_of_ne {f : Str} (h : F ≠ f) (gi : Option FileGroupInfo) (fi : FileInfo) :
    share φ T F g (some (targetGroup gi (f, fi))) = share φ T F g gi := by
  cases gi <;> simp [share, targetGroup, OrderedMap.find_set_of_ne _ _ h]

theorem share_ownFile (k : FileGroupID) (gi : FileGroupInfo) :
    share φ T F k (some (ownFile k gi)) =
      if F = k.filename then share φ T F k (some gi) else 0 := by
  unfold share
  simp only [Option.elim_some, find_ownFile]
  split_ifs <;> rfl

theorem share_visitedGroup (hk : groups.find k = some gi) (h : g ≠ k ∨ F = k.filename)
    (h' : g ≠ ⟨T, F⟩ ∨ F = k.filename) :
    share φ T F g (visitedGroup k gi groups g) = share φ T F g (groups.find g) := by
  by_cases hgk : g = k
  · rcases h with hne | hF
    · exact absurd hgk hne
    · subst hgk
      rw [visitedGroup, if_pos rfl, share_ownFile, if_pos hF, hk]
  · rcases visitedGroup_cases gi groups hgk with
      ⟨fi, htest, hname, -, heq⟩ | ⟨-, heq⟩
    · by_cases hT : g.testName = T
      · rw [heq, share_targetGroup_of_ne]
        rintro rfl
        rcases h' with hne | hF
        · exact hne (by rw [← hT])
        · exact hname hF
      · rw [share_of_test_ne hT, share_of_test_ne hT]
    · rw [heq]

/-- What is summed over the groups does not change when a group is visited. -/
theorem visit_total (hφ : ∀ a b, φ (CombineFile.addFile a b) = φ a + φ b) (T F : Str)
    {groups' : FileGroups} (hk : groups.find k = some gi)
    (hvisit : ∀ g, groups'.find g = visitedGroup k gi groups g) :
    total φ T F groups' = total φ T F groups := by
  have hshare : ∀ (m : FileGroups) g,
      (m.find g).elim 0 (fun gi => if g.testName = T then (gi.files.find F).elim 0 φ else 0) =
        share φ T F g (m.find g) := fun _ _ => rfl
  by_cases hsame : T = k.testName ∧ F ≠ k.filename
  · -- the quantity of `F` goes from the group `k` to the group `⟨T, F⟩`
    obtain ⟨hT, hF⟩ := hsame
    subst hT
    have hne : k ≠ ⟨k.testName, F⟩ := (targetID_ne hF).symm
    refine OrderedMap.sumOver_transfer hne ?_ ?_
    · rw [hshare, hshare, hshare, hshare, hvisit, hvisit, hk, visitedGroup, if_pos rfl,
        share_ownFile, if_neg hF, zero_add]
      rcases visitedGroup_cases gi groups hne.symm with
        ⟨fi, -, -, hfi, heq⟩ | ⟨hnone, heq⟩
      · rw [heq, share_targetGroup hφ, add_comm]
        congr 1
        simp only [share, Option.elim_some, if_pos]
        rw [show gi.files.find F = some fi from hfi]
        rfl
      · rw [heq]
        have hfi : gi.files.find F = none := hnone rfl
        simp [share, hfi]
    · intro g hg hg'
      rw [hshare, hshare, hvisit]
      exact share_visitedGroup hk (Or.inl hg) (Or.inl hg')
  · have hall : ∀ g, share φ T F g (groups'.find g) = share φ T F g (groups.find g) := by
      intro g
      rw [hvisit]
      by_cases hT : g.testName = T
      · by_cases hF : F = k.filename
        · exact share_visitedGroup hk (Or.inr hF) (Or.inr hF)
        · have htest : g.testName ≠ k.testName := by
            rw [hT]
            exact fun heq => hsame ⟨heq, hF⟩
          rw [visitedGroup_of_test_ne htest]
      · rw [share_of_test_ne hT, share_of_test_ne hT]
    apply OrderedMap.sumOver_eq_of_find
    intro g
    rw [hshare, hshare, hall]

theorem total_of_grouped (h : Trace.Grouped ⟨groups⟩) (T F : Str) :
    total φ T F groups = ((Trace.mk groups).fileOf ⟨T, F⟩ F).elim 0 φ := by
  have hzero : ∀ g gi, groups.find g = some gi → g ≠ ⟨T, F⟩ →
      (if g.testName = T then (gi.files.find F).elim 0 φ else 0) = 0 := by
    intro g gi hg hne
    split_ifs with hT
    · have hnone : gi.files.find F = none := by
        rw [← Option.not_isSome_iff_eq_none, h.find_isSome_iff hg F]
        rintro rfl
        exact hne (by rw [← hT])
      rw [hnone]
      rfl
    · rfl
  rw [total, OrderedMap.sumOver_eq_single ⟨T, F⟩ hzero, Trace.fileOf]
  cases groups.find ⟨T, F⟩ <;> simp

end Conservation

def ofTest (T : Str) (groups : FileGroups) : FileGroups :=
  groups.filterMapVal fun g gi => if g.testName = T then some gi else none

theorem find_ofTest (T : Str) (groups : FileGroups) (g : FileGroupID) :
    (ofTest T groups).find g = if g.testName = T then groups.find g else none := by
  rw [ofTest, OrderedMap.find_filterMapVal]
  cases groups.find g <;> split_ifs <;> simp_all

theorem find_ofTest_eq_some :
    (ofTest T groups).find g = some gi ↔ g.testName = T ∧ groups.find g = some gi := by
  rw [find_ofTest]
  split_ifs with hT
  · simp [hT]
  · simp [hT]

theorem ofTest_groupInvariant (h : Trace.GroupInvariant ⟨groups⟩) :
    Trace.GroupInvariant ⟨ofTest T groups⟩ where
  own_file g gi hg := h.own_file g gi (find_ofTest_eq_some.mp hg).2
  source_is_own g gi f hg := h.source_is_own g gi f (find_ofTest_eq_some.mp hg).2

theorem ofTest_visit_of_ne (hT : k.testName ≠ T)
    (hvisit : ∀ g, groups'.find g = visitedGroup k gi groups g) :
    ofTest T groups' = ofTest T groups := by
  apply OrderedMap.ext_find
  intro g
  rw [find_ofTest, find_ofTest]
  split_ifs with hg
  · rw [hvisit, visitedGroup_of_test_ne (by rw [hg]; exact hT.symm)]
  · rfl

theorem visitGroup_ofTest (hinv : Trace.GroupInvariant ⟨groups⟩) (hT : k.testName = T)
    (hvisit : ∀ g, groups'.find g = visitedGroup k gi groups g) :
    visitGroup (ofTest T groups) (k, gi) = some (ofTest T groups') := by
  obtain ⟨groups'', hrun, hvisit'⟩ := visitGroup_spec (ofTest_groupInvariant (T := T) hinv) k gi
  rw [hrun]
  congr 1
  apply OrderedMap.ext_find
  intro g
  rw [hvisit', find_ofTest, hvisit]
  by_cases hg : g.testName = T
  · rw [if_pos hg, visitedGroup, visitedGroup, find_ofTest, if_pos hg]
  · rw [if_neg hg, visitedGroup_of_test_ne (by rw [hT]; exact hg), find_ofTest, if_neg hg]

theorem visitAll_mono :
    ∀ {fuel fuel' : Nat} {groups : FileGroups} {visited : Option FileGroupID},
      visitAll fuel groups visited = some groups' → fuel ≤ fuel' →
      visitAll fuel' groups visited = some groups'
  | fuel, fuel', groups, visited, hrun, hle => by
      unfold visitAll at hrun ⊢
      cases hnext : groups.nextAfter visited with
      | none =>
        rw [hnext] at hrun
        exact hrun
      | some group =>
        rw [hnext] at hrun
        cases fuel with
        | zero => cases hrun
        | succ fuel =>
          cases fuel' with
          | zero => omega
          | succ fuel' =>
            obtain ⟨groups1, hvisit, hrest⟩ := Option.bind_eq_some_iff.mp hrun
            simp only [hvisit, Option.bind_some]
            exact visitAll_mono hrest (by omega)

/-- The traversal of all groups and the one of the groups of `T` have come equally far. -/
def Aligned (T : Str) (groups : FileGroups) (visited visited' : Option FileGroupID) : Prop :=
  ∀ g gi, (ofTest T groups).find g = some gi →
    (OrderedMap.Beyond visited g ↔ OrderedMap.Beyond visited' g)

theorem visitAll_ofTest (T : Str) :
    ∀ {fuel : Nat} {groups result : FileGroups} {visited visited' : Option FileGroupID},
      Trace.GroupInvariant ⟨groups⟩ → Aligned T groups visited visited' →
      visitAll fuel groups visited = some result →
      visitAll fuel (ofTest T groups) visited' = some (ofTest T result)
  | fuel, groups, result, visited, visited', hinv, halign, hrun => by
      unfold visitAll at hrun
      cases hnext : groups.nextAfter visited with
      | none =>
        rw [hnext] at hrun
        cases hrun
        have hnext' : (ofTest T groups).nextAfter visited' = none := by
          apply OrderedMap.nextAfter_none_of
          intro g gi hg hbeyond
          exact OrderedMap.nextAfter_eq_none hnext (find_ofTest_eq_some.mp hg).2
            ((halign g gi hg).mpr hbeyond)
        rw [visitAll, hnext']
      | some group =>
        obtain ⟨k, gi⟩ := group
        rw [hnext] at hrun
        cases fuel with
        | zero => cases hrun
        | succ fuel =>
          obtain ⟨groups1, hvisitRun, hrest⟩ := Option.bind_eq_some_iff.mp hrun
          obtain ⟨groups2, hvisitRun', hvisit⟩ := visitGroup_spec hinv k gi
          rw [hvisitRun] at hvisitRun'
          cases hvisitRun'
          obtain ⟨hk, hbeyond, hleast⟩ := OrderedMap.nextAfter_eq_some hnext
          have hinv1 := visit_groupInvariant hinv hk hvisit
          by_cases hT : k.testName = T
          · have hnext' : (ofTest T groups).nextAfter visited' = some (k, gi) := by
              have hk' := find_ofTest_eq_some.mpr ⟨hT, hk⟩
              refine OrderedMap.nextAfter_of_least hk' ((halign k gi hk').mp hbeyond) ?_
              intro g gi' hg hafter
              exact hleast g gi' (find_ofTest_eq_some.mp hg).2 ((halign g gi' hg).mpr hafter)
            have hstep := visitGroup_ofTest hinv hT hvisit
            rw [visitAll, hnext']
            simp only [hstep, Option.bind_some]
            exact visitAll_ofTest T hinv1 (fun _ _ _ => Iff.rfl) hrest
          · -- the other traversal waits: no group of `T` lies between
            have hsame := ofTest_visit_of_ne hT hvisit
            have halign1 : Aligned T groups1 (some k) visited' := by
              intro g gi' hg
              rw [hsame] at hg
              rw [← halign g gi' hg]
              obtain ⟨hgT, hg⟩ := find_ofTest_eq_some.mp hg
              constructor
              · intro hafter a ha
                exact (hbeyond a ha).trans (hafter k rfl)
              · rintro hafter _ ⟨⟩
                refine lt_of_le_of_ne (hleast g gi' hg hafter) ?_
                rintro rfl
                exact hT hgT
            rw [← hsame]
            exact visitAll_mono (visitAll_ofTest T hinv1 halign1 hrest) (Nat.le_succ fuel)

theorem visit_of_grouped (hgrouped : Trace.Grouped ⟨groups⟩) (hk : groups.find k = some gi)
    (hvisit : ∀ g, groups'.find g = visitedGroup k gi groups g) :
    groups' = groups := by
  have honly := hgrouped.find_isSome_iff hk
  apply OrderedMap.ext_find
  intro g
  rw [hvisit]
  by_cases hne : g = k
  · subst hne
    have heq : ownFile g gi = gi := by
      refine congrArg FileGroupInfo.mk (OrderedMap.ext_find ?_)
      intro f
      change (ownFile g gi).files.find f = gi.files.find f
      rw [find_ownFile]
      split_ifs with hf
      · rfl
      · rw [eq_comm, ← Option.not_isSome_iff_eq_none, honly]
        exact hf
    rw [visitedGroup, if_pos rfl, hk, heq]
  · rcases visitedGroup_cases gi groups hne with ⟨fi, -, hname, hfi, -⟩ | ⟨-, heq⟩
    · exact absurd ((honly g.filename).mp (by simp [hfi])) hname
    · exact heq

/-- The sum of the counters of an object that is listed at least once. -/
def sumCounters (cs : List Int) : Option Int :=
  if cs = [] then none else some cs.sum

/-- A counter in the monoid where an absent counter is neutral. -/
def toSum (c : Option Int) : WithZero Int :=
  c.elim 0 fun c => (c : WithZero Int)

theorem toSum_injective : Function.Injective toSum := by
  intro c c' h
  cases c <;> cases c' <;> simp_all [toSum]

theorem sum_toSum {α : Type*} (h : α → Option Int) :
    ∀ l : List α, (l.map fun a => toSum (h a)).sum = toSum (sumCounters (l.filterMap h))
  | [] => rfl
  | a :: l => by
      have ih := sum_toSum h l
      rw [List.map_cons, List.sum_cons, ih]
      cases ha : h a with
      | none => rw [List.filterMap_cons_none ha, toSum, Option.elim_none, zero_add]
      | some c =>
        rw [List.filterMap_cons_some ha]
        by_cases hl : l.filterMap h = []
        · simp [toSum, sumCounters, hl]
        · simp [toSum, sumCounters, hl, WithZero.coe_add]

theorem toSum_combine {K V : Type*} [LinearOrder K] {f : V → V → V} (value : V → Int)
    (hf : ∀ v v', value (f v v') = value v + value v') (m m' : OrderedMap K V) (k : K) :
    toSum (((m.combine f m').find k).map value) =
      toSum ((m.find k).map value) + toSum ((m'.find k).map value) := by
  rw [OrderedMap.find_combine]
  cases m.find k <;> cases m'.find k <;> simp [toSum, hf, WithZero.coe_add]

end FilesGrouper

open FilesGrouper

def Trace.ofTest (t : Trace) (T : Str) : Trace :=
  ⟨FilesGrouper.ofTest T t.fileGroups⟩

/-- What the files named `F` hold of an object, over the groups of the test `T`. -/
def Trace.countersOf (t : Trace) (T F : Str) (counter : FileInfo → Option Int) : List Int :=
  t.fileGroups.entries.filterMap fun e =>
    if e.1.testName = T then (e.2.files.find F).bind counter else none

def Trace.lineCounters (t : Trace) (T F : Str) (line : Int) : List Int :=
  t.countersOf T F fun fi => fi.lines.find line

def Trace.functionCounters (t : Trace) (T F name : Str) : List Int :=
  t.countersOf T F fun fi => (fi.functions.find name).map FuncInfo.counter

theorem total_eq_countersOf (t : Trace) (T F : Str) (counter : FileInfo → Option Int) :
    total (fun fi => toSum (counter fi)) T F t.fileGroups =
      toSum (sumCounters (t.countersOf T F counter)) := by
  rw [Trace.countersOf, ← sum_toSum, total, OrderedMap.sumOver]
  congr 1
  apply List.map_congr_left
  rintro ⟨g, gi⟩ -
  dsimp only
  split_ifs with hT
  · cases gi.files.find F <;> rfl
  · rfl

variable {t t' : Trace}

section

variable (hinv : t.GroupInvariant)
include hinv

theorem groupFiles_sum {counter : FileInfo → Option Int}
    (hadd : ∀ a b, toSum (counter (CombineFile.addFile a b)) =
      toSum (counter a) + toSum (counter b)) (T F : Str) (hrun : t.groupFiles = some t') :
    (t'.fileOf ⟨T, F⟩ F).bind counter = sumCounters (t.countersOf T F counter) := by
  obtain ⟨t'', _, hrun', hgrouped, htotal⟩ := groupFiles_induction hinv
    (P := fun groups _ => total (fun fi => toSum (counter fi)) T F groups =
      total (fun fi => toSum (counter fi)) T F t.fileGroups)
    rfl
    (fun groups groups' visited k gi hP hnext hvisit =>
      (visit_total hadd T F (OrderedMap.nextAfter_eq_some hnext).1 hvisit).trans hP)
  rw [hrun] at hrun'
  cases hrun'
  apply toSum_injective
  rw [← total_eq_countersOf, ← htotal, total_of_grouped hgrouped]
  cases t'.fileOf ⟨T, F⟩ F <;> rfl

theorem groupFiles_lineOf (hrun : t.groupFiles = some t') (T F : Str)
    (line : Int) :
    t'.lineOf ⟨T, F⟩ F line = sumCounters (t.lineCounters T F line) := by
  refine groupFiles_sum hinv ?_ T F hrun
  intro a b
  have h := toSum_combine id (f := (· + ·)) (fun _ _ => rfl) a.lines b.lines line
  simpa [CombineFile.addFile] using h

theorem groupFiles_funcOf (hrun : t.groupFiles = some t')
    (T F name : Str) :
    (t'.funcOf ⟨T, F⟩ F name).map FuncInfo.counter =
      sumCounters (t.functionCounters T F name) := by
  rw [Trace.funcOf, Option.map_bind]
  refine groupFiles_sum hinv ?_ T F hrun
  intro a b
  exact toSum_combine FuncInfo.counter (fun _ _ => rfl) a.functions b.functions name

/-- The traversal ends, and then every file stands in its own group. -/
theorem groupFiles_spec : ∃ t', t.groupFiles = some t' ∧ t'.Grouped := by
  obtain ⟨t', _, hrun, hgrouped, -⟩ := groupFiles_induction hinv (P := fun _ _ => True) trivial
    (fun _ _ _ _ _ _ _ _ => trivial)
  exact ⟨t', hrun, hgrouped⟩

theorem groupFiles_ofTest (hrun : t.groupFiles = some t') (T : Str) :
    (t.ofTest T).groupFiles = some (t'.ofTest T) := by
  obtain ⟨groups', hvisit, rfl⟩ := Option.map_eq_some_iff.mp hrun
  obtain ⟨t'', hrun', -⟩ := groupFiles_spec (ofTest_groupInvariant (T := T) hinv)
  obtain ⟨groups'', hvisit', rfl⟩ := Option.map_eq_some_iff.mp hrun'
  have halone := visitAll_ofTest T hinv (fun _ _ _ => Iff.rfl) hvisit
  -- the two runs have different bounds on the number of visits
  have h := visitAll_mono halone (le_max_left _ (candidates (ofTest T t.fileGroups)).length)
  have h' := visitAll_mono hvisit' (le_max_right (candidates t.fileGroups).length _)
  rw [h] at h'
  cases h'
  exact hrun'

end

theorem groupFiles_of_grouped (ht : t.Grouped) : t.groupFiles = some t := by
  obtain ⟨t', _, hrun, -, heq⟩ := groupFiles_induction ht.groupInvariant
    (P := fun groups _ => groups = t.fileGroups) rfl
    (fun groups groups' visited k gi hP hnext hvisit => by
      subst hP
      exact visit_of_grouped ht (OrderedMap.nextAfter_eq_some hnext).1 hvisit)
  rw [hrun]
  cases t'
  cases heq
  rfl

/--
`groupFiles` conserves the line and function counters of every test: they are
gathered in the group of the file, and nowhere else.  What happens to the groups
of a test does not depend on the other tests, and a second call has no effect.
-/
theorem groupFiles_conserves
    (t : Trace) (hinv : t.GroupInvariant) :
    ∃ t', t.groupFiles = some t' ∧ t'.Grouped ∧
      (∀ T F line, t'.lineOf ⟨T, F⟩ F line = sumCounters (t.lineCounters T F line)) ∧
      (∀ T F name, (t'.funcOf ⟨T, F⟩ F name).map FuncInfo.counter =
        sumCounters (t.functionCounters T F name)) ∧
      (∀ T, (t.ofTest T).groupFiles = some (t'.ofTest T)) ∧
      t'.groupFiles = some t' := by
  obtain ⟨t', hrun, hgrouped⟩ := groupFiles_spec hinv
  exact ⟨t', hrun, hgrouped, groupFiles_lineOf hinv hrun, groupFiles_funcOf hinv hrun,
    groupFiles_ofTest hinv hrun, groupFiles_of_grouped hgrouped⟩

def sharedHeaderTrace : Trace :=
  let header (counter : Int) : FileInfo :=
    { FileInfo.empty with
      lines := OrderedMap.empty.set 7 counter
      functions := OrderedMap.empty.set "f".toList ⟨5, counter⟩ }
  let group (name : String) (counter : Int) : FileGroupInfo :=
    ⟨(OrderedMap.empty.set name.toList FileInfo.empty).set "/h.h".toList (header counter)⟩
  ⟨(OrderedMap.empty.set ⟨[], "/a.c".toList⟩ (group "/a.c" 2)).set
    ⟨[], "/z.c".toList⟩ (group "/z.c" 3)⟩

/-- A line of a header that two groups have: the counters are added. -/
theorem groupFiles_conserves_sharedHeader :
    sharedHeaderTrace.GroupInvariant ∧
      ∃ t', sharedHeaderTrace.groupFiles = some t' ∧
        t'.lineOf ⟨[], "/h.h".toList⟩ "/h.h".toList 7 = some 5 := by
  have hinv : sharedHeaderTrace.GroupInvariant :=
    Trace.groupInvariant_of_entries (by decide +kernel)
  obtain ⟨t', hrun, -, hlines, -⟩ := groupFiles_conserves sharedHeaderTrace hinv
  refine ⟨hinv, t', hrun, ?_⟩
  rw [hlines]
  decide +kernel

end Coverage
end KedrAux
