import KedrAux.Coverage.FilesGrouper
import KedrAux.Coverage.TraceReader

/-!
# Branch counters of grouped files

`combineBranchCounter` merges the counters of a branch one after another, first the
counter of the group that is named after the file, then those of the other groups in
their order.  The value `-1` stands for `-`.  A positive counter that meets a `-` is
assigned and then added once more, so the order of the groups matters.
-/

namespace KedrAux
namespace Coverage

namespace CombineFile

def nonnegSum (cs : List Int) : Int :=
  (cs.filter fun c => decide (0 ≤ c)).sum

@[simp] theorem nonnegSum_nil : nonnegSum [] = 0 :=
  rfl

@[simp] theorem nonnegSum_cons (c : Int) (cs : List Int) :
    nonnegSum (c :: cs) = max c 0 + nonnegSum cs := by
  unfold nonnegSum
  by_cases hc : 0 ≤ c
  · rw [List.filter_cons_of_pos (by simpa using hc), List.sum_cons, max_eq_left hc]
  · rw [List.filter_cons_of_neg (by simpa using hc), max_eq_right (by omega), zero_add]

@[simp] theorem nonnegSum_append (cs ds : List Int) :
    nonnegSum (cs ++ ds) = nonnegSum cs + nonnegSum ds := by
  simp [nonnegSum]

theorem nonnegSum_nonneg (cs : List Int) : 0 ≤ nonnegSum cs := by
  apply List.sum_nonneg
  intro c hc
  simpa using (List.mem_filter.mp hc).2

variable {c s : Int}

theorem combineBranchCounter_of_ne {d : Int} (hc : c ≠ -1) :
    combineBranchCounter c d = c + max d 0 := by
  simp only [combineBranchCounter, if_neg hc]
  split_ifs <;> omega

theorem combineBranchCounter_dash (d : Int) :
    combineBranchCounter (-1) d = if 0 < d then 2 * d else d := by
  simp only [combineBranchCounter]
  split_ifs <;> omega

theorem foldl_combine_of_nonneg (hc : 0 ≤ c) (cs : List Int) :
    cs.foldl combineBranchCounter c = c + nonnegSum cs := by
  induction cs generalizing c with
  | nil => simp
  | cons d cs ih =>
    rw [List.foldl_cons, combineBranchCounter_of_ne (by omega), ih (by omega), nonnegSum_cons]
    omega

theorem foldl_combine_of_below {cs : List Int} (h : c + nonnegSum cs < -1) :
    cs.foldl combineBranchCounter c = c + nonnegSum cs := by
  induction cs generalizing c with
  | nil => simp
  | cons d cs ih =>
    rw [nonnegSum_cons] at h
    have hcs := nonnegSum_nonneg cs
    rw [List.foldl_cons, combineBranchCounter_of_ne (by omega), ih (by omega), nonnegSum_cons]
    omega

/-- The counters `ds` and then `d` bring a counter below `-` up to exactly `-`. -/
def Reaches (c : Int) (ds : List Int) (d : Int) : Prop :=
  c < -1 ∧ 0 < d ∧ c + nonnegSum ds + d = -1

theorem foldl_combine_of_reaches {d : Int} {ds : List Int} (h : Reaches c ds d) (cs : List Int) :
    (ds ++ d :: cs).foldl combineBranchCounter c = cs.foldl combineBranchCounter (-1) := by
  obtain ⟨-, hd, hsum⟩ := h
  have hds : ds.foldl combineBranchCounter c = c + nonnegSum ds :=
    foldl_combine_of_below (by omega)
  rw [List.foldl_append, hds, List.foldl_cons, combineBranchCounter_of_ne (by omega),
    max_eq_left hd.le, hsum]

/-- A counter below `-` is brought up to `-`, or all counters are added to it. -/
theorem foldl_combine_below_cases (hc : c < -1) (cs : List Int) :
    (∃ ds d rest, cs = ds ++ d :: rest ∧ Reaches c ds d) ∨
      cs.foldl combineBranchCounter c = c + nonnegSum cs := by
  induction cs generalizing c with
  | nil => exact Or.inr (by simp)
  | cons e cs ih =>
    rw [List.foldl_cons, combineBranchCounter_of_ne (by omega), nonnegSum_cons]
    rcases lt_trichotomy (c + max e 0) (-1) with hlt | heq | hgt
    · rcases ih hlt with ⟨ds, d, rest, rfl, -, hd, hsum⟩ | hfold
      · left
        refine ⟨e :: ds, d, rest, rfl, hc, hd, ?_⟩
        rw [nonnegSum_cons]
        omega
      · right
        rw [hfold]
        omega
    · left
      refine ⟨[], e, cs, rfl, hc, by omega, ?_⟩
      rw [nonnegSum_nil]
      omega
    · right
      rw [foldl_combine_of_nonneg (by omega)]
      omega

/--
The counters `cs`, merged into a `-`, complete the sum `s` of the positive counters
before: there is no counter left but `-` when nothing was counted, or the first other
one is the neutral `0`, or the counter that is taken twice makes up for those that were
lost below `-`.
-/
inductive Completes : Int → List Int → Prop
  | nil : Completes 0 []
  | dash {s : Int} {cs : List Int} : Completes s cs → Completes s (-1 :: cs)
  | zero (cs : List Int) : Completes 0 (0 :: cs)
  | twice {s : Int} (cs : List Int) : 0 < s → Completes s (s :: cs)
  | lost {s c d : Int} {ds cs : List Int} : Reaches c ds d →
      Completes (s + nonnegSum ds + d) cs → Completes s (c :: (ds ++ d :: cs))

/-- What the counters should give together with the sum `s` of those before. -/
def expectedFrom (s : Int) (cs : List Int) : Int :=
  if s = 0 ∧ ∀ c ∈ cs, c = -1 then -1 else s + nonnegSum cs

theorem expectedFrom_of_ne (hs : s ≠ 0) (cs : List Int) : expectedFrom s cs = s + nonnegSum cs :=
  if_neg fun h => hs h.1

theorem expectedFrom_cons_of_ne (hc : c ≠ -1) (cs : List Int) :
    expectedFrom s (c :: cs) = s + nonnegSum (c :: cs) :=
  if_neg fun h => hc (h.2 c List.mem_cons_self)

theorem expectedFrom_cons_dash (s : Int) (cs : List Int) :
    expectedFrom s (-1 :: cs) = expectedFrom s cs := by
  unfold expectedFrom
  rw [nonnegSum_cons]
  simp

/-- Merging into a `-` gives what it should exactly when the counters complete the sum. -/
theorem foldl_combine_dash_iff (hs : 0 ≤ s) (cs : List Int) :
    cs.foldl combineBranchCounter (-1) = expectedFrom s cs ↔ Completes s cs := by
  induction hn : cs.length using Nat.strongRecOn generalizing s cs with
  | ind n ih =>
  subst hn
  cases cs with
  | nil =>
    constructor
    · intro h
      have hzero : s = 0 := by
        by_contra hne
        rw [expectedFrom_of_ne hne] at h
        simp only [List.foldl_nil, nonnegSum_nil] at h
        omega
      rw [hzero]
      exact Completes.nil
    · rintro ⟨⟩
      simp [expectedFrom]
  | cons c cs =>
    rw [List.foldl_cons, combineBranchCounter_dash]
    rcases lt_trichotomy c (-1) with hlt | rfl | hgt
    · rw [if_neg (by omega), expectedFrom_cons_of_ne (by omega), nonnegSum_cons,
        max_eq_right (by omega), zero_add]
      constructor
      · intro h
        rcases foldl_combine_below_cases hlt cs with
          ⟨ds, d, rest, rfl, hreach⟩ | hfold
        · have hds := nonnegSum_nonneg ds
          have hd := hreach.2.1
          refine Completes.lost hreach ((ih _ ?_ (by omega) rest rfl).mp ?_)
          · simp only [List.length_cons, List.length_append]
            omega
          · rw [foldl_combine_of_reaches hreach, nonnegSum_append, nonnegSum_cons,
              max_eq_left hd.le] at h
            rw [h, expectedFrom_of_ne (by omega)]
            omega
        · omega
      · intro h
        cases h with
        | dash _ => omega
        | zero _ => omega
        | twice _ hpos => omega
        | @lost _ _ d ds rest hreach hrest =>
          have hds := nonnegSum_nonneg ds
          have hd := hreach.2.1
          have hlen : rest.length < (c :: (ds ++ d :: rest)).length := by
            simp only [List.length_cons, List.length_append]
            omega
          have hfold := (ih _ hlen (by omega) rest rfl).mpr hrest
          rw [foldl_combine_of_reaches hreach, hfold, expectedFrom_of_ne (by omega),
            nonnegSum_append, nonnegSum_cons, max_eq_left hd.le]
          omega
    · rw [if_neg (by omega), expectedFrom_cons_dash, ih cs.length (by simp) hs cs rfl]
      constructor
      · exact Completes.dash
      · intro h
        cases h with
        | dash h => exact h
        | twice _ hpos => omega
        | lost hreach _ => exact absurd hreach.1 (lt_irrefl _)
    · rw [expectedFrom_cons_of_ne (by omega), nonnegSum_cons, max_eq_left (by omega),
        foldl_combine_of_nonneg (by split_ifs <;> omega)]
      constructor
      · intro h
        split_ifs at h with hpos
        · obtain rfl : c = s := by omega
          exact Completes.twice cs hpos
        · obtain rfl : c = 0 := by omega
          obtain rfl : s = 0 := by omega
          exact Completes.zero cs
      · intro h
        cases h with
        | dash _ => omega
        | zero _ => simp
        | twice _ hpos =>
          rw [if_pos hpos]
          omega
        | lost hreach _ =>
          have := hreach.1
          omega

/-- The counter of a branch in a file to which another file is added. -/
def combineOption : Option Int → Option Int → Option Int
  | none, d => d
  | some c, none => some c
  | some c, some d => some (combineBranchCounter c d)

/-- The counter that comes out when the counters are merged in their order. -/
def mergeCounters : List Int → Option Int
  | [] => none
  | c :: cs => some (cs.foldl combineBranchCounter c)

theorem mergeCounters_combineOption (c d : Option Int) (cs : List Int) :
    mergeCounters ((combineOption c d).toList ++ cs) =
    mergeCounters (c.toList ++ (d.toList ++ cs)) := by
  cases c <;> cases d <;> rfl

/-- `-` for a branch with `-` only, otherwise the sum of the other counters. -/
def expectedCounter (cs : List Int) : Option Int :=
  if cs = [] then none else some (expectedFrom 0 cs)

/-- The first counter is a number, or the counters complete the sum `0`. -/
def MergesWell (cs : List Int) : Prop :=
  (∃ c rest, cs = c :: rest ∧ 0 ≤ c) ∨ Completes 0 cs

theorem mergeCounters_iff (cs : List Int) :
    mergeCounters cs = expectedCounter cs ↔ MergesWell cs := by
  cases cs with
  | nil => exact ⟨fun _ => Or.inr Completes.nil, fun _ => rfl⟩
  | cons c rest =>
    have hexpected : expectedCounter (c :: rest) = some (expectedFrom 0 (c :: rest)) :=
      if_neg (by simp)
    rw [hexpected, mergeCounters, Option.some.injEq]
    by_cases hc : 0 ≤ c
    · have hwell : MergesWell (c :: rest) := Or.inl ⟨c, rest, rfl, hc⟩
      rw [foldl_combine_of_nonneg hc, expectedFrom_cons_of_ne (by omega), nonnegSum_cons,
        max_eq_left hc, zero_add]
      exact iff_of_true rfl hwell
    · have hdash : (c :: rest).foldl combineBranchCounter (-1) =
          rest.foldl combineBranchCounter c := by
        rw [List.foldl_cons, combineBranchCounter_dash, if_neg (by omega)]
      rw [← hdash, foldl_combine_dash_iff le_rfl]
      constructor
      · exact Or.inr
      · rintro (⟨c', rest', heq, hc'⟩ | h)
        · obtain ⟨rfl, -⟩ := List.cons.inj heq
          exact absurd hc' hc
        · exact h

end CombineFile

namespace FilesGrouper

open CombineFile

/-- The counter of the branch `b` of the file `F` in a group of the test `T`. -/
def counterIn (T F : Str) (b : BranchID) (g : FileGroupID) (gi : Option FileGroupInfo) :
    Option Int :=
  gi.bind fun gi =>
    if g.testName = T then (gi.files.find F).bind fun fi => fi.branches.find b else none

theorem toSum_counterIn (T F : Str) (b : BranchID) (g : FileGroupID) (gi : Option FileGroupInfo) :
    toSum (counterIn T F b g gi) =
      share (fun fi => toSum (fi.branches.find b)) T F g gi := by
  unfold counterIn share
  cases gi with
  | none => rfl
  | some gi =>
    simp only [Option.bind_some, Option.elim_some]
    split_ifs
    · cases gi.files.find F <;> rfl
    · rfl

def otherCounters (T F : Str) (b : BranchID) (groups : FileGroups) :
    OrderedMap FileGroupID Int :=
  groups.filterMapVal fun g gi => if g ≠ ⟨T, F⟩ then counterIn T F b g (some gi) else none

/-- The counters of a branch in the order in which they are merged. -/
def branchCounters (T F : Str) (b : BranchID) (groups : FileGroups) : List Int :=
  (counterIn T F b ⟨T, F⟩ (groups.find ⟨T, F⟩)).toList ++
    (otherCounters T F b groups).entries.map Prod.snd

theorem find_otherCounters (T F : Str) (b : BranchID) (groups : FileGroups) (g : FileGroupID) :
    (otherCounters T F b groups).find g =
      if g ≠ ⟨T, F⟩ then counterIn T F b g (groups.find g) else none := by
  rw [otherCounters, OrderedMap.find_filterMapVal]
  cases groups.find g with
  | none => simp [counterIn]
  | some gi => rfl

variable {T F : Str} {k g : FileGroupID} {gi : FileGroupInfo} {groups groups' : FileGroups}
variable {b : BranchID} {visited : Option FileGroupID}

theorem counterIn_visitedGroup (b : BranchID) (hk : groups.find k = some gi)
    (h : g ≠ k ∨ F = k.filename) (h' : g ≠ ⟨T, F⟩ ∨ F = k.filename) :
    counterIn T F b g (visitedGroup k gi groups g) = counterIn T F b g (groups.find g) := by
  apply toSum_injective
  rw [toSum_counterIn, toSum_counterIn]
  exact share_visitedGroup hk h h'

theorem counterIn_of_test_ne (h : g.testName ≠ T) (gi : Option FileGroupInfo) :
    counterIn T F b g gi = none := by
  cases gi <;> simp [counterIn, h]

theorem counterIn_ownFile (hF : F ≠ k.filename) (gi : FileGroupInfo) :
    counterIn T F b k (some (ownFile k gi)) = none := by
  simp [counterIn, find_ownFile, hF]

theorem find_branches_addFile (a c : FileInfo) (b : BranchID) :
    (addFile a c).branches.find b = combineOption (a.branches.find b) (c.branches.find b) := by
  simp only [addFile, OrderedMap.find_combine]
  cases a.branches.find b <;> cases c.branches.find b <;> rfl

theorem counterIn_targetGroup
    (T F : Str) (b : BranchID) (gi : Option FileGroupInfo) (fi : FileInfo) :
    counterIn T F b ⟨T, F⟩ (some (targetGroup gi (F, fi))) =
      combineOption (counterIn T F b ⟨T, F⟩ gi) (fi.branches.find b) := by
  cases gi with
  | none => simp [counterIn, targetGroup, combineOption]
  | some gi =>
    cases hdest : gi.files.find F with
    | none => simp [counterIn, targetGroup, hdest, combineOption]
    | some dest => simp [counterIn, targetGroup, hdest, find_branches_addFile]

theorem counterIn_some {c : Int} (h : counterIn T F b g (some gi) = some c) :
    g.testName = T ∧ (gi.files.find F).isSome := by
  rw [counterIn, Option.bind_some] at h
  split_ifs at h with hT
  obtain ⟨fi, hfi, -⟩ := Option.bind_eq_some_iff.mp h
  exact ⟨hT, Option.isSome_iff_exists.mpr ⟨fi, hfi⟩⟩

theorem beyond_of_otherCounters (hgrouped : VisitedGrouped groups visited) {c : Int}
    (h : (otherCounters T F b groups).find g = some c) :
    (∃ gi, groups.find g = some gi) ∧ OrderedMap.Beyond visited g := by
  rw [find_otherCounters] at h
  split_ifs at h with hne
  cases hg : groups.find g with
  | none => simp [hg, counterIn] at h
  | some gi =>
    rw [hg] at h
    obtain ⟨rfl, hF⟩ := counterIn_some h
    refine ⟨⟨gi, rfl⟩, ?_⟩
    by_contra hvisited
    have hname := hgrouped g gi F hg hvisited hF
    exact hne (by rw [hname])

theorem visit_ownCounter (b : BranchID) (hF : F ≠ k.filename)
    (hvisit : ∀ g, groups'.find g = visitedGroup k gi groups g) :
    counterIn k.testName F b ⟨k.testName, F⟩ (groups'.find ⟨k.testName, F⟩) =
      combineOption (counterIn k.testName F b ⟨k.testName, F⟩ (groups.find ⟨k.testName, F⟩))
        (counterIn k.testName F b k (some gi)) := by
  have hne : (⟨k.testName, F⟩ : FileGroupID) ≠ k := targetID_ne hF
  rw [hvisit]
  rcases visitedGroup_cases gi groups hne with ⟨fi, -, -, hfi, heq⟩ | ⟨hnone, heq⟩
  · rw [heq, counterIn_targetGroup]
    congr 1
    simp [counterIn, show gi.files.find F = some fi from hfi]
  · have hfi : gi.files.find F = none := hnone rfl
    rw [heq]
    simp only [counterIn, Option.bind_some, if_true, hfi, Option.bind_none]
    cases (groups.find ⟨k.testName, F⟩).bind _ <;> rfl

theorem visit_otherCounters (b : BranchID) (hF : F ≠ k.filename)
    (hgrouped : VisitedGrouped groups visited) (hnext : groups.nextAfter visited = some (k, gi))
    (hvisit : ∀ g, groups'.find g = visitedGroup k gi groups g) :
    (otherCounters k.testName F b groups).entries.map Prod.snd =
      (counterIn k.testName F b k (some gi)).toList ++
        (otherCounters k.testName F b groups').entries.map Prod.snd := by
  obtain ⟨hk, -, hleast⟩ := OrderedMap.nextAfter_eq_some hnext
  have hne : k ≠ ⟨k.testName, F⟩ := (targetID_ne hF).symm
  have hself : (otherCounters k.testName F b groups).find k =
      counterIn k.testName F b k (some gi) := by
    rw [find_otherCounters, if_pos hne, hk]
  have hgone : (otherCounters k.testName F b groups').find k = none := by
    rw [find_otherCounters, if_pos hne, hvisit, visitedGroup, if_pos rfl, counterIn_ownFile hF]
  have hother : ∀ g, g ≠ k → (otherCounters k.testName F b groups).find g =
      (otherCounters k.testName F b groups').find g := by
    intro g hgk
    rw [find_otherCounters, find_otherCounters]
    split_ifs with hg
    · rw [hvisit, counterIn_visitedGroup b hk (Or.inl hgk) (Or.inl hg)]
    · rfl
  cases hc : counterIn k.testName F b k (some gi) with
  | none =>
    have heq : otherCounters k.testName F b groups = otherCounters k.testName F b groups' := by
      apply OrderedMap.ext_find
      intro g
      by_cases hgk : g = k
      · rw [hgk, hself, hgone, hc]
      · exact hother g hgk
    rw [heq]
    rfl
  | some c =>
    have hentries := OrderedMap.entries_eq_cons (hself.trans hc) (fun g c' hg => by
      have hgk : g ≠ k := by
        rintro rfl
        rw [hgone] at hg
        cases hg
      rw [← hother g hgk] at hg
      obtain ⟨⟨gi', hgi'⟩, hbeyond⟩ := beyond_of_otherCounters hgrouped hg
      exact lt_of_le_of_ne (hleast g gi' hgi' hbeyond) (Ne.symm hgk)) hother
    rw [hentries]
    rfl

theorem visit_mergeCounters (T F : Str) (b : BranchID) (hgrouped : VisitedGrouped groups visited)
    (hnext : groups.nextAfter visited = some (k, gi))
    (hvisit : ∀ g, groups'.find g = visitedGroup k gi groups g) :
    mergeCounters (branchCounters T F b groups') = mergeCounters (branchCounters T F b groups) := by
  have hk := (OrderedMap.nextAfter_eq_some hnext).1
  by_cases hsame : T = k.testName ∧ F ≠ k.filename
  · obtain ⟨rfl, hF⟩ := hsame
    rw [branchCounters, branchCounters, visit_ownCounter b hF hvisit,
      visit_otherCounters b hF hgrouped hnext hvisit, mergeCounters_combineOption]
  · have hall : ∀ g, counterIn T F b g (groups'.find g) = counterIn T F b g (groups.find g) := by
      intro g
      rw [hvisit]
      by_cases hF : F = k.filename
      · exact counterIn_visitedGroup b hk (Or.inr hF) (Or.inr hF)
      · by_cases hT : g.testName = T
        · have htest : g.testName ≠ k.testName := by
            rw [hT]
            exact fun heq => hsame ⟨heq, hF⟩
          rw [visitedGroup_of_test_ne htest]
        · rw [counterIn_of_test_ne hT, counterIn_of_test_ne hT]
    have hother : otherCounters T F b groups' = otherCounters T F b groups := by
      apply OrderedMap.ext_find
      intro g
      rw [find_otherCounters, find_otherCounters, hall]
    rw [branchCounters, branchCounters, hall, hother]

theorem branchCounters_of_grouped {t : Trace} (ht : t.Grouped) (T F : Str) (b : BranchID) :
    branchCounters T F b t.fileGroups = (t.branchOf ⟨T, F⟩ F b).toList := by
  have hnone : otherCounters T F b t.fileGroups = OrderedMap.empty := by
    apply OrderedMap.ext_find
    intro g
    rw [OrderedMap.find_empty]
    cases hg : (otherCounters T F b t.fileGroups).find g with
    | none => rfl
    | some c =>
      rw [find_otherCounters] at hg
      split_ifs at hg with hne
      cases hgi : t.fileGroups.find g with
      | none => simp [hgi, counterIn] at hg
      | some gi =>
        rw [hgi] at hg
        obtain ⟨rfl, hF⟩ := counterIn_some hg
        have hname := (ht.find_isSome_iff hgi F).mp hF
        exact absurd (by rw [hname]) hne
  have hown : counterIn T F b ⟨T, F⟩ (t.fileGroups.find ⟨T, F⟩) = t.branchOf ⟨T, F⟩ F b := by
    rw [Trace.branchOf, Trace.fileOf, counterIn]
    cases t.fileGroups.find ⟨T, F⟩ <;> simp
  rw [branchCounters, hnone, hown]
  exact List.append_nil _

end FilesGrouper

open FilesGrouper CombineFile

theorem groupFiles_branchOf {t : Trace} (hinv : t.GroupInvariant) :
    ∃ t', t.groupFiles = some t' ∧
      ∀ T F b, t'.branchOf ⟨T, F⟩ F b = mergeCounters (branchCounters T F b t.fileGroups) := by
  obtain ⟨groups', visited, hrun, hend, hinv', hP⟩ := visitAll_induction
    (P := fun groups _ => ∀ T F b, mergeCounters (branchCounters T F b groups) =
      mergeCounters (branchCounters T F b t.fileGroups))
    (fun groups groups' visited k gi htraversal hmerge hnext hvisit T F b =>
      (visit_mergeCounters T F b htraversal.grouped hnext hvisit).trans (hmerge T F b))
    (candidates t.fileGroups).length t.fileGroups none (traversalInvariant_start hinv)
    (fun _ _ _ => rfl) (remaining_le _ _)
  refine ⟨⟨groups'⟩, by simp [Trace.groupFiles, hrun], ?_⟩
  intro T F b
  have hgrouped : (Trace.mk groups').Grouped := hinv'.groupedAtEnd hend
  have hmerged := branchCounters_of_grouped hgrouped T F b
  rw [← hP T F b, show groups' = (Trace.mk groups').fileGroups from rfl, hmerged]
  cases (Trace.mk groups').branchOf ⟨T, F⟩ F b <;> rfl

def Trace.branchCounters (t : Trace) (T F : Str) (b : BranchID) : List Int :=
  t.countersOf T F fun fi => fi.branches.find b

theorem branchCounters_perm (t : Trace) (T F : Str) (b : BranchID) :
    (FilesGrouper.branchCounters T F b t.fileGroups).Perm (t.branchCounters T F b) := by
  have hcounters : t.branchCounters T F b =
      t.fileGroups.entries.filterMap fun e => counterIn T F b e.1 (some e.2) :=
    rfl
  have hothers : (otherCounters T F b t.fileGroups).entries.map Prod.snd =
      t.fileGroups.entries.filterMap fun e =>
        if e.1 ≠ ⟨T, F⟩ then counterIn T F b e.1 (some e.2) else none := by
    simp only [otherCounters, OrderedMap.filterMapVal, List.map_filterMap, Option.map_map]
    congr 1
    funext e
    exact Option.map_id'
  have hsame : ∀ l : List (FileGroupID × FileGroupInfo), (∀ e ∈ l, e.1 ≠ ⟨T, F⟩) →
      (l.filterMap fun e => if e.1 ≠ ⟨T, F⟩ then counterIn T F b e.1 (some e.2) else none) =
        l.filterMap fun e => counterIn T F b e.1 (some e.2) := by
    intro l hl
    apply List.filterMap_congr
    intro e he
    exact if_pos (hl e he)
  rw [FilesGrouper.branchCounters, hcounters, hothers]
  cases hown : t.fileGroups.find ⟨T, F⟩ with
  | none =>
    rw [hsame _ fun e he heq => ?_]
    · exact List.Perm.refl _
    · exact (OrderedMap.find_eq_none_iff _ _).mp hown e.2 (heq ▸ he)
  | some gi =>
    obtain ⟨before, after, hentries⟩ :=
      List.append_of_mem ((OrderedMap.find_eq_some_iff _ _ _).mp hown)
    have hsorted := t.fileGroups.sorted
    rw [hentries] at hsorted ⊢
    obtain ⟨-, hafter, hbefore⟩ := List.pairwise_append.mp hsorted
    rw [List.filterMap_append, List.filterMap_append, List.filterMap_cons, List.filterMap_cons,
      if_neg (by simp), hsame before fun e he => (hbefore e he _ List.mem_cons_self).ne,
      hsame after fun e he => ((List.pairwise_cons.mp hafter).1 e he).ne']
    cases counterIn T F b ⟨T, F⟩ (some gi) with
    | none => exact List.Perm.refl _
    | some c =>
      simp only [Option.toList_some, List.singleton_append]
      exact List.perm_middle.symm

theorem expectedCounter_perm {cs ds : List Int} (h : cs.Perm ds) :
    expectedCounter cs = expectedCounter ds := by
  have hsum : nonnegSum cs = nonnegSum ds := (h.filter _).sum_eq
  have hfrom : expectedFrom 0 cs = expectedFrom 0 ds := by
    unfold expectedFrom
    simp only [hsum, h.mem_iff]
  have hnil : cs = [] ↔ ds = [] := by
    constructor
    · rintro rfl
      exact List.nil_perm.mp h
    · rintro rfl
      exact List.perm_nil.mp h
  unfold expectedCounter
  simp only [hfrom, hnil]

/-- Grouping leaves `-` for a branch that has only `-`, and otherwise sums up the counters
that are not negative. -/
def BranchesSummed (t : Trace) : Prop :=
  ∃ t', t.groupFiles = some t' ∧
    ∀ T F b, t'.branchOf ⟨T, F⟩ F b = expectedCounter (t.branchCounters T F b)

/--
The branch counters are summed up exactly when every list of counters merges well in the
order of the traversal.
-/
theorem branchesSummed_iff
    {t : Trace} (hinv : t.GroupInvariant) :
    BranchesSummed t ↔
      ∀ T F b, MergesWell (FilesGrouper.branchCounters T F b t.fileGroups) := by
  obtain ⟨t', hrun, hbranch⟩ := groupFiles_branchOf hinv
  have hiff : ∀ T F b, t'.branchOf ⟨T, F⟩ F b = expectedCounter (t.branchCounters T F b) ↔
      MergesWell (FilesGrouper.branchCounters T F b t.fileGroups) := by
    intro T F b
    rw [hbranch, ← expectedCounter_perm (branchCounters_perm t T F b)]
    exact mergeCounters_iff _
  constructor
  · rintro ⟨t'', hrun', hall⟩ T F b
    obtain rfl : t' = t'' := Option.some.inj (hrun.symm.trans hrun')
    exact (hiff T F b).mp (hall T F b)
  · intro hwell
    exact ⟨t', hrun, fun T F b => (hiff T F b).mpr (hwell T F b)⟩

/-- Two sources that include one header with a branch. -/
def sharedBranchTrace (c d : Int) : Trace :=
  let header (counter : Int) : FileInfo :=
    { FileInfo.empty with branches := OrderedMap.empty.set ⟨1, 0, 0⟩ counter }
  let group (name : String) (counter : Int) : FileGroupInfo :=
    ⟨(OrderedMap.empty.set name.toList FileInfo.empty).set "/h.h".toList (header counter)⟩
  ⟨(OrderedMap.empty.set ⟨[], "/a.c".toList⟩ (group "/a.c" c)).set
    ⟨[], "/b.c".toList⟩ (group "/b.c" d)⟩

/-- A number and then a `-`. -/
theorem branchesSummed_sharedBranch :
    (sharedBranchTrace 5 (-1)).GroupInvariant ∧
      (BranchesSummed (sharedBranchTrace 5 (-1)) ↔
        ∀ T F b, MergesWell
          (FilesGrouper.branchCounters T F b (sharedBranchTrace 5 (-1)).fileGroups)) := by
  have hinv : (sharedBranchTrace 5 (-1)).GroupInvariant :=
    Trace.groupInvariant_of_entries (by decide +kernel)
  exact ⟨hinv, branchesSummed_iff hinv⟩

def sharedBranchText : Str :=
  ("TN:\nSF:/a.c\nend_of_record\nSF:/h.h\nBRDA:1,0,0,-\nend_of_record\n" ++
    "TN:\nSF:/b.c\nend_of_record\nSF:/h.h\nBRDA:1,0,0,5\nend_of_record\n").toList

/-- A `-` and then a number: the counter `5` becomes `10`. -/
theorem not_branchesSummed_sharedBranch :
    Trace.empty.read 0 sharedBranchText = .ok (sharedBranchTrace (-1) 5) ∧
      (sharedBranchTrace (-1) 5).GroupInvariant ∧ ¬ BranchesSummed (sharedBranchTrace (-1) 5) := by
  refine ⟨by decide +kernel, Trace.groupInvariant_of_entries (by decide +kernel), ?_⟩
  rintro ⟨t', hrun, hall⟩
  have hmerged : ((sharedBranchTrace (-1) 5).groupFiles.map fun t =>
      t.branchOf ⟨[], "/h.h".toList⟩ "/h.h".toList ⟨1, 0, 0⟩) = some (some 10) := by
    decide +kernel
  rw [hrun, Option.map_some, hall] at hmerged
  exact absurd hmerged (by decide +kernel)

end Coverage
end KedrAux
