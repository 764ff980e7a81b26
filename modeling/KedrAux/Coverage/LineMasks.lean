import KedrAux.Coverage.DoTraceOperation
import KedrAux.Coverage.FilesGrouper
import KedrAux.Coverage.TraceReader

/-!
# Lines of grouped traces

The functions of `test_set_optimizer.cpp` that look for lines in a trace and
clear lines of a trace.  They work with traces loaded by `TestTraceInfo::loadTest`:
files are grouped and only lines are left.

A failed assertion gives `none`.
-/

namespace KedrAux
namespace Coverage

/-- Line identificator in the trace; the file has the name of the group. -/
structure TraceLineID where
  groupID : FileGroupID
  line : Int
deriving DecidableEq

/-- The order in which `traceGetLineCovered` looks at the lines. -/
def TraceLineID.Before (a b : TraceLineID) : Prop :=
  a.groupID < b.groupID ∨ a.groupID = b.groupID ∧ a.line < b.line

instance (a b : TraceLineID) : Decidable (a.Before b) :=
  inferInstanceAs (Decidable (_ ∨ _ ∧ _))

theorem TraceLineID.before_or_before {a b : TraceLineID} (h : a ≠ b) : a.Before b ∨ b.Before a := by
  obtain ⟨g, line⟩ := a
  obtain ⟨g', line'⟩ := b
  rcases lt_trichotomy g g' with hg | rfl | hg
  · exact .inl (.inl hg)
  · rcases lt_trichotomy line line' with hline | rfl | hline
    · exact .inl (.inr ⟨rfl, hline⟩)
    · exact absurd rfl h
    · exact .inr (.inr ⟨rfl, hline⟩)
  · exact .inr (.inl hg)

/-- `traceClearExceptLines`: forget functions and branches. -/
def traceClearExceptLines (trace : Trace) : Trace :=
  ⟨trace.fileGroups.mapVal fun group =>
    ⟨group.files.mapVal fun file =>
      { file with functions := OrderedMap.empty, branches := OrderedMap.empty }⟩⟩

namespace TraceClearLinesMasked

def clearFile (file mask : FileInfo) : FileInfo :=
  { file with
    lines := file.lines.merge (fun c counter => if counter > 0 then none else c) mask.lines }

def clearGroup (group mask : FileGroupInfo) : FileGroupInfo :=
  ⟨group.files.update clearFile mask.files⟩

end TraceClearLinesMasked

/-- `traceClearLinesMasked`: clear all lines which are also covered in the mask. -/
def traceClearLinesMasked (trace mask : Trace) : Trace :=
  ⟨trace.fileGroups.update TraceClearLinesMasked.clearGroup mask.fileGroups⟩

namespace TraceClearLinesNotMasked

/-- `clear` for a file; a line stays unless the mask lacks it or has the counter `0`. -/
def clearFile (file mask : FileInfo) : FileInfo :=
  { file with
    lines := file.lines.filterMapVal fun line counter =>
      match mask.lines.find line with
      | none => none
      | some c => if c = 0 then none else some counter }

def clearGroup (group mask : FileGroupInfo) : FileGroupInfo :=
  ⟨group.files.filterMapVal fun f file => (mask.files.find f).map (clearFile file)⟩

end TraceClearLinesNotMasked

def traceClearLinesNotMasked (trace mask : Trace) : Trace :=
  ⟨trace.fileGroups.filterMapVal fun g group =>
    (mask.fileGroups.find g).map (TraceClearLinesNotMasked.clearGroup group)⟩

def groupFile (group : FileGroupID × FileGroupInfo) : Option FileInfo :=
  match group.2.files.entries.head? with
  | some file => if file.1 = group.1.filename then some file.2 else none
  | none => none

def getLineCovered : List (FileGroupID × FileGroupInfo) → Option (Option TraceLineID)
  | [] => some none
  | group :: groups =>
    (groupFile group).bind fun file =>
      match file.lines.entries.find? fun line => decide (line.2 > 0) with
      | some line => some (some ⟨group.1, line.1⟩)
      | none => getLineCovered groups

def traceGetLineCovered (trace : Trace) : Option (Option TraceLineID) :=
  getLineCovered trace.fileGroups.entries

def traceHasLine (trace : Trace) (lineID : TraceLineID) : Option Bool :=
  match trace.fileGroups.find lineID.groupID with
  | none => some false
  | some group =>
    (groupFile (lineID.groupID, group)).map fun file =>
      match file.lines.find lineID.line with
      | none => false
      | some counter => decide (counter > 0)

def loadTest (trace : Trace) : Option Trace :=
  trace.groupFiles.map traceClearExceptLines

def Trace.counterOf (t : Trace) (lineID : TraceLineID) : Option Int :=
  t.lineOf lineID.groupID lineID.groupID.filename lineID.line

def Trace.Covers (t : Trace) (lineID : TraceLineID) : Prop :=
  Hit (t.counterOf lineID)

instance (t : Trace) (lineID : TraceLineID) : Decidable (t.Covers lineID) :=
  inferInstanceAs (Decidable (Hit (t.counterOf lineID)))

theorem hit_iff (c : Option Int) : Hit c ↔ ∃ n, c = some n ∧ 0 < n := by
  cases c <;> simp [Hit]

theorem lineOf_clearExceptLines (t : Trace) (g : FileGroupID) (f : Str) (line : Int) :
    (traceClearExceptLines t).lineOf g f line = t.lineOf g f line := by
  simp only [traceClearExceptLines, Trace.lineOf, Trace.fileOf, OrderedMap.find_mapVal]
  cases t.fileGroups.find g with
  | none => rfl
  | some gi =>
    simp only [Option.map_some, Option.bind_some, OrderedMap.find_mapVal]
    cases gi.files.find f <;> rfl

theorem fileOf_clearLinesMasked (t mask : Trace) (g : FileGroupID) (f : Str) :
    (traceClearLinesMasked t mask).fileOf g f =
      (t.fileOf g f).map fun fi =>
        (mask.fileOf g f).elim fi (TraceClearLinesMasked.clearFile fi) := by
  simp only [traceClearLinesMasked, Trace.fileOf, OrderedMap.find_update]
  cases t.fileGroups.find g with
  | none => rfl
  | some gi =>
    cases mask.fileGroups.find g with
    | none => cases h : gi.files.find f <;> simp [h]
    | some mi =>
      simp only [Option.map_some, Option.elim_some, Option.bind_some,
        TraceClearLinesMasked.clearGroup, OrderedMap.find_update]

theorem fileOf_clearLinesNotMasked (t mask : Trace) (g : FileGroupID) (f : Str) :
    (traceClearLinesNotMasked t mask).fileOf g f =
      (t.fileOf g f).bind fun fi =>
        (mask.fileOf g f).map (TraceClearLinesNotMasked.clearFile fi) := by
  simp only [traceClearLinesNotMasked, Trace.fileOf, OrderedMap.find_filterMapVal]
  cases t.fileGroups.find g with
  | none => rfl
  | some gi =>
    cases mask.fileGroups.find g with
    | none => cases h : gi.files.find f <;> simp [h]
    | some mi =>
      simp only [Option.map_some, Option.bind_some,
        TraceClearLinesNotMasked.clearGroup, OrderedMap.find_filterMapVal]

theorem lineOf_clearLinesMasked (t mask : Trace) (g : FileGroupID) (f : Str) (line : Int) :
    (traceClearLinesMasked t mask).lineOf g f line =
      if Hit (mask.lineOf g f line) then none else t.lineOf g f line := by
  rw [Trace.lineOf, fileOf_clearLinesMasked]
  by_cases hhit : Hit (mask.lineOf g f line)
  · rw [if_pos hhit]
    obtain ⟨n, hn, hpos⟩ := (hit_iff _).mp hhit
    obtain ⟨mf, hmf, hline⟩ := Option.bind_eq_some_iff.mp hn
    cases t.fileOf g f <;>
      simp [TraceClearLinesMasked.clearFile, OrderedMap.find_merge, hmf, hline, hpos]
  · rw [if_neg hhit, Trace.lineOf]
    cases hmf : mask.fileOf g f with
    | none => cases t.fileOf g f <;> rfl
    | some mf =>
      cases t.fileOf g f with
      | none => rfl
      | some fi =>
        simp only [Option.map_some, Option.elim_some, Option.bind_some,
          TraceClearLinesMasked.clearFile, OrderedMap.find_merge]
        cases hline : mf.lines.find line with
        | none => rfl
        | some n =>
          have hn : ¬0 < n := by simpa [Trace.lineOf, hmf, hline, Hit] using hhit
          simp [hn]

theorem lineOf_clearLinesNotMasked (t mask : Trace) (g : FileGroupID) (f : Str) (line : Int) :
    (traceClearLinesNotMasked t mask).lineOf g f line =
      if (mask.lineOf g f line).getD 0 = 0 then none else t.lineOf g f line := by
  rw [Trace.lineOf, fileOf_clearLinesNotMasked, Trace.lineOf, Trace.lineOf]
  cases mask.fileOf g f with
  | none => cases t.fileOf g f <;> rfl
  | some mf =>
    cases t.fileOf g f with
    | none => simp
    | some fi =>
      simp only [Option.map_some, Option.bind_some,
        TraceClearLinesNotMasked.clearFile, OrderedMap.find_filterMapVal]
      cases fi.lines.find line <;> cases mf.lines.find line <;> simp

variable {t : Trace}

theorem grouped_clearExceptLines (ht : t.Grouped) : (traceClearExceptLines t).Grouped := by
  rw [Trace.grouped_iff]
  intro g gi' hg f
  rw [traceClearExceptLines, OrderedMap.find_mapVal, Option.map_eq_some_iff] at hg
  obtain ⟨gi, hg, rfl⟩ := hg
  rw [OrderedMap.find_mapVal, Option.isSome_map]
  exact ht.find_isSome_iff hg f

theorem grouped_clearLinesMasked (ht : t.Grouped) (mask : Trace) :
    (traceClearLinesMasked t mask).Grouped := by
  rw [Trace.grouped_iff]
  intro g gi' hg f
  rw [traceClearLinesMasked, OrderedMap.find_update, Option.map_eq_some_iff] at hg
  obtain ⟨gi, hg, rfl⟩ := hg
  cases mask.fileGroups.find g with
  | none => exact ht.find_isSome_iff hg f
  | some mi =>
    simp only [Option.elim_some, TraceClearLinesMasked.clearGroup, OrderedMap.find_update,
      Option.isSome_map]
    exact ht.find_isSome_iff hg f

theorem groupFile_of_grouped (ht : t.Grouped) {g : FileGroupID} {gi : FileGroupInfo}
    (hg : t.fileGroups.find g = some gi) :
    ∃ fi, groupFile (g, gi) = some fi ∧ gi.files.find g.filename = some fi := by
  have hkeys := ht g gi hg
  rw [OrderedMap.keys, List.map_eq_singleton_iff] at hkeys
  obtain ⟨⟨f, fi⟩, hentries, rfl⟩ := hkeys
  refine ⟨fi, by simp [groupFile, hentries], ?_⟩
  rw [OrderedMap.find_eq_some_iff, hentries]
  exact List.mem_singleton.mpr rfl

/-- The first covered line in the order of the loop, if any line is covered. -/
theorem getLineCovered_spec (ht : t.Grouped) :
    ∀ groups : List (FileGroupID × FileGroupInfo),
      (∀ e ∈ groups, t.fileGroups.find e.1 = some e.2) →
      groups.Pairwise (fun e e' => e.1 < e'.1) →
      (∃ lineID, getLineCovered groups = some (some lineID) ∧ t.Covers lineID ∧
          ∀ e ∈ groups, ∀ line, t.Covers ⟨e.1, line⟩ → ¬(⟨e.1, line⟩ : TraceLineID).Before lineID) ∨
        getLineCovered groups = some none ∧
          ∀ e ∈ groups, ∀ line, ¬t.Covers ⟨e.1, line⟩
  | [], _, _ => Or.inr ⟨rfl, fun e he => by cases he⟩
  | (g, gi) :: groups, hgroups, hsorted => by
      obtain ⟨hless, hsorted⟩ := List.pairwise_cons.mp hsorted
      have hg := hgroups (g, gi) List.mem_cons_self
      obtain ⟨fi, hfile, hfind⟩ := groupFile_of_grouped ht hg
      have hcounter : ∀ line, t.counterOf ⟨g, line⟩ = fi.lines.find line := by
        intro line
        simp [Trace.counterOf, Trace.lineOf, Trace.fileOf, hg, hfind]
      simp only [getLineCovered, hfile, Option.bind_some]
      cases hline : fi.lines.entries.find? fun line => decide (line.2 > 0) with
      | some line =>
        left
        have hmem := List.mem_of_find?_eq_some hline
        have hpos := List.find?_some hline
        refine ⟨⟨g, line.1⟩, rfl, ?_, ?_⟩
        · rw [Trace.Covers, hcounter, hit_iff]
          exact ⟨line.2, (OrderedMap.find_eq_some_iff _ _ _).mpr hmem, by simpa using hpos⟩
        · intro e he line' hcover hbefore
          rcases List.mem_cons.mp he with rfl | he
          · -- an earlier line of the file would have been found
            rw [Trace.Covers, hcounter, hit_iff] at hcover
            obtain ⟨n, hn, hpos'⟩ := hcover
            rw [OrderedMap.find_eq_some_iff] at hn
            obtain ⟨-, before, after, hentries, hnone⟩ := List.find?_eq_some_iff_append.mp hline
            have hlines := fi.lines.sorted
            rw [hentries] at hn hlines
            have hlt : line' < line.1 := by
              rcases hbefore with hlt | ⟨-, hlt⟩
              · exact absurd hlt (lt_irrefl g)
              · exact hlt
            rcases List.mem_append.mp hn with hn | hn
            · simpa [hpos'] using hnone _ hn
            · rcases List.mem_cons.mp hn with rfl | hn
              · exact lt_irrefl _ hlt
              · have hgt := (List.pairwise_cons.mp (List.pairwise_append.mp hlines).2.1).1 _ hn
                exact lt_asymm hlt hgt
          · have hlt := hless e he
            rcases hbefore with hlt' | ⟨heq, -⟩
            · exact lt_asymm hlt hlt'
            · exact absurd heq hlt.ne'
      | none =>
        have hnone : ∀ line, ¬t.Covers ⟨g, line⟩ := by
          intro line hcover
          rw [Trace.Covers, hcounter, hit_iff] at hcover
          obtain ⟨n, hn, hpos⟩ := hcover
          rw [OrderedMap.find_eq_some_iff] at hn
          exact List.find?_eq_none.mp hline (line, n) hn (decide_eq_true hpos)
        rcases getLineCovered_spec ht groups
            (fun e he => hgroups e (List.mem_cons_of_mem _ he)) hsorted with
          ⟨lineID, hfound, hcover, hleast⟩ | ⟨hrest, hall⟩
        · refine Or.inl ⟨lineID, hfound, hcover, fun e he line hcover' => ?_⟩
          rcases List.mem_cons.mp he with rfl | he
          · exact absurd hcover' (hnone line)
          · exact hleast e he line hcover'
        · refine Or.inr ⟨hrest, ?_⟩
          intro e he
          rcases List.mem_cons.mp he with rfl | he
          · exact hnone
          · exact hall e he

theorem exists_entry_of_covers {lineID : TraceLineID} (h : t.Covers lineID) :
    ∃ gi, (lineID.groupID, gi) ∈ t.fileGroups.entries := by
  cases hg : t.fileGroups.find lineID.groupID with
  | none => simp [Trace.Covers, Trace.counterOf, Trace.lineOf, Trace.fileOf, hg, Hit] at h
  | some gi => exact ⟨gi, (OrderedMap.find_eq_some_iff _ _ _).mp hg⟩

/-- The covered line that comes first is found. -/
theorem traceGetLineCovered_spec (ht : t.Grouped) :
    (∃ lineID, traceGetLineCovered t = some (some lineID) ∧ t.Covers lineID ∧
        ∀ lineID', t.Covers lineID' → ¬lineID'.Before lineID) ∨
      traceGetLineCovered t = some none ∧ ∀ lineID, ¬t.Covers lineID := by
  have hentries : ∀ e ∈ t.fileGroups.entries, t.fileGroups.find e.1 = some e.2 :=
    fun e he => (OrderedMap.find_eq_some_iff _ _ _).mpr he
  rcases getLineCovered_spec ht t.fileGroups.entries hentries t.fileGroups.sorted with
    ⟨lineID, hfound, hcover, hleast⟩ | ⟨hnone, hall⟩
  · refine Or.inl ⟨lineID, hfound, hcover, fun lineID' hcover' => ?_⟩
    obtain ⟨gi, hmem⟩ := exists_entry_of_covers hcover'
    exact hleast _ hmem lineID'.line hcover'
  · refine Or.inr ⟨hnone, fun lineID hcover => ?_⟩
    obtain ⟨gi, hmem⟩ := exists_entry_of_covers hcover
    exact hall _ hmem lineID.line hcover

theorem picked_spec (ht : t.Grouped) {lineID : TraceLineID}
    (h : traceGetLineCovered t = some (some lineID)) :
    t.Covers lineID ∧ ∀ lineID', t.Covers lineID' → ¬lineID'.Before lineID := by
  rcases traceGetLineCovered_spec ht with ⟨_, hfound, hspec⟩ | ⟨hfound, -⟩
  · rw [h] at hfound
    cases hfound
    exact hspec
  · rw [h] at hfound
    cases hfound

theorem traceHasLine_spec (ht : t.Grouped) (lineID : TraceLineID) :
    traceHasLine t lineID = some (decide (t.Covers lineID)) := by
  unfold traceHasLine
  cases hg : t.fileGroups.find lineID.groupID with
  | none => simp [Trace.Covers, Trace.counterOf, Trace.lineOf, Trace.fileOf, hg, Hit]
  | some gi =>
    obtain ⟨fi, hfile, hfind⟩ := groupFile_of_grouped ht hg
    simp only [hfile, Option.map_some, Trace.Covers, Trace.counterOf, Trace.lineOf,
      Trace.fileOf, hg, Option.bind_some, hfind]
    cases fi.lines.find lineID.line with
    | none => rfl
    | some n => exact congrArg some (decide_eq_decide.mpr Iff.rfl)

theorem loadTest_spec (ht : t.GroupInvariant) :
    ∃ t' loaded, t.groupFiles = some t' ∧ loadTest t = some loaded ∧ loaded.Grouped ∧
      ∀ lineID, loaded.counterOf lineID = t'.counterOf lineID := by
  obtain ⟨t', hrun, hgrouped⟩ := groupFiles_spec ht
  refine ⟨t', traceClearExceptLines t', hrun, by simp [loadTest, hrun],
    grouped_clearExceptLines hgrouped, ?_⟩
  intro lineID
  exact lineOf_clearExceptLines t' _ _ _

theorem grouped_foldl_clearLinesMasked (ht : t.Grouped) (masks : List Trace) :
    (masks.foldl traceClearLinesMasked t).Grouped := by
  induction masks generalizing t with
  | nil => exact ht
  | cons mask masks ih => exact ih (grouped_clearLinesMasked ht mask)

/--
**The group invariant.**  It holds after every event of a text that the builder
accepts, it is kept by `groupFiles`, which moreover leaves a single file in every
group, and by every operation on traces.  So the assertions about groups hold for
loaded traces, also after lines were cleared from them.
-/
theorem groupInvariant_preserved :
    (∀ garbage t parser is events b, t.GroupInvariant →
      events <+: (TraceParser.run parser is).events →
      (TraceBuilder.new t).run garbage events = .ok b → b.trace.GroupInvariant) ∧
    (∀ t : Trace, t.GroupInvariant →
      ∃ t', t.groupFiles = some t' ∧ t'.GroupInvariant ∧ t'.Grouped) ∧
    (∀ op operands, operands ≠ [] → (∀ t ∈ operands, t.GroupInvariant) →
      ∃ result, doTraceOperation op operands = some result ∧ result.GroupInvariant) ∧
    ∀ garbage is t, Trace.empty.read garbage is = .ok t →
      ∃ loaded, loadTest t = some loaded ∧
        ∀ masks : List Trace,
          (traceGetLineCovered (masks.foldl traceClearLinesMasked loaded)).isSome ∧
          ∀ lineID, (traceHasLine (masks.foldl traceClearLinesMasked loaded) lineID).isSome := by
  refine ⟨?_, ?_, ?_, ?_⟩
  · intro garbage t parser is events b ht hevents hrun
    refine TraceBuilder.run_groupInvariant ht ?_ hrun
    intro event hevent
    exact ParseRun.events_pathWellFormed parser is event (hevents.subset hevent)
  · intro t ht
    obtain ⟨t', hrun, hgrouped⟩ := groupFiles_spec ht
    exact ⟨t', hrun, hgrouped.groupInvariant, hgrouped⟩
  · intro op operands hne hinv
    obtain ⟨result, hrun, hresult⟩ := doTraceOperation_spec op operands hne
    exact ⟨result, hrun, hresult.groupInvariant hinv⟩
  · intro garbage is t hread
    have hempty : Trace.empty.GroupInvariant := Trace.groupInvariant_of_entries (by decide)
    have ht := Trace.readWith_groupInvariant hempty hread
    obtain ⟨-, loaded, -, hload, hgrouped, -⟩ := loadTest_spec ht
    refine ⟨loaded, hload, ?_⟩
    intro masks
    have hcleared := grouped_foldl_clearLinesMasked hgrouped masks
    refine ⟨?_, ?_⟩
    · rcases traceGetLineCovered_spec hcleared with ⟨lineID, heq, -⟩ | ⟨heq, -⟩
      · rw [heq]
        rfl
      · rw [heq]
        rfl
    · intro lineID
      rw [traceHasLine_spec hcleared]
      rfl

/-- A header comes before its source, and the group is named by the source. -/
def headerFirstText : Str :=
  "TN:\nSF:/a.h\nDA:1,2\nend_of_record\nSF:/b.c\nDA:3,0\nend_of_record\n".toList

def headerFirstTrace : Trace :=
  ⟨OrderedMap.empty.set ⟨[], "/b.c".toList⟩
    ⟨(OrderedMap.empty.set "/a.h".toList
      { FileInfo.empty with lines := OrderedMap.empty.set 1 2 }).set "/b.c".toList
      { FileInfo.empty with lines := OrderedMap.empty.set 3 0 }⟩⟩

/-- A text that lists a header before its source. -/
theorem groupInvariant_preserved_headerFirst :
    Trace.empty.read 0 headerFirstText = .ok headerFirstTrace ∧
      headerFirstTrace.GroupInvariant ∧
      (∃ t', headerFirstTrace.groupFiles = some t' ∧ t'.Grouped) ∧
      (∃ result, doTraceOperation (.unified fun _ => 1) [headerFirstTrace] = some result ∧
        result.GroupInvariant) ∧
      ∃ loaded, loadTest headerFirstTrace = some loaded ∧ (traceGetLineCovered loaded).isSome := by
  obtain ⟨-, hgroup, hoperation, hload⟩ := groupInvariant_preserved
  have hread : Trace.empty.read 0 headerFirstText = .ok headerFirstTrace := by decide +kernel
  have hinv : headerFirstTrace.GroupInvariant :=
    Trace.groupInvariant_of_entries (by decide +kernel)
  obtain ⟨t', hrun, -, hgrouped⟩ := hgroup headerFirstTrace hinv
  obtain ⟨loaded, hloaded, hasserts⟩ := hload 0 headerFirstText headerFirstTrace hread
  refine ⟨hread, hinv, ⟨t', hrun, hgrouped⟩, ?_, loaded, hloaded, (hasserts []).1⟩
  exact hoperation (.unified fun _ => 1) [headerFirstTrace] (by simp) (by simpa using hinv)

end Coverage
end KedrAux
