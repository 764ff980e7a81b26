import Mathlib.Data.Char
import Mathlib.Data.Prod.Lex
import KedrAux.Lib.OrderedMap

/-!
# Coverage traces

The internal representation of lcov trace files (`trace.hh`).  A trace maps
group identifiers to groups, a group maps file names to files, and a file holds
the counters of its functions, lines and branches.

Strings are lists of characters and the maps are ordered maps, so iteration
follows the order of `std::map`.  Counters (`counter_t`, a `long`) and line
numbers (`int`) are integers; the conversions that can wrap are made where the
source makes them, in the parser actions.  Groups are held by pointer in the
source, but no two traces ever share one (`operator=` copies them), so the model
stores them by value.
-/

namespace KedrAux
namespace Coverage

abbrev Str := List Char

/-- Information about a function: its first line (`-1` when unknown) and counter. -/
structure FuncInfo where
  lineStart : Int
  counter : Int
deriving DecidableEq, Inhabited

structure BranchID where
  line : Int
  blockNumber : Int
  branchNumber : Int
deriving DecidableEq

namespace BranchID

/-- The components in the order in which `operator<` compares them. -/
def toLexKey (b : BranchID) : Int ×ₗ Int ×ₗ Int :=
  toLex (b.line, toLex (b.blockNumber, b.branchNumber))

theorem toLexKey_injective : Function.Injective toLexKey := by
  rintro ⟨l, k, n⟩ ⟨l', k', n'⟩ h
  simp only [toLexKey, EmbeddingLike.apply_eq_iff_eq, Prod.mk.injEq] at h
  obtain ⟨rfl, rfl, rfl⟩ := h
  rfl

instance : LinearOrder BranchID :=
  LinearOrder.lift' toLexKey toLexKey_injective

/-- The order is that of `operator<`. -/
theorem lt_iff (b b' : BranchID) :
    b < b' ↔
      b.line < b'.line ∨
      b.line = b'.line ∧
        (b.blockNumber < b'.blockNumber ∨
          b.blockNumber = b'.blockNumber ∧ b.branchNumber < b'.branchNumber) := by
  change toLexKey b < toLexKey b' ↔ _
  simp only [toLexKey, Prod.Lex.toLex_lt_toLex]

end BranchID

structure FileInfo where
  functions : OrderedMap Str FuncInfo
  lines : OrderedMap Int Int
  /-- The value `-1` corresponds to `-` in a `BRDA` directive. -/
  branches : OrderedMap BranchID Int
deriving DecidableEq

def FileInfo.empty : FileInfo where
  functions := OrderedMap.empty
  lines := OrderedMap.empty
  branches := OrderedMap.empty

instance : Inhabited FileInfo := ⟨FileInfo.empty⟩

structure FileGroupID where
  testName : Str
  filename : Str
deriving DecidableEq, Inhabited

namespace FileGroupID

/-- `operator<` compares the file name first, then the test name. -/
def toLexKey (g : FileGroupID) : Str ×ₗ Str :=
  toLex (g.filename, g.testName)

theorem toLexKey_injective : Function.Injective toLexKey := by
  rintro ⟨t, f⟩ ⟨t', f'⟩ h
  simp only [toLexKey, EmbeddingLike.apply_eq_iff_eq, Prod.mk.injEq] at h
  obtain ⟨rfl, rfl⟩ := h
  rfl

instance : LinearOrder FileGroupID :=
  LinearOrder.lift' toLexKey toLexKey_injective

theorem lt_iff (g g' : FileGroupID) :
    g < g' ↔
      g.filename < g'.filename ∨
      g.filename = g'.filename ∧ g.testName < g'.testName := by
  change toLexKey g < toLexKey g' ↔ _
  simp only [toLexKey, Prod.Lex.toLex_lt_toLex]

end FileGroupID

structure FileGroupInfo where
  files : OrderedMap Str FileInfo
deriving DecidableEq

instance : Inhabited FileGroupInfo := ⟨⟨OrderedMap.empty⟩⟩

/-- A trace consists of groups of files. -/
structure Trace where
  fileGroups : OrderedMap FileGroupID FileGroupInfo
deriving DecidableEq

def Trace.empty : Trace := ⟨OrderedMap.empty⟩

instance : Inhabited Trace := ⟨Trace.empty⟩

/-- Whether a file name corresponds to a source file (ends with `.c`). -/
def isSource (filename : Str) : Bool :=
  decide (filename.length > 2) &&
    filename[filename.length - 2]? == some '.' &&
    filename[filename.length - 1]? == some 'c'

def EndsInDotC (filename : Str) : Prop :=
  ['.', 'c'] <:+ filename

instance (filename : Str) : Decidable (EndsInDotC filename) :=
  inferInstanceAs (Decidable (['.', 'c'] <:+ filename))

theorem isSource_iff (filename : Str) :
    isSource filename = true ↔ EndsInDotC filename ∧ filename ≠ ['.', 'c'] := by
  unfold EndsInDotC
  constructor
  · intro h
    simp only [isSource, Bool.and_eq_true, decide_eq_true_eq, beq_iff_eq] at h
    obtain ⟨⟨hlen, hdot⟩, hc⟩ := h
    refine ⟨?_, fun he => by simp [he] at hlen⟩
    refine ⟨filename.take (filename.length - 2), ?_⟩
    have hdrop : filename.drop (filename.length - 2) = ['.', 'c'] := by
      apply List.ext_getElem?
      intro i
      rw [List.getElem?_drop]
      match i with
      | 0 => simpa using hdot
      | 1 =>
        have he : filename.length - 2 + 1 = filename.length - 1 := by omega
        simpa [he] using hc
      | i + 2 =>
        have he : filename.length ≤ filename.length - 2 + (i + 2) := by omega
        simp [he]
    rw [← hdrop, List.take_append_drop]
  · rintro ⟨⟨pre, rfl⟩, hne⟩
    cases pre with
    | nil => exact absurd rfl hne
    | cons c pre => simp [isSource]

def Trace.fileOf (t : Trace) (g : FileGroupID) (f : Str) : Option FileInfo :=
  (t.fileGroups.find g).bind fun gi => gi.files.find f

def Trace.funcOf (t : Trace) (g : FileGroupID) (f name : Str) : Option FuncInfo :=
  (t.fileOf g f).bind fun fi => fi.functions.find name

def Trace.lineOf (t : Trace) (g : FileGroupID) (f : Str) (line : Int) : Option Int :=
  (t.fileOf g f).bind fun fi => fi.lines.find line

def Trace.branchOf (t : Trace) (g : FileGroupID) (f : Str) (b : BranchID) : Option Int :=
  (t.fileOf g f).bind fun fi => fi.branches.find b

theorem FileInfo.ext_find {fi fi' : FileInfo}
    (hfn : ∀ n, fi.functions.find n = fi'.functions.find n)
    (hln : ∀ l, fi.lines.find l = fi'.lines.find l)
    (hbr : ∀ b, fi.branches.find b = fi'.branches.find b) :
    fi = fi' := by
  cases fi
  cases fi'
  congr
  · exact OrderedMap.ext_find hfn
  · exact OrderedMap.ext_find hln
  · exact OrderedMap.ext_find hbr

variable {t t' : Trace}

theorem Trace.ext_fileOf
    (hgroups : ∀ g, (t.fileGroups.find g).isSome = (t'.fileGroups.find g).isSome)
    (hfiles : ∀ g f, t.fileOf g f = t'.fileOf g f) :
    t = t' := by
  cases t with
  | mk m =>
    cases t' with
    | mk m' =>
      congr
      apply OrderedMap.ext_find
      intro g
      have hg := hgroups g
      have hf := hfiles g
      simp only [Trace.fileOf] at hg hf
      cases h : m.find g with
      | none =>
        rw [h] at hg
        exact (Option.not_isSome_iff_eq_none.mp (by rw [← hg]; simp)).symm
      | some gi =>
        rw [h] at hg hf
        obtain ⟨gi', h'⟩ := Option.isSome_iff_exists.mp hg.symm
        rw [h'] at hf ⊢
        cases gi
        cases gi'
        congr
        exact OrderedMap.ext_find hf

theorem Trace.ext_counters
    (hgroups : ∀ g, (t.fileGroups.find g).isSome = (t'.fileGroups.find g).isSome)
    (hfiles : ∀ g f, (t.fileOf g f).isSome = (t'.fileOf g f).isSome)
    (hfn : ∀ g f n, t.funcOf g f n = t'.funcOf g f n)
    (hln : ∀ g f l, t.lineOf g f l = t'.lineOf g f l)
    (hbr : ∀ g f b, t.branchOf g f b = t'.branchOf g f b) :
    t = t' := by
  apply Trace.ext_fileOf hgroups
  intro g f
  have hfile := hfiles g f
  have hfn := hfn g f
  have hln := hln g f
  have hbr := hbr g f
  simp only [Trace.funcOf, Trace.lineOf, Trace.branchOf] at hfn hln hbr
  cases h : t.fileOf g f with
  | none =>
    rw [h] at hfile
    exact (Option.not_isSome_iff_eq_none.mp (by rw [← hfile]; simp)).symm
  | some fi =>
    rw [h] at hfile hfn hln hbr
    obtain ⟨fi', h'⟩ := Option.isSome_iff_exists.mp hfile.symm
    rw [h'] at hfn hln hbr ⊢
    exact congrArg some (FileInfo.ext_find hfn hln hbr)

/-- The object is present with a positive counter. -/
def Hit (y : Option Int) : Prop :=
  0 < y.getD 0

instance (y : Option Int) : Decidable (Hit y) :=
  inferInstanceAs (Decidable (0 < y.getD 0))

/--
Counters that mean what they say: line and function counters are numbers of
hits, a branch counter may also be the mark `-1`, and so may a start line.
-/
structure Trace.CountersInRange (t : Trace) : Prop where
  functions : ∀ g f n fn, t.funcOf g f n = some fn → -1 ≤ fn.lineStart ∧ 0 ≤ fn.counter
  lines : ∀ g f l c, t.lineOf g f l = some c → 0 ≤ c
  branches : ∀ g f b c, t.branchOf g f b = some c → -1 ≤ c

/--
The group representation invariant of the reader: a group `(T, F)` holds a file
named `F`, and a file of the group whose name ends in `.c` can only be `F`.
-/
structure Trace.GroupInvariant (t : Trace) : Prop where
  own_file : ∀ g gi, t.fileGroups.find g = some gi →
    (gi.files.find g.filename).isSome
  source_is_own : ∀ g gi f, t.fileGroups.find g = some gi →
    (gi.files.find f).isSome → EndsInDotC f → f = g.filename

theorem Trace.groupInvariant_of_entries
    (h : ∀ e ∈ t.fileGroups.entries, (e.2.files.find e.1.filename).isSome ∧
      ∀ f ∈ e.2.files.keys, EndsInDotC f → f = e.1.filename) :
    t.GroupInvariant where
  own_file g gi hg := (h (g, gi) ((OrderedMap.find_eq_some_iff _ _ _).mp hg)).1
  source_is_own g gi f hg hf :=
    (h (g, gi) ((OrderedMap.find_eq_some_iff _ _ _).mp hg)).2 f
      ((gi.files.mem_keys_iff f).mpr (Option.isSome_iff_exists.mp hf))

/-- Every group holds its own file and no other one. -/
def Trace.Grouped (t : Trace) : Prop :=
  ∀ g gi, t.fileGroups.find g = some gi → gi.files.keys = [g.filename]

/-- In a grouped trace, each group has just the file that it is named after. -/
theorem Trace.grouped_iff (t : Trace) :
    t.Grouped ↔
      ∀ g gi, t.fileGroups.find g = some gi →
        ∀ f, (gi.files.find f).isSome ↔ f = g.filename := by
  refine forall₃_congr fun g gi _ => ?_
  constructor
  · intro hkeys f
    rw [Option.isSome_iff_exists, ← OrderedMap.mem_keys_iff, hkeys]
    exact List.mem_singleton
  · intro hfiles
    obtain ⟨fi, hfi⟩ := Option.isSome_iff_exists.mp ((hfiles g.filename).mpr rfl)
    have heq : gi.files = OrderedMap.empty.set g.filename fi := by
      apply OrderedMap.ext_find
      intro f
      rw [OrderedMap.find_set]
      split_ifs with hf
      · rw [hf, hfi]
      · rw [OrderedMap.find_empty, ← Option.not_isSome_iff_eq_none, hfiles]
        exact hf
    rw [heq]
    rfl

theorem Trace.Grouped.find_isSome_iff (ht : t.Grouped) {g : FileGroupID} {gi : FileGroupInfo}
    (hg : t.fileGroups.find g = some gi) (f : Str) :
    (gi.files.find f).isSome ↔ f = g.filename :=
  (t.grouped_iff.mp ht) g gi hg f

theorem Trace.Grouped.groupInvariant (ht : t.Grouped) :
    t.GroupInvariant where
  own_file g _ hg := (ht.find_isSome_iff hg g.filename).mpr rfl
  source_is_own _ _ f hg hf _ := (ht.find_isSome_iff hg f).mp hf

end Coverage
end KedrAux
