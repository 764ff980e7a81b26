import KedrAux.LeakCheck.Replacements

/-!
# Records and live blocks

A live block has a record, or a thread is about to add its record, or a thread has taken the
record out and is about to free the block.  So the records are exactly the live blocks when no
replacement function is in progress.  This fails after a `krealloc` that fails, after a `kmemdup`
or a `memdup_user` of nothing, and when a block is freed that another thread has just got.
-/

namespace KedrAux
namespace LeakCheck

variable {s s' : State} {a : Action} {b : Addr}

theorem countP_set
    {α : Type} {l : List α} {i : Nat} {x : α} (hx : l[i]? = some x) (p : α → Bool) (y : α) :
    (l.set i y).countP p + (p x).toNat = l.countP p + (p y).toNat := by
  induction l generalizing i with
  | nil => cases hx
  | cons z l ih =>
    cases i with
    | zero =>
      obtain rfl := Option.some.inj hx
      rw [List.set_cons_zero, List.countP_cons, List.countP_cons]
      cases p z <;> cases p y <;> simp
    | succ i =>
      have hl := ih hx
      rw [List.set_cons_succ, List.countP_cons, List.countP_cons]
      omega

theorem toNat_some_beq_some (p b : Addr) :
    (some p == some b).toNat = if (p == b) = true then 1 else 0 := by
  by_cases h : p = b
  · simp [h]
  · have hne : (some p == some b) = false := by simpa using h
    have hne' : (p == b) = false := by simpa using h
    rw [hne, hne']
    rfl

/-- Blocks with a record, with repetitions. -/
def Storage.blocks (storage : Storage) : List Addr := storage.allocList.map MemblockInfo.block

/-- The thread is about to add a record for the block. -/
def Place.recording (b : Addr) : Place → Bool
  | .returned call ret => (call.records ret).map MemblockInfo.block == some b
  | _ => false

def Place.willRecord : Place → Bool
  | .returned call ret => (call.records ret).isSome
  | _ => false

/-- The thread has looked for the record of the block, which it is going to free. -/
def Place.holds (b : Addr) : Place → Bool
  | .missed call | .calling call _ => call.releases == some b
  | _ => false

/-- The thread has reported that the block has no record, and is going to free it. -/
def Place.reported (b : Addr) : Place → Bool
  | .calling call found => !found && call.releases == some b
  | _ => false

theorem removeAllocs_eq (block : Addr) (l : List MemblockInfo) :
    removeAllocs block l =
      (l.filter fun mbi => mbi.block ≠ block, (l.map MemblockInfo.block).count block) := by
  induction l with
  | nil => rfl
  | cons mbi l ih =>
    rw [removeAllocs, ih]
    by_cases h : mbi.block = block
    · simp [h]
    · simp [h]

theorem blocks_remove (storage : Storage) (p : Addr) :
    (klcFindAndRemoveAlloc storage p).1.blocks = storage.blocks.filter fun b => b ≠ p := by
  simp only [klcFindAndRemoveAlloc, removeAllocs_eq, Storage.blocks, List.filter_map]
  rfl

theorem count_blocks_remove (storage : Storage) (p b : Addr) :
    (klcFindAndRemoveAlloc storage p).1.blocks.count b =
      if b = p then 0 else storage.blocks.count b := by
  rw [blocks_remove]
  split_ifs with h
  · rw [h, List.count_eq_zero]
    simp
  · rw [List.count_filter (by simpa using h)]

theorem leaks_remove (storage : Storage) (p : Addr)
    (h : storage.totalLeaks = storage.allocList.length) :
    (klcFindAndRemoveAlloc storage p).1.totalLeaks =
      (klcFindAndRemoveAlloc storage p).1.allocList.length := by
  have hlength : ∀ l : List MemblockInfo,
      l.length = (l.filter fun mbi => mbi.block ≠ p).length + (l.map MemblockInfo.block).count p := by
    intro l
    rw [List.count, List.countP_map, ← List.countP_eq_length_filter, Nat.add_comm,
      List.length_eq_countP_add_countP (fun mbi => mbi.block == p) (l := l)]
    simp [Function.comp_def]
  simp only [klcFindAndRemoveAlloc, removeAllocs_eq]
  rw [h, hlength storage.allocList]
  omega

theorem ne_zero_of_isBlock {a : Addr} (h : IsBlock a) : a ≠ 0#64 := by
  rintro rfl
  cases h.1

theorem accepts_of_isBlock (call : AllocCall) {a : Addr} (h : IsBlock a) :
    call.accepts a = true := by
  have hne := ne_zero_of_isBlock h
  cases call <;> simp [AllocCall.accepts, h.1, h.2, hne]

theorem isErr_neg (errno : Fin 4095) : isErr (-BitVec.ofNat 64 (errno.val + 1)) = true := by
  have hlt := errno.isLt
  have hmin : (-4095 : Addr).toNat = 2 ^ 64 - 4095 := rfl
  rw [isErr, decide_eq_true_eq, BitVec.le_def, hmin, BitVec.toNat_neg, BitVec.toNat_ofNat]
  omega

theorem accepts_failure (call : AllocCall) (errno : Fin 4095) :
    call.accepts (call.failure errno) = false := by
  have herr := isErr_neg errno
  cases call <;> simp [AllocCall.accepts, AllocCall.failure, herr, zeroOrNullPtr, zeroSizePtr]

theorem releases_krealloc (p : Addr) (size : Nat) :
    (Call.krealloc p size).releases = if zeroOrNullPtr p then none else some p := by
  simp only [Call.releases]
  cases zeroOrNullPtr p <;> simp

/--
Calls after which the books are right: `krealloc` of a block does not fail, and the functions that
copy memory do not return `ZERO_SIZE_PTR`.
-/
def Call.Clean : Call → Outcome → Prop
  | .krealloc p _, .failed _ => p = 0
  | .alloc (.kmemdup _), .done => False
  | .alloc (.memdupUser _), .done => False
  | _, _ => True

/-- What a real call does, as the replacement function sees it. -/
structure RealSpec (live : Finset Addr) (call : Call) (real : RealCall) : Prop where
  freed : real.freed = call.releases
  allocated : (call.records real.ret).map MemblockInfo.block = real.allocated
  fresh : ∀ a, real.allocated = some a → a ∉ live ∨ call.releases = some a

variable {live : Finset Addr} {outcome : Outcome} {p : Addr} {size thread : Nat} {call : Call}

theorem real_alloc {call : AllocCall} {real : RealCall}
    (h : (Call.alloc call).real live outcome = some real)
    (hclean : (Call.alloc call).Clean outcome) : RealSpec live (.alloc call) real := by
  cases outcome with
  | failed errno =>
    simp only [Call.real] at h
    split_ifs at h
    obtain rfl := Option.some.inj h
    refine ⟨rfl, ?_, fun a ha => (by cases ha)⟩
    simp [Call.records, accepts_failure]
  | done =>
    simp only [Call.real] at h
    split_ifs at h with hempty
    obtain rfl := Option.some.inj h
    refine ⟨rfl, ?_, fun a ha => (by cases ha)⟩
    have hno : call.accepts zeroSizePtr = false := by
      cases call with
      | kmalloc size => rfl
      | kmemdup len => exact hclean.elim
      | memdupUser len => exact hclean.elim
      | _ => cases hempty
    simp [Call.records, hno]
  | block a =>
    simp only [Call.real] at h
    split_ifs at h with himpossible
    obtain rfl := Option.some.inj h
    simp only [not_or, not_not] at himpossible
    refine ⟨rfl, ?_, fun a' ha' => ?_⟩
    · simp [Call.records, accepts_of_isBlock call himpossible.2.1]
    · obtain rfl := Option.some.inj ha'
      exact Or.inl himpossible.2.2
  | inPlace => cases h

theorem real_krealloc {real : RealCall} (h : (Call.krealloc p size).real live outcome = some real)
    (hclean : (Call.krealloc p size).Clean outcome) : RealSpec live (.krealloc p size) real := by
  have hreleases := releases_krealloc p size
  cases outcome with
  | failed errno =>
    simp only [Call.real] at h
    split_ifs at h with hsize
    obtain rfl := Option.some.inj h
    obtain rfl : p = 0 := hclean
    refine ⟨?_, ?_, fun a ha => (by cases ha)⟩
    · rw [hreleases]
      rfl
    · simp [Call.records]
  | done =>
    simp only [Call.real] at h
    split_ifs at h with hsize hp
    · obtain rfl := Option.some.inj h
      refine ⟨?_, ?_, fun a ha => (by cases ha)⟩
      · rw [hreleases, if_pos hp]
      · simp [Call.records, hsize]
    · obtain rfl := Option.some.inj h
      refine ⟨?_, ?_, fun a ha => (by cases ha)⟩
      · rw [hreleases, if_neg hp]
      · simp [Call.records, hsize]
  | block a =>
    simp only [Call.real] at h
    split_ifs at h with himpossible hp
    all_goals
      obtain rfl := Option.some.inj h
      simp only [not_or, not_not] at himpossible
      have hne := ne_zero_of_isBlock himpossible.2.1
    · refine ⟨?_, ?_, fun a' ha' => ?_⟩
      · rw [hreleases, if_pos hp]
      · by_cases hp0 : p = 0 <;> simp [Call.records, himpossible.1, hne, hp0]
      · obtain rfl := Option.some.inj ha'
        exact Or.inl himpossible.2.2.1
    · refine ⟨?_, ?_, fun a' ha' => ?_⟩
      · rw [hreleases, if_neg hp]
      · by_cases hp0 : p = 0 <;> simp [Call.records, himpossible.1, hne, hp0]
      · obtain rfl := Option.some.inj ha'
        exact Or.inl himpossible.2.2.1
  | inPlace =>
    simp only [Call.real] at h
    split_ifs at h with himpossible
    obtain rfl := Option.some.inj h
    simp only [not_or, not_not] at himpossible
    have hne := ne_zero_of_isBlock himpossible.2
    have hreleases' : (Call.krealloc p size).releases = some p := by
      rw [hreleases, himpossible.2.1, if_neg Bool.false_ne_true]
    refine ⟨hreleases'.symm, ?_, fun a ha => ?_⟩
    · simp [Call.records, himpossible.1, hne]
    · exact Or.inr (hreleases'.trans ha)

theorem real_kreallocKeep {real : RealCall}
    (h : (Call.kreallocKeep p size).real live outcome = some real) :
    RealSpec live (.kreallocKeep p size) real := by
  cases outcome with
  | failed errno =>
    simp only [Call.real] at h
    split_ifs at h with hsize
    obtain rfl := Option.some.inj h
    refine ⟨rfl, ?_, fun a ha => (by cases ha)⟩
    by_cases hp0 : p = 0 <;> simp [Call.records]
  | done =>
    simp only [Call.real] at h
    split_ifs at h with hsize
    obtain rfl := Option.some.inj h
    refine ⟨rfl, ?_, fun a ha => (by cases ha)⟩
    simp [Call.records, hsize]
  | block a =>
    simp only [Call.real] at h
    split_ifs at h with himpossible
    obtain rfl := Option.some.inj h
    simp only [not_or, not_not] at himpossible
    obtain ⟨hsize, hblock, hlive, hap⟩ := himpossible
    have hne := ne_zero_of_isBlock hblock
    refine ⟨rfl, ?_, fun a' ha' => ?_⟩
    · by_cases hp0 : p = 0 <;> simp [Call.records, hsize, hne, hp0, hap]
    · obtain rfl := Option.some.inj ha'
      exact Or.inl hlive
  | inPlace =>
    simp only [Call.real] at h
    split_ifs at h with himpossible
    obtain rfl := Option.some.inj h
    simp only [not_or, not_not] at himpossible
    have hne := ne_zero_of_isBlock himpossible.2
    refine ⟨rfl, ?_, fun a ha => (by cases ha)⟩
    simp [Call.records, hne]

theorem realSpec {real : RealCall} (h : call.real live outcome = some real)
    (hclean : call.Clean outcome) :
    RealSpec live call real := by
  cases call with
  | alloc call => exact real_alloc h hclean
  | free call p =>
    cases outcome with
    | done =>
      obtain rfl := Option.some.inj h
      exact ⟨rfl, rfl, fun a ha => (by cases ha)⟩
    | _ => cases h
  | krealloc p size => exact real_krealloc h hclean
  | kreallocKeep p size => exact real_kreallocKeep h

/-- Records of the block, and threads that are about to add one. -/
def State.entries (s : State) (b : Addr) : Nat :=
  s.storage.blocks.count b + s.threads.countP (Place.recording b)

/-- What holds in all states of the runs in which the books are kept right. -/
structure State.Books (s : State) : Prop where
  once : ∀ b, s.entries b ≤ 1
  live : ∀ b, 0 < s.entries b → b ∈ s.live
  held : ∀ b ∈ s.live, 0 < s.entries b + s.threads.countP (Place.holds b)
  leaks : s.storage.totalLeaks = s.storage.allocList.length
  allocs : s.storage.totalAllocs + s.threads.countP Place.willRecord = s.succeeded
  badFrees : ∀ b, (s.storage.badFreeList.map MemblockInfo.block).count b =
    s.unrecorded.count b + s.threads.countP (Place.reported b)

/--
Steps that keep the books right.  When a block is really freed, it has no record, and no thread is
about to add one: nobody frees a block that another thread has just got.
-/
def KeepsBooks (s : State) : Action → Prop
  | .run thread outcome => ∀ call found, s.threads[thread]? = some (.calling call found) →
      call.Clean outcome ∧
      ∀ p, call.releases = some p →
        p ∉ s.storage.blocks ∧ ∀ place ∈ s.threads, place.recording p = false
  | _ => True

theorem Books.init : State.init.Books where
  once := fun _ => Nat.zero_le _
  live := fun _ h => absurd h (Nat.lt_irrefl 0)
  held := fun _ h => absurd h (Finset.notMem_empty _)
  leaks := rfl
  allocs := rfl
  badFrees := fun _ => rfl

theorem State.Books.move {x y : Place} (h : s.Books) (hx : s.threads[thread]? = some x)
    (hrecording : ∀ b, y.recording b = x.recording b)
    (hholds : ∀ b, x.holds b = true → y.holds b = true) (hwill : y.willRecord = x.willRecord)
    (hreported : ∀ b, y.reported b = x.reported b) :
    State.Books { s with threads := s.threads.set thread y } := by
  have hentries : ∀ b,
      State.entries { s with threads := s.threads.set thread y } b = s.entries b := by
    intro b
    have hcount := countP_set hx (Place.recording b) y
    rw [hrecording] at hcount
    simp only [State.entries]
    omega
  constructor
  · intro b
    rw [hentries]
    exact h.once b
  · intro b hb
    rw [hentries] at hb
    exact h.live b hb
  · intro b hb
    have hcount := countP_set hx (Place.holds b) y
    have hheld := h.held b hb
    have hle : (x.holds b).toNat ≤ (y.holds b).toNat := by
      cases hxb : x.holds b with
      | false => exact Nat.zero_le _
      | true => rw [hholds b hxb]
    rw [hentries]
    simp only
    omega
  · exact h.leaks
  · have hcount := countP_set hx Place.willRecord y
    have hallocs := h.allocs
    rw [hwill] at hcount
    simp only
    omega
  · intro b
    have hcount := countP_set hx (Place.reported b) y
    rw [hreported] at hcount
    have hbad := h.badFrees b
    simp only
    omega

theorem State.Books.remove (h : s.Books) (hx : s.threads[thread]? = some (.entered call))
    (hp : call.releases = some p) :
    State.Books { s with
      storage := (klcFindAndRemoveAlloc s.storage p).1
      threads := s.threads.set thread
        (if (klcFindAndRemoveAlloc s.storage p).2 then .calling call true else .missed call) } := by
  generalize hy : (if (klcFindAndRemoveAlloc s.storage p).2 then
    Place.calling call true else .missed call) = y
  have hy' : (∀ b, y.recording b = false) ∧ (∀ b, y.holds b = (call.releases == some b)) ∧
      y.willRecord = false ∧ ∀ b, y.reported b = false := by
    rw [← hy]
    split_ifs <;> exact ⟨fun _ => rfl, fun _ => rfl, rfl, fun _ => rfl⟩
  obtain ⟨hrecording, hholds, hwill, hreported⟩ := hy'
  have hentries : ∀ b, b ≠ p → State.entries { s with
      storage := (klcFindAndRemoveAlloc s.storage p).1
      threads := s.threads.set thread y } b = s.entries b := by
    intro b hb
    have hcount := countP_set hx (Place.recording b) y
    rw [hrecording] at hcount
    simp only [State.entries, count_blocks_remove, if_neg hb]
    simp only [Place.recording] at hcount
    omega
  have hentries_le : ∀ b, State.entries { s with
      storage := (klcFindAndRemoveAlloc s.storage p).1
      threads := s.threads.set thread y } b ≤ s.entries b := by
    intro b
    by_cases hb : b = p
    · have hcount := countP_set hx (Place.recording b) y
      rw [hrecording] at hcount
      simp only [State.entries, count_blocks_remove, if_pos hb]
      simp only [Place.recording] at hcount
      omega
    · exact (hentries b hb).le
  constructor
  · exact fun b => (hentries_le b).trans (h.once b)
  · exact fun b hb => h.live b (hb.trans_le (hentries_le b))
  · intro b hb
    have hcount := countP_set hx (Place.holds b) y
    have hheld := h.held b hb
    rw [hholds] at hcount
    by_cases hbp : b = p
    · rw [hp, hbp] at hcount
      simp only [Place.holds, beq_self_eq_true, Bool.toNat_true, Bool.toNat_false] at hcount
      simp only [hbp]
      omega
    · rw [hentries b hbp]
      simp only [Place.holds, Bool.toNat_false] at hcount
      simp only
      omega
  · exact leaks_remove s.storage p h.leaks
  · have hcount := countP_set hx Place.willRecord y
    have hallocs := h.allocs
    rw [hwill] at hcount
    simp only [Place.willRecord] at hcount
    simp only [klcFindAndRemoveAlloc]
    omega
  · intro b
    have hcount := countP_set hx (Place.reported b) y
    rw [hreported] at hcount
    simp only [Place.reported] at hcount
    have hbad := h.badFrees b
    simp only [klcFindAndRemoveAlloc]
    omega

theorem State.Books.report (h : s.Books) (hx : s.threads[thread]? = some (.missed call))
    (hp : call.releases = some p) :
    State.Books { s with
      storage := klcAddBadFree s.storage p
      threads := s.threads.set thread (.calling call false) } := by
  have hentries : ∀ b, State.entries { s with
      storage := klcAddBadFree s.storage p
      threads := s.threads.set thread (.calling call false) } b = s.entries b := by
    intro b
    have hcount := countP_set hx (Place.recording b) (.calling call false)
    simp only [Place.recording] at hcount
    simp only [State.entries, Storage.blocks, klcAddBadFree]
    omega
  constructor
  · intro b
    rw [hentries]
    exact h.once b
  · intro b hb
    rw [hentries] at hb
    exact h.live b hb
  · intro b hb
    have hcount := countP_set hx (Place.holds b) (.calling call false)
    have hheld := h.held b hb
    simp only [Place.holds] at hcount
    rw [hentries]
    simp only
    omega
  · exact h.leaks
  · have hcount := countP_set hx Place.willRecord (.calling call false)
    have hallocs := h.allocs
    simp only [Place.willRecord] at hcount
    simp only [klcAddBadFree]
    omega
  · intro b
    have hcount := countP_set hx (Place.reported b) (.calling call false)
    have hbad := h.badFrees b
    simp only [Place.reported, hp, Bool.not_false, Bool.true_and, Bool.toNat_false,
      toNat_some_beq_some] at hcount
    simp only [klcAddBadFree, List.map_cons, List.count_cons]
    omega

theorem State.Books.record {ret : Addr} {mbi : MemblockInfo} (h : s.Books)
    (hx : s.threads[thread]? = some (.returned call ret)) (hmbi : call.records ret = some mbi) :
    State.Books { s with
      storage := klcAddAlloc s.storage mbi.block mbi.size
      threads := s.threads.set thread .idle } := by
  have hentries : ∀ b, State.entries { s with
      storage := klcAddAlloc s.storage mbi.block mbi.size
      threads := s.threads.set thread .idle } b = s.entries b := by
    intro b
    have hcount := countP_set hx (Place.recording b) .idle
    simp only [Place.recording, hmbi, Option.map_some, Bool.toNat_false, toNat_some_beq_some]
      at hcount
    simp only [State.entries, Storage.blocks, klcAddAlloc, List.map_cons, List.count_cons]
    omega
  constructor
  · intro b
    rw [hentries]
    exact h.once b
  · intro b hb
    rw [hentries] at hb
    exact h.live b hb
  · intro b hb
    have hcount := countP_set hx (Place.holds b) .idle
    have hheld := h.held b hb
    simp only [Place.holds] at hcount
    rw [hentries]
    simp only
    omega
  · have hleaks := h.leaks
    simp only [klcAddAlloc, List.length_cons]
    omega
  · have hcount := countP_set hx Place.willRecord .idle
    have hallocs := h.allocs
    simp only [Place.willRecord, hmbi, Option.isSome_some, Bool.toNat_true, Bool.toNat_false]
      at hcount
    simp only [klcAddAlloc]
    omega
  · intro b
    have hcount := countP_set hx (Place.reported b) .idle
    have hbad := h.badFrees b
    simp only [Place.reported] at hcount
    simp only [klcAddAlloc]
    omega

theorem entries_eq_zero
    (h : p ∉ s.storage.blocks ∧ ∀ place ∈ s.threads, place.recording p = false) :
    s.entries p = 0 := by
  rw [State.entries, List.count_eq_zero.mpr h.1, List.countP_eq_zero.mpr]
  intro place hplace
  rw [h.2 place hplace]
  exact Bool.false_ne_true

theorem State.Books.real {found : Bool} {real : RealCall} (h : s.Books)
    (hx : s.threads[thread]? = some (.calling call found)) (hreal : RealSpec s.live call real)
    (hfree : ∀ p, call.releases = some p → s.entries p = 0) :
    (s.realCall thread call found real).Books := by
  have hfreed := hreal.freed
  have hrecording : ∀ b, (Place.returned call real.ret).recording b = (real.allocated == some b) := by
    intro b
    rw [Place.recording, hreal.allocated]
  have hentries : ∀ b, (s.realCall thread call found real).entries b =
      s.entries b + (real.allocated == some b).toNat := by
    intro b
    have hcount := countP_set hx (Place.recording b) (.returned call real.ret)
    rw [hrecording] at hcount
    simp only [Place.recording, Bool.toNat_false] at hcount
    simp only [State.entries, State.realCall]
    omega
  -- the new block has no record yet
  have hfresh : ∀ b, real.allocated = some b → s.entries b = 0 := by
    intro b hb
    rcases hreal.fresh b hb with hlive | hreleases
    · exact Nat.eq_zero_of_not_pos fun hpos => hlive (h.live b hpos)
    · exact hfree b hreleases
  have hlive : ∀ b, b ∈ (s.realCall thread call found real).live ↔
      (b ∈ s.live ∧ call.releases ≠ some b) ∨ real.allocated = some b := by
    intro b
    simp only [State.realCall, Finset.mem_union, Finset.mem_sdiff, Option.mem_toFinset,
      Option.mem_def, hfreed, ne_eq]
  constructor
  · intro b
    rw [hentries]
    by_cases hb : real.allocated = some b
    · rw [hfresh b hb]
      exact (Nat.zero_add _).le.trans (Bool.toNat_le _)
    · have hne : (real.allocated == some b) = false := by simpa using hb
      rw [hne]
      exact h.once b
  · intro b hb
    rw [hlive]
    by_cases hallocated : real.allocated = some b
    · exact Or.inr hallocated
    · have hne : (real.allocated == some b) = false := by simpa using hallocated
      rw [hentries, hne] at hb
      refine Or.inl ⟨h.live b hb, fun hreleases => ?_⟩
      rw [hfree b hreleases] at hb
      exact absurd hb (Nat.lt_irrefl 0)
  · intro b hb
    rw [hentries]
    rcases (hlive b).mp hb with ⟨hb, hreleases⟩ | hallocated
    · have hcount := countP_set hx (Place.holds b) (.returned call real.ret)
      have hheld := h.held b hb
      have hne : (call.releases == some b) = false := by simpa using hreleases
      simp only [Place.holds, hne, Bool.toNat_false] at hcount
      simp only [State.realCall]
      omega
    · rw [hallocated]
      simp
  · exact h.leaks
  · have hcount := countP_set hx Place.willRecord (.returned call real.ret)
    have hallocs := h.allocs
    have hwill : (call.records real.ret).isSome.toNat = real.allocated.toList.length := by
      rw [← hreal.allocated]
      cases call.records real.ret <;> rfl
    simp only [Place.willRecord, hwill, Bool.toNat_false] at hcount
    simp only [State.realCall]
    omega
  · intro b
    have hcount := countP_set hx (Place.reported b) (.returned call real.ret)
    have hbad := h.badFrees b
    simp only [Place.reported, Bool.toNat_false] at hcount
    simp only [State.realCall, List.count_append, hfreed]
    have htoList : call.releases.toList.count b = (call.releases == some b).toNat := by
      cases call.releases with
      | none => rfl
      | some p => rw [Option.toList_some, List.count_singleton, toNat_some_beq_some]
    cases found with
    | true =>
      simp only [Bool.not_true, Bool.false_and, Bool.toNat_false] at hcount
      simp only [if_true, List.count_nil]
      omega
    | false =>
      simp only [Bool.not_false, Bool.true_and] at hcount
      simp only [Bool.false_eq_true, if_false, htoList]
      omega

theorem State.Books.spawn (h : s.Books) :
    State.Books { s with threads := s.threads ++ [.idle] } := by
  have hcount : ∀ p : Place → Bool, p .idle = false →
      (s.threads ++ [Place.idle]).countP p = s.threads.countP p := by
    intro p hp
    rw [List.countP_append, List.countP_singleton, hp]
    rfl
  have hentries : ∀ b,
      State.entries { s with threads := s.threads ++ [.idle] } b = s.entries b := by
    intro b
    rw [State.entries, State.entries, hcount (Place.recording b) rfl]
  constructor
  · intro b
    rw [hentries]
    exact h.once b
  · intro b hb
    rw [hentries] at hb
    exact h.live b hb
  · intro b hb
    rw [hentries, hcount _ rfl]
    exact h.held b hb
  · exact h.leaks
  · rw [hcount _ rfl]
    exact h.allocs
  · intro b
    rw [hcount _ rfl]
    exact h.badFrees b

theorem State.Books.runAt {place : Place} (h : s.Books) (hx : s.threads[thread]? = some place)
    (hkeeps : KeepsBooks s (.run thread outcome)) (hrun : s.runAt thread outcome place = some s') :
    s'.Books := by
  cases place with
  | idle => cases hrun
  | entered call =>
    simp only [State.runAt] at hrun
    cases hp : call.releases with
    | none =>
      rw [hp] at hrun
      obtain rfl := Option.some.inj hrun
      refine h.move hx (fun _ => rfl) (fun _ hb => (by cases hb)) rfl fun _ => ?_
      rw [Place.reported, hp]
      rfl
    | some p =>
      rw [hp] at hrun
      obtain rfl := Option.some.inj hrun
      exact h.remove hx hp
  | missed call =>
    simp only [State.runAt] at hrun
    cases hp : call.releases with
    | none =>
      rw [hp] at hrun
      cases hrun
    | some p =>
      rw [hp] at hrun
      obtain rfl := Option.some.inj hrun
      exact h.report hx hp
  | calling call found =>
    obtain ⟨real, hreal, rfl⟩ := Option.map_eq_some_iff.mp hrun
    obtain ⟨hclean, hfree⟩ := hkeeps call found hx
    exact h.real hx (realSpec hreal hclean) fun p hp => entries_eq_zero (hfree p hp)
  | returned call ret =>
    simp only [State.runAt] at hrun
    cases hrecords : call.records ret with
    | none =>
      rw [hrecords] at hrun
      obtain rfl := Option.some.inj hrun
      refine h.move hx (fun _ => ?_) (fun _ hb => (by cases hb)) ?_ fun _ => rfl
      · simp [Place.recording, hrecords]
      · simp [Place.willRecord, hrecords]
    | some mbi =>
      rw [hrecords] at hrun
      obtain rfl := Option.some.inj hrun
      exact h.record hx hrecords

/-- An event keeps the books, under the condition that `KeepsBooks` puts on it. -/
theorem State.Books.step
    (h : s.Books) (hkeeps : KeepsBooks s a) (hstep : s.step a = some s') : s'.Books := by
  cases a with
  | spawn =>
    obtain rfl := Option.some.inj hstep
    exact h.spawn
  | call thread call =>
    rw [State.step] at hstep
    split_ifs at hstep with hidle
    obtain rfl := Option.some.inj hstep
    exact h.move hidle (fun _ => rfl) (fun _ hb => (by cases hb)) rfl fun _ => rfl
  | run thread outcome =>
    obtain ⟨place, hplace, hrun⟩ := Option.bind_eq_some_iff.mp hstep
    exact h.runAt hplace hkeeps hrun

theorem Reachable.books (h : Reachable KeepsBooks s) : s.Books := by
  induction h with
  | init => exact Books.init
  | step _ hkeeps hstep ih => exact ih.step hkeeps hstep

/-- No replacement function is in progress. -/
def State.Quiet (s : State) : Prop := ∀ place ∈ s.threads, place = .idle

/-- The reported leaks are exactly the live blocks, and the statistics are right. -/
structure State.ReportsLeaks (s : State) : Prop where
  once : s.storage.blocks.Nodup
  records : ∀ b, b ∈ s.storage.blocks ↔ b ∈ s.live
  badFrees : (s.storage.badFreeList.map MemblockInfo.block).Perm s.unrecorded
  leaks : s.storage.totalLeaks = s.storage.allocList.length
  allocs : s.storage.totalAllocs = s.succeeded

theorem State.Quiet.countP (h : s.Quiet) {p : Place → Bool} (hp : p .idle = false) :
    s.threads.countP p = 0 := by
  rw [List.countP_eq_zero]
  intro place hplace
  rw [h place hplace, hp]
  exact Bool.false_ne_true

/--
When no replacement function is in progress, the reported leaks are exactly the live blocks, in all
runs in which no `krealloc` of a block fails, nothing of the length 0 is duplicated, and nobody
frees a block that another thread has just got.
-/
theorem reportsLeaks_of_keepsBooks
    (h : Reachable KeepsBooks s) (hquiet : s.Quiet) : s.ReportsLeaks := by
  have hbooks := h.books
  have hentries : ∀ b, s.entries b = s.storage.blocks.count b := by
    intro b
    rw [State.entries, hquiet.countP rfl]
    rfl
  constructor
  · exact List.nodup_iff_count_le_one.mpr fun b => (hentries b) ▸ hbooks.once b
  · intro b
    rw [← List.count_pos_iff, ← hentries]
    refine ⟨hbooks.live b, fun hb => ?_⟩
    have hheld := hbooks.held b hb
    rwa [hquiet.countP rfl] at hheld
  · refine List.perm_iff_count.mpr fun b => ?_
    rw [hbooks.badFrees b, hquiet.countP rfl]
    rfl
  · exact hbooks.leaks
  · rw [← hbooks.allocs, hquiet.countP rfl]
    rfl

/-- A `krealloc` that fails is counted as an allocation. -/
theorem not_reportsLeaks_failed_krealloc :
    ¬ ∀ s, Reachable (fun _ _ => True) s → s.Quiet → s.ReportsLeaks := by
  intro h
  have hallocated : Reachable (fun _ _ => True) _ :=
    Reachable.init.step (a := .spawn) trivial rfl
      |>.step (a := .call 0 (.alloc (.kmalloc 32))) trivial rfl
      |>.step (a := .run 0 .done) trivial rfl
      |>.step (a := .run 0 (.block 4096)) trivial rfl
      |>.step (a := .run 0 .done) trivial rfl
  have hfailed : Reachable (fun _ _ => True) _ :=
    hallocated.step (a := .call 0 (.krealloc 4096 64)) trivial rfl
      |>.step (a := .run 0 .done) trivial rfl
      |>.step (a := .run 0 (.failed 11)) trivial rfl
      |>.step (a := .run 0 .done) trivial rfl
  have hallocs := (h _ hfailed fun place hplace => List.mem_singleton.mp hplace).allocs
  cases hallocs

/-- A block is allocated by one thread and freed by another. -/
theorem reportsLeaks_of_keepsBooks_twoThreads :
    ∃ s : State, s.succeeded = 1 ∧ s.live = ∅ ∧ s.threads.length = 2 ∧ s.Quiet ∧
      s.ReportsLeaks := by
  have hallocated : Reachable KeepsBooks _ :=
    Reachable.init.step (a := .spawn) trivial rfl
      |>.step (a := .spawn) trivial rfl
      |>.step (a := .call 0 (.alloc (.kmalloc 32))) trivial rfl
      |>.step (a := .run 0 .done) (fun _ _ hplace => (by cases hplace)) rfl
      |>.step (a := .run 0 (.block 4096))
        (fun _ _ hplace => (by cases hplace; exact ⟨trivial, fun _ hp => (by cases hp)⟩)) rfl
      |>.step (a := .run 0 .done) (fun _ _ hplace => (by cases hplace)) rfl
  have hfreed : Reachable KeepsBooks _ :=
    hallocated.step (a := .call 1 (.free .kfree 4096)) trivial rfl
      |>.step (a := .run 1 .done) (fun _ _ hplace => (by cases hplace)) rfl
      |>.step (a := .run 1 .done)
        (fun _ _ hplace => (by
          cases hplace
          refine ⟨trivial, fun p _ => ⟨fun hp => (by cases hp), fun place hplace => ?_⟩⟩
          rcases List.mem_pair.mp hplace with rfl | rfl <;> rfl)) rfl
      |>.step (a := .run 1 .done) (fun _ _ hplace => (by cases hplace)) rfl
  refine ⟨_, rfl, rfl, rfl, ?_, reportsLeaks_of_keepsBooks hfreed ?_⟩
  all_goals
    intro place hplace
    rcases List.mem_pair.mp hplace with rfl | rfl <;> rfl

end LeakCheck
end KedrAux
