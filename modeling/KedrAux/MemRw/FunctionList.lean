import KedrAux.Lib.SortedGaps
import KedrAux.MemRw.Instructions

/-!
# The functions of a module and their extents

The functions are found among the symbols of the system.  Their sizes are the distances between
neighbours in an array of all the functions and of the ends of the areas of code, which is sorted by
address.  Functions of size zero are aliases and are dropped.
-/

namespace KedrAux
namespace MemRw
namespace FunctionList

open SortedGaps

/-- A symbol with the module it belongs to, which is given by its address. -/
structure Symbol where
  name : String
  mod : Nat
  addr : Nat
deriving DecidableEq

structure TmodFunction where
  addr : Nat
  size : Nat
  name : String
deriving DecidableEq

/-- Pointers to functions: the allocated ones and the two on the stack. -/
inductive Ptr where
  | node (n : Nat)
  | initTextEnd
  | coreTextEnd
deriving DecidableEq

structure Area where
  start : Nat
  stop : Nat
deriving DecidableEq

def Area.Contains (area : Area) (addr : Nat) : Prop := area.start ≤ addr ∧ addr < area.stop

/-- The part of `struct module` that is used here, and its address. -/
structure TargetModule where
  self : Nat
  moduleInit : Nat
  initTextSize : Nat
  moduleCore : Nat
  coreTextSize : Nat
deriving DecidableEq

/-- The global data; memory is allocated for one function after another. -/
structure State where
  mem : Ptr → TmodFunction
  tmodFuncs : List Ptr
  numFuncs : Nat

inductive LoadError where
  | enomem
  /-- `BUG_ON` was hit. -/
  | bug
deriving DecidableEq

/-- The parameters: the architecture, which calls of `kzalloc` succeed, and the sorting function of
the kernel. -/
structure Kernel where
  arch : Arch
  kzalloc : Nat → Bool
  sort : (Ptr → Ptr → Int) → List Ptr → List Ptr

section Definitions

variable (kernel : Kernel) (target : TargetModule)

def TargetModule.initText : Area :=
  ⟨target.moduleInit, (target.moduleInit + target.initTextSize) % 2 ^ kernel.arch.bits⟩

def TargetModule.coreText : Area :=
  ⟨target.moduleCore, (target.moduleCore + target.coreTextSize) % 2 ^ kernel.arch.bits⟩

/-- The pointers that stand for the ends of the areas of code, with these areas. -/
def TargetModule.textEnds : List (Ptr × Area) :=
  (if target.moduleInit ≠ 0 then [(.initTextEnd, target.initText kernel)] else []) ++
    (if target.moduleCore ≠ 0 then [(.coreTextEnd, target.coreText kernel)] else [])

def setAddr (mem : Ptr → TmodFunction) (p : Ptr) (addr : Nat) : Ptr → TmodFunction :=
  Function.update mem p { mem p with addr := addr }

def setSize (mem : Ptr → TmodFunction) (p : Ptr) (size : Nat) : Ptr → TmodFunction :=
  Function.update mem p { mem p with size := size }

/-- Called for each function found in the target module. -/
def doProcessFunction (name : String) (addr : Nat) (s : State) : Except LoadError State :=
  if kernel.kzalloc s.numFuncs then
    let tf := Ptr.node s.numFuncs
    .ok ⟨Function.update s.mem tf ⟨addr, 0, name⟩, tf :: s.tmodFuncs, s.numFuncs + 1⟩
  else .error .enomem

def isTextAddress (addr : Nat) : Bool :=
  (target.moduleCore ≠ 0 && addr ≥ target.moduleCore && addr < (target.coreText kernel).stop) ||
    (target.moduleInit ≠ 0 && addr ≥ target.moduleInit && addr < (target.initText kernel).stop)

def Symbol.isFunction (sym : Symbol) : Bool :=
  sym.mod = target.self && sym.name ≠ "" && isTextAddress kernel target sym.addr &&
    sym.name ≠ "init_module" && sym.name ≠ "cleanup_module"

/-- Called for each symbol known to the system. -/
def symbolWalkCallback (s : State) (sym : Symbol) : Except LoadError State :=
  if sym.isFunction kernel target then doProcessFunction kernel sym.name sym.addr s else .ok s

def functionCompareByAddress (mem : Ptr → TmodFunction) (left right : Ptr) : Int :=
  if (mem left).addr = (mem right).addr then 0
  else if (mem left).addr < (mem right).addr then -1
  else 1

/-- The loop over the sorted array, from the last but one element down to the first one. -/
def setSizes (mem : Ptr → TmodFunction) : List Ptr → Ptr → TmodFunction
  | p :: q :: pfuncs =>
    let mem := setSizes mem (q :: pfuncs)
    setSize mem p (((mem q).addr + 2 ^ kernel.arch.bits - (mem p).addr) % 2 ^ kernel.arch.bits)
  | _ => mem

def tmodFuncsRemoveAliases (s : State) : State :=
  { s with tmodFuncs := s.tmodFuncs.filter fun p => (s.mem p).size ≠ 0 }

/-- The array of all functions and of the ends of the areas, before it is sorted. -/
def pfuncs (s : State) : List Ptr := s.tmodFuncs ++ (target.textEnds kernel).map Prod.fst

/-- The memory with the addresses of the ends of the areas. -/
def withTextEnds (s : State) : Ptr → TmodFunction :=
  (target.textEnds kernel).foldl (fun mem e => setAddr mem e.1 e.2.stop) s.mem

def computeSizes (s : State) : State :=
  let mem := withTextEnds kernel target s
  let array := kernel.sort (functionCompareByAddress mem) (pfuncs kernel target s)
  { s with mem := setSizes kernel mem array }

def kedrLoadFunctionList (symbols : List Symbol) (s : State) : Except LoadError State := do
  let s ← symbols.foldlM (symbolWalkCallback kernel target) s
  if s.numFuncs = 0 then .ok s
  else if kernel.kzalloc s.numFuncs = false then .error .enomem
  else
    let s := tmodFuncsRemoveAliases (computeSizes kernel target s)
    if s.tmodFuncs = [] then .error .bug else .ok s

end Definitions

/-- The result is the given elements, in an order that agrees with a total preorder; the order of
equal elements is not specified. -/
structure Sorts {α : Type} (sort : (α → α → Int) → List α → List α) : Prop where
  perm : ∀ cmp xs, (sort cmp xs).Perm xs
  pairwise : ∀ cmp xs, (∀ x y, cmp x y ≤ 0 ∨ cmp y x ≤ 0) →
    (∀ x y z, cmp x y ≤ 0 → cmp y z ≤ 0 → cmp x z ≤ 0) →
    (sort cmp xs).Pairwise fun x y => cmp x y ≤ 0

def TargetModule.areas (kernel : Kernel) (target : TargetModule) : List Area :=
  (target.textEnds kernel).map Prod.snd

/-- The areas are not empty, and they neither overlap nor touch each other. -/
structure TargetModule.Apart (kernel : Kernel) (target : TargetModule) : Prop where
  nonempty : ∀ area ∈ target.areas kernel, area.start < area.stop
  apart : (target.areas kernel).Pairwise fun a b => a.stop < b.start ∨ b.stop < a.start

/-- What the extents of the functions should be: of the functions with one address exactly one is
left, and in each area their ranges go from the lowest function to the end of the area. -/
structure Extents (kernel : Kernel) (target : TargetModule) (found : List Symbol) (s : State) :
    Prop where
  distinct : s.tmodFuncs.Pairwise fun p q => (s.mem p).addr ≠ (s.mem q).addr
  nonzero : ∀ p ∈ s.tmodFuncs, (s.mem p).size ≠ 0
  known : ∀ p ∈ s.tmodFuncs, ∃ sym ∈ found,
    (s.mem p).addr = sym.addr ∧ (s.mem p).name = sym.name
  one : ∀ sym ∈ found, ∃! p, p ∈ s.tmodFuncs ∧ (s.mem p).addr = sym.addr
  disjoint : s.tmodFuncs.Pairwise fun p q =>
    (s.mem p).addr + (s.mem p).size ≤ (s.mem q).addr ∨
      (s.mem q).addr + (s.mem q).size ≤ (s.mem p).addr
  cover : ∀ area ∈ target.areas kernel, ∀ v,
    (∃ p ∈ s.tmodFuncs, area.Contains (s.mem p).addr ∧
      (s.mem p).addr ≤ v ∧ v < (s.mem p).addr + (s.mem p).size) ↔
    (∃ sym ∈ found, area.Contains sym.addr ∧ sym.addr ≤ v) ∧ v < area.stop

variable {area : Area}

section Areas

variable {kernel : Kernel} {target : TargetModule}

@[simp] theorem TargetModule.mem_areas : area ∈ target.areas kernel ↔
    ∃ p, (p, area) ∈ target.textEnds kernel := by
  simp [TargetModule.areas]

theorem TargetModule.stop_lt (h : area ∈ target.areas kernel) : area.stop < 2 ^ kernel.arch.bits := by
  obtain ⟨p, hp⟩ := mem_areas.mp h
  simp only [textEnds, List.mem_append, List.mem_ite_nil_right, List.mem_singleton,
    Prod.mk.injEq] at hp
  rcases hp with ⟨-, -, rfl⟩ | ⟨-, -, rfl⟩
  · exact Nat.mod_lt _ (Nat.two_pow_pos _)
  · exact Nat.mod_lt _ (Nat.two_pow_pos _)

@[simp] theorem isTextAddress_iff {addr : Nat} : isTextAddress kernel target addr = true ↔
    ∃ area ∈ target.areas kernel, area.Contains addr := by
  simp only [isTextAddress, TargetModule.areas, TargetModule.textEnds]
  by_cases hinit : target.moduleInit = 0 <;> by_cases hcore : target.moduleCore = 0 <;>
    simp only [hinit, hcore, Area.Contains, ne_eq, not_true_eq_false, not_false_eq_true,
      decide_true, decide_false, Bool.true_and, Bool.false_and, Bool.or_false, Bool.false_or,
      Bool.or_eq_true, Bool.and_eq_true, decide_eq_true_eq, if_true, if_false] <;>
    simp [TargetModule.initText, TargetModule.coreText, or_comm]

theorem TargetModule.Apart.stop_outside (h : target.Apart kernel) {a b : Area}
    (ha : a ∈ target.areas kernel) (hb : b ∈ target.areas kernel) : ¬a.Contains b.stop := by
  intro hin
  have hpos := h.nonempty b hb
  by_cases hab : a = b
  · rw [hab] at hin
    exact Nat.lt_irrefl _ hin.2
  · have : Std.Symm fun a b : Area => a.stop < b.start ∨ b.stop < a.start :=
      ⟨fun _ _ => Or.symm⟩
    rcases h.apart.forall ha hb hab with hlt | hlt
    · have := hin.2
      omega
    · have := hin.1
      omega

theorem withTextEnds_node (s : State) (n : Nat) :
    withTextEnds kernel target s (.node n) = s.mem (.node n) := by
  simp only [withTextEnds, TargetModule.textEnds]
  by_cases hinit : target.moduleInit = 0 <;> by_cases hcore : target.moduleCore = 0 <;>
    simp [hinit, hcore, setAddr, Function.update]

theorem withTextEnds_addr (s : State) {p : Ptr} (h : (p, area) ∈ target.textEnds kernel) :
    (withTextEnds kernel target s p).addr = area.stop := by
  simp only [withTextEnds, TargetModule.textEnds] at h ⊢
  by_cases hinit : target.moduleInit = 0 <;> by_cases hcore : target.moduleCore = 0 <;>
    simp only [hinit, hcore, ne_eq, not_true_eq_false, not_false_eq_true, if_true, if_false,
      List.nil_append, List.append_nil, List.not_mem_nil, List.cons_append,
      List.mem_cons, or_false, Prod.mk.injEq] at h
  · obtain ⟨rfl, rfl⟩ := h
    simp [hinit, hcore, setAddr]
  · obtain ⟨rfl, rfl⟩ := h
    simp [hinit, hcore, setAddr]
  · rcases h with ⟨rfl, rfl⟩ | ⟨rfl, rfl⟩ <;>
      simp [hinit, hcore, setAddr, Function.update]

end Areas

/-- The functions in the list are the symbols found so far, each once. -/
structure Loaded (found : List Symbol) (s : State) : Prop where
  nodup : s.tmodFuncs.Nodup
  num : s.numFuncs = found.length
  node : ∀ p ∈ s.tmodFuncs, ∃ n, p = .node n ∧ n < s.numFuncs
  sound : ∀ p ∈ s.tmodFuncs, ∃ sym ∈ found, s.mem p = ⟨sym.addr, 0, sym.name⟩
  complete : ∀ sym ∈ found, ∃ p ∈ s.tmodFuncs, (s.mem p).addr = sym.addr

variable {found : List Symbol}

section Walk

variable {kernel : Kernel} {target : TargetModule}

variable {symbols : List Symbol} {s s' : State}

theorem doProcessFunction_loaded (h : Loaded found s) {sym : Symbol}
    (hrun : doProcessFunction kernel sym.name sym.addr s = .ok s') :
    Loaded (found ++ [sym]) s' := by
  rw [doProcessFunction] at hrun
  split at hrun
  · cases hrun
    have hfresh : ∀ p ∈ s.tmodFuncs, p ≠ .node s.numFuncs := by
      rintro p hp rfl
      obtain ⟨n, hn, hlt⟩ := h.node _ hp
      cases hn
      exact Nat.lt_irrefl _ hlt
    have hmem : ∀ p ∈ s.tmodFuncs,
        Function.update s.mem (.node s.numFuncs) ⟨sym.addr, 0, sym.name⟩ p = s.mem p :=
      fun p hp => Function.update_of_ne (hfresh p hp) _ _
    constructor
    · exact List.nodup_cons.mpr ⟨fun hin => hfresh _ hin rfl, h.nodup⟩
    · simp [h.num]
    · intro p hp
      rcases List.mem_cons.mp hp with rfl | hp
      · exact ⟨_, rfl, Nat.lt_succ_self _⟩
      · obtain ⟨n, hn, hlt⟩ := h.node p hp
        exact ⟨n, hn, Nat.lt_succ_of_lt hlt⟩
    · intro p hp
      rcases List.mem_cons.mp hp with rfl | hp
      · exact ⟨sym, by simp, Function.update_self ..⟩
      · obtain ⟨sym', hsym', heq⟩ := h.sound p hp
        exact ⟨sym', List.mem_append_left _ hsym', (hmem p hp).trans heq⟩
    · intro sym' hsym'
      rcases List.mem_append.mp hsym' with hin | hin
      · obtain ⟨p, hp, heq⟩ := h.complete sym' hin
        refine ⟨p, List.mem_cons_of_mem _ hp, ?_⟩
        dsimp only
        rw [hmem p hp, heq]
      · rw [List.mem_singleton.mp hin]
        refine ⟨.node s.numFuncs, List.mem_cons_self, ?_⟩
        dsimp only
        rw [Function.update_self]
  · cases hrun

theorem foldlM_symbolWalkCallback_loaded (h : Loaded found s)
    (hrun : symbols.foldlM (symbolWalkCallback kernel target) s = .ok s') :
    Loaded (found ++ symbols.filter (Symbol.isFunction kernel target)) s' := by
  induction symbols generalizing found s with
  | nil =>
    cases hrun
    simpa using h
  | cons sym symbols ih =>
    rw [List.foldlM_cons, symbolWalkCallback] at hrun
    by_cases hfun : sym.isFunction kernel target = true
    · rw [if_pos hfun] at hrun
      cases hstep : doProcessFunction kernel sym.name sym.addr s with
      | error e => rw [hstep] at hrun; cases hrun
      | ok s1 =>
        rw [hstep] at hrun
        have := ih (doProcessFunction_loaded h hstep) hrun
        rwa [List.filter_cons_of_pos hfun, List.append_cons]
    · rw [if_neg hfun] at hrun
      rw [List.filter_cons_of_neg hfun]
      exact ih h hrun

theorem foldlM_symbolWalkCallback_error {e : LoadError}
    (hrun : symbols.foldlM (symbolWalkCallback kernel target) s = .error e) :
    e = .enomem ∧ ∃ n, kernel.kzalloc n = false := by
  induction symbols generalizing s with
  | nil => cases hrun
  | cons sym symbols ih =>
    rw [List.foldlM_cons] at hrun
    cases hstep : symbolWalkCallback kernel target s sym with
    | ok s1 =>
      rw [hstep] at hrun
      exact ih hrun
    | error e1 =>
      rw [hstep] at hrun
      cases hrun
      rw [symbolWalkCallback, doProcessFunction] at hstep
      split at hstep
      · split at hstep
        · cases hstep
        · next hfail =>
            cases hstep
            exact ⟨rfl, _, Bool.eq_false_iff.mpr hfail⟩
      · cases hstep

end Walk

section Sizes

variable {kernel : Kernel}

theorem setSizes_addr (mem : Ptr → TmodFunction) (xs : List Ptr) (p : Ptr) :
    (setSizes kernel mem xs p).addr = (mem p).addr := by
  induction xs with
  | nil => rfl
  | cons x xs ih =>
    cases xs with
    | nil => rfl
    | cons y xs =>
      rw [setSizes, setSize]
      by_cases hp : p = x
      · rw [hp] at ih ⊢
        rw [Function.update_self]
        exact ih
      · rw [Function.update_of_ne hp]
        exact ih

theorem setSizes_name (mem : Ptr → TmodFunction) (xs : List Ptr) (p : Ptr) :
    (setSizes kernel mem xs p).name = (mem p).name := by
  induction xs with
  | nil => rfl
  | cons x xs ih =>
    cases xs with
    | nil => rfl
    | cons y xs =>
      rw [setSizes, setSize]
      by_cases hp : p = x
      · rw [hp] at ih ⊢
        rw [Function.update_self]
        exact ih
      · rw [Function.update_of_ne hp]
        exact ih

theorem setSizes_size {mem : Ptr → TmodFunction} {xs : List Ptr} (hnodup : xs.Nodup)
    (hsorted : Sorted (fun p => (mem p).addr) xs)
    (hlt : ∀ p ∈ xs, (mem p).addr < 2 ^ kernel.arch.bits) {p : Ptr} {n : Nat}
    (hp : (p, n) ∈ gaps (fun p => (mem p).addr) xs) : (setSizes kernel mem xs p).size = n := by
  induction xs with
  | nil => simp [gaps] at hp
  | cons x xs ih =>
    cases xs with
    | nil => simp [gaps] at hp
    | cons y xs =>
      obtain ⟨hx, hnodup'⟩ := List.nodup_cons.mp hnodup
      obtain ⟨hle, hsorted'⟩ := List.pairwise_cons.mp hsorted
      have hxy := hle y List.mem_cons_self
      have hy := hlt y (List.mem_cons_of_mem _ List.mem_cons_self)
      rw [setSizes, setSize]
      rw [gaps_cons_cons] at hp
      rcases List.mem_cons.mp hp with heq | hin
      · cases heq
        rw [Function.update_self]
        dsimp only at hxy ⊢
        rw [setSizes_addr, setSizes_addr,
          show (mem y).addr + 2 ^ kernel.arch.bits - (mem p).addr =
            (mem y).addr - (mem p).addr + 2 ^ kernel.arch.bits by omega,
          Nat.add_mod_right, Nat.mod_eq_of_lt (by omega)]
      · have hne : p ≠ x := fun heq => hx (heq ▸ fst_mem_of_mem_gaps hin)
        rw [Function.update_of_ne hne]
        exact ih hnodup' hsorted' (fun q hq => hlt q (List.mem_cons_of_mem _ hq)) hin

end Sizes

section Array

variable {kernel : Kernel} {target : TargetModule} {s : State}

def address (kernel : Kernel) (target : TargetModule) (s : State) (p : Ptr) : Nat :=
  (withTextEnds kernel target s p).addr

def array (kernel : Kernel) (target : TargetModule) (s : State) : List Ptr :=
  kernel.sort (functionCompareByAddress (withTextEnds kernel target s)) (pfuncs kernel target s)

variable {p : Ptr} {n : Nat}

theorem functionCompareByAddress_nonpos {mem : Ptr → TmodFunction} {q : Ptr} :
    functionCompareByAddress mem p q ≤ 0 ↔ (mem p).addr ≤ (mem q).addr := by
  rw [functionCompareByAddress]
  split_ifs <;> omega

theorem array_sorted (hsort : Sorts kernel.sort) :
    Sorted (address kernel target s) (array kernel target s) := by
  have h := hsort.pairwise (functionCompareByAddress (withTextEnds kernel target s))
    (pfuncs kernel target s) ?_ ?_
  · exact h.imp functionCompareByAddress_nonpos.mp
  · intro p q
    rw [functionCompareByAddress_nonpos, functionCompareByAddress_nonpos]
    exact Nat.le_total _ _
  · intro p q r
    rw [functionCompareByAddress_nonpos, functionCompareByAddress_nonpos,
      functionCompareByAddress_nonpos]
    exact Nat.le_trans

theorem mem_array (hsort : Sorts kernel.sort) : p ∈ array kernel target s ↔
    p ∈ s.tmodFuncs ∨ ∃ area, (p, area) ∈ target.textEnds kernel := by
  rw [array, (hsort.perm _ _).mem_iff, pfuncs]
  simp

theorem not_mem_textEnds_node : (Ptr.node n, area) ∉ target.textEnds kernel := by
  simp [TargetModule.textEnds]

theorem array_nodup (hsort : Sorts kernel.sort) (h : Loaded found s) :
    (array kernel target s).Nodup := by
  rw [array, (hsort.perm _ _).nodup_iff, pfuncs, List.nodup_append]
  refine ⟨h.nodup, ?_, ?_⟩
  · rw [TargetModule.textEnds]
    split_ifs <;> simp
  · rintro p hp q hq rfl
    obtain ⟨n, rfl, -⟩ := h.node p hp
    obtain ⟨⟨-, area⟩, hin, rfl⟩ := List.mem_map.mp hq
    exact not_mem_textEnds_node hin

theorem address_of_loaded (h : Loaded found s)
    (hfound : ∀ sym ∈ found, sym.isFunction kernel target = true) (hp : p ∈ s.tmodFuncs) :
    (∃ sym ∈ found, address kernel target s p = sym.addr ∧
      (withTextEnds kernel target s p).name = sym.name) ∧
      ∃ area ∈ target.areas kernel, area.Contains (address kernel target s p) := by
  obtain ⟨n, rfl, -⟩ := h.node p hp
  obtain ⟨sym, hsym, hmem⟩ := h.sound _ hp
  have hfun := hfound sym hsym
  simp only [Symbol.isFunction, Bool.and_eq_true] at hfun
  rw [address, withTextEnds_node, hmem]
  exact ⟨⟨sym, hsym, rfl, rfl⟩, isTextAddress_iff.mp hfun.1.1.2⟩

theorem exists_loaded (kernel : Kernel) (target : TargetModule) (h : Loaded found s) {sym : Symbol}
    (hsym : sym ∈ found) : ∃ p ∈ s.tmodFuncs, address kernel target s p = sym.addr := by
  obtain ⟨p, hp, heq⟩ := h.complete sym hsym
  refine ⟨p, hp, ?_⟩
  obtain ⟨n, rfl, -⟩ := h.node p hp
  rw [address, withTextEnds_node]
  exact heq

theorem exists_end (hsort : Sorts kernel.sort) (harea : area ∈ target.areas kernel) :
    ∃ e ∈ array kernel target s, address kernel target s e = area.stop := by
  obtain ⟨e, he⟩ := TargetModule.mem_areas.mp harea
  exact ⟨e, (mem_array hsort).mpr (.inr ⟨area, he⟩), withTextEnds_addr s he⟩

theorem address_lt (hsort : Sorts kernel.sort) (h : Loaded found s)
    (hfound : ∀ sym ∈ found, sym.isFunction kernel target = true) (hp : p ∈ array kernel target s) :
    address kernel target s p < 2 ^ kernel.arch.bits := by
  rcases (mem_array hsort).mp hp with hp | ⟨area, harea⟩
  · obtain ⟨-, area, harea, hin⟩ := address_of_loaded h hfound hp
    exact Nat.lt_trans hin.2 (TargetModule.stop_lt harea)
  · rw [address, withTextEnds_addr s harea]
    exact TargetModule.stop_lt (TargetModule.mem_areas.mpr ⟨p, harea⟩)

theorem mem_tmodFuncs_of_contains (hsort : Sorts kernel.sort) (happart : target.Apart kernel)
    (hp : p ∈ array kernel target s) (harea : area ∈ target.areas kernel)
    (hin : area.Contains (address kernel target s p)) : p ∈ s.tmodFuncs := by
  rcases (mem_array hsort).mp hp with hp | ⟨b, hb⟩
  · exact hp
  · rw [address, withTextEnds_addr s hb] at hin
    exact absurd hin (happart.stop_outside harea (TargetModule.mem_areas.mpr ⟨p, hb⟩))

theorem computeSizes_size (hsort : Sorts kernel.sort) (h : Loaded found s)
    (hfound : ∀ sym ∈ found, sym.isFunction kernel target = true)
    (hp : (p, n) ∈ gaps (address kernel target s) (array kernel target s)) :
    ((computeSizes kernel target s).mem p).size = n :=
  setSizes_size (array_nodup hsort h) (array_sorted hsort)
    (fun _ hq => address_lt hsort h hfound hq) hp

theorem computeSizes_addr (p : Ptr) :
    ((computeSizes kernel target s).mem p).addr = address kernel target s p :=
  setSizes_addr _ _ _

theorem exists_gap_of_loaded (hsort : Sorts kernel.sort) (h : Loaded found s)
    (hfound : ∀ sym ∈ found, sym.isFunction kernel target = true) (hp : p ∈ s.tmodFuncs) :
    (p, ((computeSizes kernel target s).mem p).size) ∈
      gaps (address kernel target s) (array kernel target s) := by
  obtain ⟨-, area, harea, hin⟩ := address_of_loaded h hfound hp
  obtain ⟨e, he, hstop⟩ := exists_end (s := s) hsort harea
  obtain ⟨n, hn⟩ := mem_gaps_of_lt (array_sorted hsort) ((mem_array hsort).mpr (.inl hp)) he
    (by rw [hstop]; exact hin.2)
  rwa [computeSizes_size hsort h hfound hn]

end Array

section Main

variable {kernel : Kernel} {target : TargetModule} {s : State}

section

variable (hsort : Sorts kernel.sort)
include hsort

theorem owner_left (happart : target.Apart kernel) (h : Loaded found s)
    (hfound : ∀ sym ∈ found, sym.isFunction kernel target = true) {g : Ptr × Nat}
    (hg : g ∈ gaps (address kernel target s) (array kernel target s)) (hpos : g.2 ≠ 0)
    (harea : area ∈ target.areas kernel) (hin : area.Contains (address kernel target s g.1)) :
    g.1 ∈ (tmodFuncsRemoveAliases (computeSizes kernel target s)).tmodFuncs ∧
      ((computeSizes kernel target s).mem g.1).size = g.2 := by
  have hsize := computeSizes_size hsort h hfound hg
  have hfunc : g.1 ∈ s.tmodFuncs :=
    mem_tmodFuncs_of_contains hsort happart (fst_mem_of_mem_gaps hg) harea hin
  refine ⟨List.mem_filter.mpr ⟨hfunc, ?_⟩, hsize⟩
  rw [hsize]
  exact decide_eq_true hpos

theorem removeAliases_disjoint (h : Loaded found s)
    (hfound : ∀ sym ∈ found, sym.isFunction kernel target = true) {p q : Ptr}
    (hp : p ∈ s.tmodFuncs) (hq : q ∈ s.tmodFuncs) (hne : p ≠ q) :
    address kernel target s p + ((computeSizes kernel target s).mem p).size ≤
        address kernel target s q ∨
      address kernel target s q + ((computeSizes kernel target s).mem q).size ≤
        address kernel target s p :=
  gaps_disjoint (array_sorted hsort) (exists_gap_of_loaded hsort h hfound hp)
    (exists_gap_of_loaded hsort h hfound hq) hne

theorem exists_left (happart : target.Apart kernel)
    (h : Loaded found s) (hfound : ∀ sym ∈ found, sym.isFunction kernel target = true)
    {sym : Symbol} (hsym : sym ∈ found) :
    ∃ p ∈ (tmodFuncsRemoveAliases (computeSizes kernel target s)).tmodFuncs,
      address kernel target s p = sym.addr := by
  obtain ⟨p, hp, haddr⟩ := exists_loaded kernel target h hsym
  obtain ⟨-, area, harea, hin⟩ := address_of_loaded h hfound hp
  obtain ⟨e, he, hstop⟩ := exists_end (s := s) hsort harea
  obtain ⟨g, hg, hkey, hpos⟩ := exists_owner (array_sorted hsort)
    ((mem_array hsort).mpr (.inl hp)) he (by rw [hstop]; exact hin.2)
  rw [← hkey] at hin
  exact ⟨g.1, (owner_left hsort happart h hfound hg hpos harea hin).1, hkey.trans haddr⟩

/-- In each area the ranges are the addresses from the lowest function up to its end. -/
theorem left_cover (happart : target.Apart kernel) (h : Loaded found s)
    (hfound : ∀ sym ∈ found, sym.isFunction kernel target = true)
    (harea : area ∈ target.areas kernel) (v : Nat) :
    (∃ p ∈ (tmodFuncsRemoveAliases (computeSizes kernel target s)).tmodFuncs,
      area.Contains (address kernel target s p) ∧ address kernel target s p ≤ v ∧
        v < address kernel target s p + ((computeSizes kernel target s).mem p).size) ↔
    (∃ sym ∈ found, area.Contains sym.addr ∧ sym.addr ≤ v) ∧ v < area.stop := by
  obtain ⟨e, he, hstop⟩ := exists_end (s := s) hsort harea
  have hsorted : Sorted (address kernel target s) (array kernel target s) := array_sorted hsort
  constructor
  · rintro ⟨p, hp, hin, hle, hlt⟩
    have hp' := (List.mem_filter.mp hp).1
    obtain ⟨⟨sym, hsym, haddr, -⟩, -⟩ := address_of_loaded h hfound hp'
    refine ⟨⟨sym, hsym, haddr ▸ hin, haddr ▸ hle⟩, ?_⟩
    -- the end of the area does not lie inside the range of the function
    have hgap := gap_empty hsorted (exists_gap_of_loaded hsort h hfound hp') he
    have := hin.2
    dsimp only at hgap
    omega
  · rintro ⟨⟨sym, hsym, hin, hle⟩, hlt⟩
    obtain ⟨p, hp, haddr⟩ := exists_loaded kernel target h hsym
    have hparray : p ∈ array kernel target s := (mem_array hsort).mpr (.inl hp)
    obtain ⟨g, hg, hge, hown⟩ := exists_gap hsorted hparray he (haddr ▸ hle) (hstop ▸ hlt)
    -- the owner is not below the function that was found
    have hgap := gap_empty hsorted hg hparray
    have hgin : area.Contains (address kernel target s g.1) := by
      have := hin.1
      exact ⟨by omega, by omega⟩
    obtain ⟨hleft, hsize⟩ := owner_left hsort happart h hfound hg (by omega) harea hgin
    exact ⟨g.1, hleft, hgin, hge, by rwa [hsize]⟩

theorem removeAliases_extents (happart : target.Apart kernel)
    (h : Loaded found s) (hfound : ∀ sym ∈ found, sym.isFunction kernel target = true) :
    Extents kernel target found (tmodFuncsRemoveAliases (computeSizes kernel target s)) := by
  have hmem : (tmodFuncsRemoveAliases (computeSizes kernel target s)).mem =
      (computeSizes kernel target s).mem := rfl
  have hsub : ∀ p ∈ (tmodFuncsRemoveAliases (computeSizes kernel target s)).tmodFuncs,
      p ∈ s.tmodFuncs ∧ ((computeSizes kernel target s).mem p).size ≠ 0 := by
    intro p hp
    obtain ⟨hin, hsize⟩ := List.mem_filter.mp hp
    exact ⟨hin, of_decide_eq_true hsize⟩
  have hnodup : (tmodFuncsRemoveAliases (computeSizes kernel target s)).tmodFuncs.Nodup :=
    h.nodup.filter _
  -- different functions that are left have disjoint ranges, which are not empty
  have hdisjoint : (tmodFuncsRemoveAliases (computeSizes kernel target s)).tmodFuncs.Pairwise
      fun p q => address kernel target s p + ((computeSizes kernel target s).mem p).size ≤
        address kernel target s q ∨
      address kernel target s q + ((computeSizes kernel target s).mem q).size ≤
        address kernel target s p :=
    hnodup.imp_of_mem fun hp hq hne =>
      removeAliases_disjoint hsort h hfound (hsub _ hp).1 (hsub _ hq).1 hne
  have hdistinct : (tmodFuncsRemoveAliases (computeSizes kernel target s)).tmodFuncs.Pairwise
      fun p q => address kernel target s p ≠ address kernel target s q := by
    refine hdisjoint.imp_of_mem fun hp hq hor => ?_
    have := (hsub _ hp).2
    have := (hsub _ hq).2
    omega
  constructor
  · simpa only [hmem, computeSizes_addr] using hdistinct
  · exact fun p hp => (hsub p hp).2
  · intro p hp
    obtain ⟨⟨sym, hsym, haddr, hname⟩, -⟩ := address_of_loaded h hfound (hsub p hp).1
    refine ⟨sym, hsym, ?_, ?_⟩
    · rw [hmem, computeSizes_addr, haddr]
    · rw [hmem, computeSizes, setSizes_name, hname]
  · intro sym hsym
    obtain ⟨p, hp, haddr⟩ := exists_left hsort happart h hfound hsym
    refine ⟨p, ⟨hp, by rw [hmem, computeSizes_addr, haddr]⟩, ?_⟩
    rintro q ⟨hq, hqaddr⟩
    rw [hmem, computeSizes_addr] at hqaddr
    by_contra hne
    have : Std.Symm fun p q : Ptr =>
        address kernel target s p ≠ address kernel target s q := ⟨fun _ _ => Ne.symm⟩
    exact hdistinct.forall hq hp hne (hqaddr.trans haddr.symm)
  · simpa only [hmem, computeSizes_addr] using hdisjoint
  · intro area harea v
    simp only [hmem, computeSizes_addr]
    exact left_cover hsort happart h hfound harea v

end

def State.initial (mem : Ptr → TmodFunction) : State := ⟨mem, [], 0⟩

theorem State.initial_loaded (mem : Ptr → TmodFunction) : Loaded [] (State.initial mem) :=
  ⟨List.nodup_nil, rfl, by simp [State.initial], by simp [State.initial], by simp⟩

theorem kedrLoadFunctionList_result (hsort : Sorts kernel.sort) (happart : target.Apart kernel)
    (symbols : List Symbol) (mem : Ptr → TmodFunction) :
    (∃ s, kedrLoadFunctionList kernel target symbols (State.initial mem) = .ok s ∧
      Extents kernel target (symbols.filter (Symbol.isFunction kernel target)) s) ∨
    (kedrLoadFunctionList kernel target symbols (State.initial mem) = .error .enomem ∧
      ∃ n, kernel.kzalloc n = false) := by
  cases hwalk : symbols.foldlM (symbolWalkCallback kernel target) (State.initial mem) with
  | error e =>
    obtain ⟨rfl, hfail⟩ := foldlM_symbolWalkCallback_error hwalk
    exact .inr ⟨by rw [kedrLoadFunctionList, hwalk]; rfl, hfail⟩
  | ok s =>
    have h := foldlM_symbolWalkCallback_loaded (State.initial_loaded mem) hwalk
    rw [List.nil_append] at h
    generalize hfounddef : symbols.filter (Symbol.isFunction kernel target) = found at h ⊢
    have hfound : ∀ sym ∈ found, sym.isFunction kernel target = true := by
      rw [← hfounddef]
      exact fun sym hsym => (List.mem_filter.mp hsym).2
    have hext := removeAliases_extents hsort happart h hfound
    by_cases hnum : s.numFuncs = 0
    · -- no functions: nothing to do
      have hnil : found = [] := List.length_eq_zero_iff.mp (h.num ▸ hnum)
      have hempty : s.tmodFuncs = [] := by
        refine List.eq_nil_iff_forall_not_mem.mpr fun p hp => ?_
        obtain ⟨n, -, hlt⟩ := h.node p hp
        omega
      refine .inl ⟨s, ?_, ?_⟩
      · rw [kedrLoadFunctionList, hwalk]
        simp only [bind, Except.bind, if_pos hnum]
      · rw [hnil]
        constructor <;> simp [hempty]
    · by_cases hfail : kernel.kzalloc s.numFuncs = false
      · refine .inr ⟨?_, _, hfail⟩
        rw [kedrLoadFunctionList, hwalk]
        simp only [bind, Except.bind, if_neg hnum, if_pos hfail]
      · refine .inl ⟨_, ?_, hext⟩
        rw [kedrLoadFunctionList, hwalk]
        -- one function of the first group is left, so the list is not empty
        obtain ⟨sym, hsym⟩ := List.exists_mem_of_length_pos
          (Nat.pos_of_ne_zero (h.num ▸ hnum))
        obtain ⟨p, hp, -⟩ := exists_left hsort happart h hfound hsym
        simp only [bind, Except.bind, if_neg hnum, if_neg hfail,
          if_neg (List.ne_nil_of_mem hp)]

/-- Whenever the functions are loaded, their extents tile the code of the module; loading fails only
for lack of memory. -/
theorem kedrLoadFunctionList_extents (hsort : Sorts kernel.sort) (happart : target.Apart kernel)
    (symbols : List Symbol) (mem : Ptr → TmodFunction) :
    (∀ s, kedrLoadFunctionList kernel target symbols (State.initial mem) = .ok s →
      Extents kernel target (symbols.filter (Symbol.isFunction kernel target)) s) ∧
    ((∀ n, kernel.kzalloc n = true) →
      ∃ s, kedrLoadFunctionList kernel target symbols (State.initial mem) = .ok s) := by
  rcases kedrLoadFunctionList_result hsort happart symbols mem with ⟨s, hrun, hext⟩ | ⟨hrun, n, hn⟩
  · refine ⟨fun s' hrun' => ?_, fun _ => ⟨s, hrun⟩⟩
    rw [hrun] at hrun'
    cases hrun'
    exact hext
  · refine ⟨fun s' hrun' => ?_, fun hall => ?_⟩
    · rw [hrun] at hrun'
      cases hrun'
    · rw [hall n] at hn
      cases hn

end Main

theorem sorts_mergeSort {α : Type} :
    Sorts fun (cmp : α → α → Int) xs => xs.mergeSort fun x y => cmp x y ≤ 0 := by
  constructor
  · exact fun cmp xs => List.mergeSort_perm xs _
  · intro cmp xs htotal htrans
    have h : (xs.mergeSort fun x y => decide (cmp x y ≤ 0)).Pairwise
        fun x y => decide (cmp x y ≤ 0) = true := by
      apply List.pairwise_mergeSort
      · intro x y z hxy hyz
        exact decide_eq_true (htrans x y z (of_decide_eq_true hxy) (of_decide_eq_true hyz))
      · intro x y
        simpa using htotal x y
    exact h.imp of_decide_eq_true

def sampleKernel : Kernel :=
  ⟨.x86_64, fun _ => true, fun cmp xs => xs.mergeSort fun x y => cmp x y ≤ 0⟩

def sampleModule : TargetModule := ⟨0x100, 0x1000, 0x40, 0x3000, 0x80⟩

theorem sampleModule_apart : sampleModule.Apart sampleKernel := by
  constructor <;> decide +kernel

/-- Two functions with an alias each, the function of another module and a common alias. -/
def sampleSymbols : List Symbol :=
  [⟨"sample_read", 0x100, 0x3010⟩, ⟨"sample_init", 0x100, 0x1000⟩, ⟨"other", 0x200, 0x3020⟩,
    ⟨"sample_alias", 0x100, 0x3010⟩, ⟨"init_module", 0x100, 0x1000⟩,
    ⟨"sample_init_alias", 0x100, 0x1000⟩]

/-- Functions in both areas of a module, with aliases. -/
theorem kedrLoadFunctionList_extents_sample :
    ∃ s, kedrLoadFunctionList sampleKernel sampleModule sampleSymbols
        (State.initial fun _ => ⟨0, 0, ""⟩) = .ok s ∧
      Extents sampleKernel sampleModule
        (sampleSymbols.filter (Symbol.isFunction sampleKernel sampleModule)) s := by
  obtain ⟨hext, hok⟩ := kedrLoadFunctionList_extents sorts_mergeSort sampleModule_apart
    sampleSymbols fun _ => ⟨0, 0, ""⟩
  obtain ⟨s, hs⟩ := hok fun _ => rfl
  exact ⟨s, hs, hext s hs⟩

end FunctionList
end MemRw
end KedrAux
