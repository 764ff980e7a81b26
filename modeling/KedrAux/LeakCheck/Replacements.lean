import Mathlib.Tactic

/-!
# Replacement functions of the leak checker

`kedr_leak_check` replaces the functions that allocate and free memory in the target module.  A
replacement function takes the record of a block out of the storage before the block is freed, and
adds a record after a block is allocated.  Each operation on the storage is done under a spinlock,
so threads may come between these operations and the calls of the real functions.

The real functions belong to the kernel.  What they may return is given by `Call.real`; the state
also keeps the blocks that they have allocated and not freed, which the checker does not see.
-/

namespace KedrAux
namespace LeakCheck

abbrev Addr := BitVec 64

/-- `ZERO_SIZE_PTR`, the result of `kmalloc(0)`. -/
def zeroSizePtr : Addr := 16

def zeroOrNullPtr (p : Addr) : Bool := decide (p ≤ zeroSizePtr)

def isErr (p : Addr) : Bool := decide (-4095 ≤ p)

def pageSize : Nat := 4096

/-- Record about a block (`struct klc_memblock_info`), without the stack trace. -/
structure MemblockInfo where
  block : Addr
  size : Nat
deriving DecidableEq

structure Storage where
  allocList : List MemblockInfo
  badFreeList : List MemblockInfo
  totalAllocs : Nat
  totalLeaks : Nat
  totalBadFrees : Nat
deriving DecidableEq

def klcAddAlloc (storage : Storage) (block : Addr) (size : Nat) : Storage :=
  { storage with
    allocList := ⟨block, size⟩ :: storage.allocList
    totalAllocs := storage.totalAllocs + 1
    totalLeaks := storage.totalLeaks + 1 }

/-- The size in a record about a block that is freed is `(size_t)(-1)`. -/
def klcAddBadFree (storage : Storage) (block : Addr) : Storage :=
  { storage with
    badFreeList := ⟨block, 2 ^ 64 - 1⟩ :: storage.badFreeList
    totalBadFrees := storage.totalBadFrees + 1 }

/-- The loop of `klc_find_and_remove_alloc`: the records that stay, and the number of the others. -/
def removeAllocs (block : Addr) : List MemblockInfo → List MemblockInfo × Nat
  | [] => ([], 0)
  | mbi :: rest =>
    let (kept, removed) := removeAllocs block rest
    if mbi.block = block then (kept, removed + 1) else (mbi :: kept, removed)

/-- Removes the records about the block, and tells whether there were any. -/
def klcFindAndRemoveAlloc (storage : Storage) (block : Addr) : Storage × Bool :=
  let (kept, removed) := removeAllocs block storage.allocList
  ({ storage with allocList := kept, totalLeaks := storage.totalLeaks - removed }, removed != 0)

/-- Calls that allocate a block, with the arguments that determine its size: a size, the size of
the objects of a cache, an order of pages, or the length of a string. -/
inductive AllocCall where
  | kmalloc (size : Nat)
  | kmemCacheAlloc (objectSize : Nat)
  | kmemCacheAllocNotrace (objectSize : Nat)
  | getFreePages (order : Nat)
  | getZeroedPage
  | allocPagesNodemask (order : Nat)
  | allocPagesCurrent (order : Nat)
  | allocPagesExact (size : Nat)
  | kstrdup (length : Nat)
  | kstrndup (length max : Nat)
  | kmemdup (len : Nat)
  | strndupUser (length : Nat)
  | memdupUser (len : Nat)
  | vmalloc (size : Nat)
  | vmallocProt (size : Nat)
  | vmallocUser (size : Nat)
  | vmallocNode (size : Nat)
  | vmalloc32 (size : Nat)
  | vmalloc32User (size : Nat)
deriving DecidableEq

def AllocCall.size : AllocCall → Nat
  | kmalloc size | kmemCacheAlloc size | kmemCacheAllocNotrace size | allocPagesExact size
  | kmemdup size | strndupUser size | memdupUser size | vmalloc size | vmallocProt size
  | vmallocUser size | vmallocNode size | vmalloc32 size | vmalloc32User size => size
  | getFreePages order | allocPagesNodemask order | allocPagesCurrent order => pageSize <<< order
  | getZeroedPage => pageSize
  | kstrdup length => length + 1
  | kstrndup length max => min length max + 1

/-- Which results the replacement function takes for a block. -/
def AllocCall.accepts : AllocCall → Addr → Bool
  | kmalloc _, ret | allocPagesExact _, ret => !zeroOrNullPtr ret
  | strndupUser _, ret | memdupUser _, ret => !isErr ret
  | _, ret => ret != 0

inductive FreeCall where
  | kfree
  | kzfree
  | kmemCacheFree
  | freePages
  | freePagesOfPage
  | freePagesExact
  | vfree
deriving DecidableEq

/-- Which pointers the replacement function ignores; `__free_pages` is given a page, and its
pointer is the address of the page. -/
def FreeCall.ignores : FreeCall → Addr → Bool
  | freePagesOfPage, p => p == 0
  | _, p => zeroOrNullPtr p

inductive Call where
  | alloc (call : AllocCall)
  | free (call : FreeCall) (p : Addr)
  | krealloc (p : Addr) (size : Nat)
  | kreallocKeep (p : Addr) (size : Nat)
deriving DecidableEq

/-- The block whose record is taken out before the real call. -/
def Call.releases : Call → Option Addr
  | .alloc _ => none
  | .free call p => if call.ignores p then none else some p
  | .krealloc p size =>
    if size = 0 || !zeroOrNullPtr p then
      if !zeroOrNullPtr p then some p else none
    else none
  | .kreallocKeep _ _ => none

/-- The record that is added when the real call has returned `ret`. -/
def Call.records (ret : Addr) : Call → Option MemblockInfo
  | .alloc call => if call.accepts ret then some ⟨ret, call.size⟩ else none
  | .free _ _ => none
  | .krealloc p size =>
    if size ≠ 0 then
      if p = 0 then
        if ret ≠ 0 then some ⟨ret, size⟩ else none
      else some ⟨if ret ≠ 0 then ret else p, size⟩
    else none
  | .kreallocKeep p size =>
    if size = 0 then none
    else if p = 0 then
      if ret ≠ 0 then some ⟨ret, size⟩ else none
    else if ret ≠ 0 ∧ ret ≠ p then some ⟨ret, size⟩ else none

/-- How the real function ends. -/
inductive Outcome where
  /-- No memory, or another error. -/
  | failed (errno : Fin 4095)
  /-- Nothing is to be allocated. -/
  | done
  /-- The new block. -/
  | block (a : Addr)
  /-- The old block is large enough. -/
  | inPlace
deriving DecidableEq

/-- The result, the block that is freed and the block that is allocated. -/
structure RealCall where
  ret : Addr
  freed : Option Addr
  allocated : Option Addr
deriving DecidableEq

/-- Blocks are neither error codes nor the addresses with a special meaning. -/
def IsBlock (a : Addr) : Prop := zeroOrNullPtr a = false ∧ isErr a = false

instance (a : Addr) : Decidable (IsBlock a) := inferInstanceAs (Decidable (_ ∧ _))

/-- `kmalloc` and the functions over it return `ZERO_SIZE_PTR` for the size 0. -/
def AllocCall.isEmpty : AllocCall → Bool
  | kmalloc size | kmemdup size | memdupUser size => size == 0
  | _ => false

/-- What is returned when nothing could be allocated. -/
def AllocCall.failure (errno : Fin 4095) : AllocCall → Addr
  | strndupUser _ | memdupUser _ => -BitVec.ofNat 64 (errno.val + 1)
  | _ => 0

/-- The real function, where the given outcome is possible and `live` are the blocks that are in
use. -/
def Call.real (live : Finset Addr) : Call → Outcome → Option RealCall
  | .alloc call, .failed errno =>
    if call.isEmpty then none else some ⟨call.failure errno, none, none⟩
  | .alloc call, .done => if call.isEmpty then some ⟨zeroSizePtr, none, none⟩ else none
  | .alloc call, .block a =>
    if call.isEmpty ∨ ¬ IsBlock a ∨ a ∈ live then none else some ⟨a, none, some a⟩
  | .alloc _, .inPlace => none
  | .free call p, .done => some ⟨0, if call.ignores p then none else some p, none⟩
  | .free _ _, _ => none
  | .krealloc p size, outcome =>
    let freed := if zeroOrNullPtr p then none else some p
    match outcome with
    | .done => if size = 0 then some ⟨zeroSizePtr, freed, none⟩ else none
    | .failed _ => if size = 0 then none else some ⟨0, none, none⟩
    | .block a =>
      if size = 0 ∨ ¬ IsBlock a ∨ a ∈ live ∨ a = p then none else some ⟨a, freed, some a⟩
    | .inPlace => if size = 0 ∨ ¬ IsBlock p then none else some ⟨p, some p, some p⟩
  | .kreallocKeep p size, outcome =>
    match outcome with
    | .done => if size = 0 then some ⟨zeroSizePtr, none, none⟩ else none
    | .failed _ => if size = 0 then none else some ⟨0, none, none⟩
    | .block a =>
      if size = 0 ∨ ¬ IsBlock a ∨ a ∈ live ∨ a = p then none else some ⟨a, none, some a⟩
    | .inPlace => if size = 0 ∨ ¬ IsBlock p then none else some ⟨p, none, none⟩

/-- Place of a thread in the replacement functions. -/
inductive Place where
  | idle
  /-- The function is called. -/
  | entered (call : Call)
  /-- No record was found for the block. -/
  | missed (call : Call)
  /-- The real function is to be called; `found` tells whether a record was taken out. -/
  | calling (call : Call) (found : Bool)
  /-- The real function has returned. -/
  | returned (call : Call) (ret : Addr)
deriving DecidableEq

/--
The storage and the threads.  The last three fields are not known to the checker: the blocks that
are allocated by replaced calls and not freed, the blocks freed without a record, and the number of
allocations that succeeded.
-/
structure State where
  storage : Storage
  threads : List Place
  live : Finset Addr
  unrecorded : List Addr
  succeeded : Nat
deriving DecidableEq

def State.init : State := ⟨⟨[], [], 0, 0, 0⟩, [], ∅, [], 0⟩

inductive Action where
  /-- A new thread. -/
  | spawn
  /-- The thread calls a replacement function. -/
  | call (thread : Nat) (call : Call)
  /-- The thread goes on to its next operation; `outcome` is used if this is the real call. -/
  | run (thread : Nat) (outcome : Outcome)
deriving DecidableEq

def State.realCall (s : State) (thread : Nat) (call : Call) (found : Bool) (real : RealCall) :
    State :=
  { s with
    threads := s.threads.set thread (.returned call real.ret)
    live := (s.live \ real.freed.toFinset) ∪ real.allocated.toFinset
    unrecorded := (if found then [] else real.freed.toList) ++ s.unrecorded
    succeeded := s.succeeded + real.allocated.toList.length }

/-- The next operation of a thread that is at the given place. -/
def State.runAt (s : State) (thread : Nat) (outcome : Outcome) : Place → Option State
  | .idle => none
  | .entered call =>
    match call.releases with
    | none => some { s with threads := s.threads.set thread (.calling call true) }
    | some p =>
      let (storage, found) := klcFindAndRemoveAlloc s.storage p
      some { s with
        storage
        threads := s.threads.set thread (if found then .calling call true else .missed call) }
  | .missed call =>
    match call.releases with
    | none => none
    | some p => some { s with
        storage := klcAddBadFree s.storage p
        threads := s.threads.set thread (.calling call false) }
  | .calling call found => (call.real s.live outcome).map (s.realCall thread call found)
  | .returned call ret =>
    match call.records ret with
    | none => some { s with threads := s.threads.set thread .idle }
    | some mbi => some { s with
        storage := klcAddAlloc s.storage mbi.block mbi.size
        threads := s.threads.set thread .idle }

def State.step (s : State) : Action → Option State
  | .spawn => some { s with threads := s.threads ++ [.idle] }
  | .call thread call =>
    if s.threads[thread]? = some .idle then
      some { s with threads := s.threads.set thread (.entered call) }
    else none
  | .run thread outcome => s.threads[thread]?.bind (s.runAt thread outcome)

inductive Reachable (allowed : State → Action → Prop) : State → Prop
  | init : Reachable allowed .init
  | step {s s' : State} {a : Action} :
      Reachable allowed s →
      allowed s a →
      s.step a = some s' →
      Reachable allowed s'

end LeakCheck
end KedrAux
