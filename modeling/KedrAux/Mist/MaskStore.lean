import KedrAux.Lib.Loop
import KedrAux.Lib.ObjectHeap
import KedrAux.Mist.ParamSetStore

/-!
# Parameter masks as objects

The class `MistParamMask` with its shared implementations (`mist_param_set.cpp`).  A mask
has a pointer to its implementation, which counts these pointers; before a shared one is
modified, it is copied.

The masks are the variables of the program and the elements of the vectors `submasks`.
Functions that access a deleted implementation, use an iterator of a vector that has changed
or fail an assertion have no result.  Temporary masks whose references are released at once
are left out.
-/

namespace KedrAux
namespace Mist

structure MaskImpl where
  refs : Nat
  submasks : List (Str × Addr)
deriving DecidableEq

def MaskImpl.children (impl : MaskImpl) : List Addr :=
  impl.submasks.map Prod.snd

abbrev MaskStore := ObjectHeap MaskImpl

namespace MaskStore

def ref (store : MaskStore) (p : Addr) : Option MaskStore :=
  (store.get? p).bind fun impl => store.write p { impl with refs := impl.refs + 1 }

def refAll : MaskStore → List Addr → Option MaskStore
  | store, [] => some store
  | store, p :: ps => (ref store p).bind fun store => refAll store ps

def unrefAll (unref : MaskStore → Addr → Option MaskStore) :
    MaskStore → List Addr → Option MaskStore
  | store, [] => some store
  | store, p :: ps => (unref store p).bind fun store => unrefAll unref store ps

/-- `Impl::unref` with a limit for the recursion: without references the implementation is
deleted with its vector. -/
def unrefRec : (limit : Nat) → MaskStore → Addr → Option MaskStore
  | 0, _, _ => none
  | limit + 1, store, p =>
    (store.get? p).bind fun impl =>
      if impl.refs = 1 then
        (store.free p).bind fun store => unrefAll (unrefRec limit) store impl.children
      else store.write p { impl with refs := impl.refs - 1 }

/-- `Impl::unref`; every level of the recursion deletes another implementation. -/
def unref (store : MaskStore) (p : Addr) : Option MaskStore :=
  unrefRec (store.next + 1) store p

def makePrivate (store : MaskStore) (p : Addr) : Option (MaskStore × Addr) :=
  (store.get? p).bind fun impl =>
    (refAll store impl.children).bind fun store =>
      (unref (store.alloc ⟨1, impl.submasks⟩) p).map fun store' => (store', store.next)

end MaskStore

/-- The implementations, and the variables with their pointers to them.  A variable that has
been destroyed has none. -/
structure Masks where
  store : MaskStore
  vars : List (Option Addr)

inductive MaskLocation where
  | var (v : Nat)
  | slot (p : Addr) (index : Nat)
deriving DecidableEq

def MaskLocation.impl (ms : Masks) : MaskLocation → Option Addr
  | .var v => ms.vars[v]?.join
  | .slot p index => (ms.store.get? p).bind fun impl => impl.submasks[index]?.map Prod.snd

/-- The member `impl` of an existing mask is changed. -/
def MaskLocation.setImpl (ms : Masks) (q : Addr) : MaskLocation → Option Masks
  | .var v => ms.vars[v]?.join.map fun _ => { ms with vars := ms.vars.set v (some q) }
  | .slot p index =>
    (ms.store.get? p).bind fun impl =>
      impl.submasks[index]?.bind fun entry =>
        (ms.store.write p { impl with submasks := impl.submasks.set index (entry.1, q) }).map
          fun store => { ms with store := store }

def MaskLocation.submasks (ms : Masks) (loc : MaskLocation) : Option (List (Str × Addr)) :=
  (loc.impl ms).bind fun p => (ms.store.get? p).map MaskImpl.submasks

/-- `mask->impl = mask->impl->makePrivate()`; the address of the copy is returned too. -/
def MaskLocation.makePrivate (ms : Masks) (loc : MaskLocation) : Option (Masks × Addr) :=
  (loc.impl ms).bind fun p =>
    (MaskStore.makePrivate ms.store p).bind fun r =>
      (loc.setImpl { ms with store := r.1 } r.2).map fun ms => (ms, r.2)

/-- `MistParamMask::Modifier`; the top of a stack is its last element. -/
structure Modifier where
  maskStack : List MaskLocation
  indiciesStack : List Nat
deriving DecidableEq

/-- The loop of `prepareForModify` from a shared implementation on. -/
def makePrivateFrom (ms : Masks) (loc : MaskLocation) :
    (rest : List MaskLocation) → (indicies : List Nat) → Option (Masks × List MaskLocation)
  | [], _ => (loc.makePrivate ms).map fun r => (r.1, [loc])
  | _ :: rest, index :: indicies =>
    (loc.makePrivate ms).bind fun r =>
      (makePrivateFrom r.1 (.slot r.2 index) rest indicies).map fun r' => (r'.1, loc :: r'.2)
  | _ :: _, [] => none

/-- The loops of `prepareForModify`: the first shared implementation is searched from the
bottom of the stack. -/
def prepareStack (ms : Masks) :
    List MaskLocation → (indicies : List Nat) → Option (Masks × List MaskLocation)
  | [], _ => some (ms, [])
  | loc :: rest, indicies =>
    (loc.impl ms).bind fun p =>
      (ms.store.get? p).bind fun impl =>
        if impl.refs ≠ 1 then makePrivateFrom ms loc rest indicies
        else (prepareStack ms rest indicies.tail).map fun r => (r.1, loc :: r.2)

namespace Modifier

def ofVar (v : Nat) : Modifier :=
  ⟨[.var v], []⟩

def current (modifier : Modifier) : Option MaskLocation :=
  modifier.maskStack.getLast?

def moveChild (ms : Masks) (modifier : Modifier) (index : Nat) : Option Modifier :=
  modifier.current.bind fun loc =>
    (loc.impl ms).bind fun p =>
      (ms.store.get? p).bind fun impl =>
        if index ≠ impl.submasks.length then
          some ⟨modifier.maskStack ++ [.slot p index], modifier.indiciesStack ++ [index]⟩
        else none

def moveParent (modifier : Modifier) : Modifier :=
  ⟨modifier.maskStack.dropLast, modifier.indiciesStack.dropLast⟩

def prepareForModify (ms : Masks) (modifier : Modifier) : Option (Masks × Modifier) :=
  if modifier.maskStack = [] then none
  else (prepareStack ms modifier.maskStack modifier.indiciesStack).map fun r =>
    (r.1, ⟨r.2, modifier.indiciesStack⟩)

def addSubmask (ms : Masks) (modifier : Modifier) (name : Str) (submask : MaskLocation) :
    Option (Masks × Modifier) :=
  (modifier.prepareForModify ms).bind fun r =>
    (submask.impl r.1).bind fun q =>
      (MaskStore.ref r.1.store q).bind fun store =>
        (r.2.current.bind fun loc => loc.impl r.1).bind fun p =>
          (store.get? p).bind fun impl =>
            (store.write p { impl with submasks := impl.submasks ++ [(name, q)] }).map fun store =>
              ({ r.1 with store := store }, r.2)

def removeSubmasks (ms : Masks) (modifier : Modifier) : Option (Masks × Modifier) :=
  (modifier.prepareForModify ms).bind fun r =>
    (r.2.current.bind fun loc => loc.impl r.1).bind fun p =>
      (r.1.store.get? p).bind fun impl =>
        (r.1.store.write p { impl with submasks := [] }).bind fun store =>
          (MaskStore.unrefAll MaskStore.unref store impl.children).map fun store =>
            ({ r.1 with store := store }, r.2)

end Modifier

/-- Index of the submask with the name, as the search loops find it. -/
def findSubmask (submasks : List (Str × Addr)) (name : Str) : Option Nat :=
  submasks.findIdx? fun entry => entry.1 = name

/-- A pair of iterators, the current one and the end. -/
structure MaskRange where
  node : Addr
  pos : Nat
  fin : Nat
deriving DecidableEq

namespace MaskRange

def ofImpl (store : MaskStore) (p : Addr) : Option MaskRange :=
  (store.get? p).map fun impl => ⟨p, 0, impl.submasks.length⟩

/-- What the current iterator refers to, if the vector still has the same end. -/
def entry (store : MaskStore) (range : MaskRange) : Option (Str × Addr) :=
  (store.get? range.node).bind fun impl =>
    if impl.submasks.length = range.fin then impl.submasks[range.pos]? else none

def next (range : MaskRange) : MaskRange :=
  { range with pos := range.pos + 1 }

end MaskRange

structure AppendState where
  masks : Masks
  modifier : Modifier
  iteratorStack : List MaskRange

def appendRound (s : AppendState) : Option (Loop.Round AppendState AppendState) :=
  s.iteratorStack.getLast?.bind fun range =>
    if range.pos = range.fin then
      match s.iteratorStack.dropLast.getLast? with
      | none => some (.done { s with iteratorStack := s.iteratorStack.dropLast })
      | some parent => some (.next {
          s with
          modifier := s.modifier.moveParent
          iteratorStack := s.iteratorStack.dropLast.dropLast ++ [parent.next] })
    else
      (range.entry s.masks.store).bind fun entry =>
        (s.modifier.current.bind fun loc => loc.submasks s.masks).bind fun submasks =>
          match findSubmask submasks entry.1 with
          | some index =>
            (MaskRange.ofImpl s.masks.store entry.2).bind fun child =>
              (s.modifier.moveChild s.masks index).map fun modifier => .next {
                s with
                modifier := modifier
                iteratorStack := s.iteratorStack ++ [child] }
          | none =>
            (s.modifier.addSubmask s.masks entry.1 (.slot range.node range.pos)).map fun r =>
              .next {
                masks := r.1
                modifier := r.2
                iteratorStack := s.iteratorStack.dropLast ++ [range.next] }

/-- `append` of the variable `b` to the variable `a`, with a limit for the rounds. -/
def appendRun (limit : Nat) (ms : Masks) (a b : Nat) : Option AppendState :=
  ((MaskLocation.var b).impl ms).bind fun q =>
    (MaskRange.ofImpl ms.store q).bind fun range =>
      Loop.run appendRound limit ⟨ms, Modifier.ofVar a, [range]⟩

def Modifier.moveTo (ms : Masks) : Modifier → MistParamNameAbs → Option Modifier
  | modifier, [] => some modifier
  | modifier, subname :: name =>
    (modifier.current.bind fun loc => loc.submasks ms).bind fun submasks =>
      (findSubmask submasks subname).bind fun index =>
        (modifier.moveChild ms index).bind fun modifier => moveTo ms modifier name

namespace Masks

def cut (ms : Masks) (a : Nat) (name : MistParamNameAbs) : Option Masks :=
  ((Modifier.ofVar a).moveTo ms name).bind fun modifier =>
    (modifier.removeSubmasks ms).map Prod.fst

def construct (ms : Masks) : Masks where
  store := ms.store.alloc ⟨1, []⟩
  vars := ms.vars ++ [some ms.store.next]

def addComponents : MaskStore → (currentImpl : Addr) → MistParamNameAbs → Option MaskStore
  | store, _, [] => some store
  | store, currentImpl, component :: name =>
    let subimpl := store.next
    let store := store.alloc ⟨1, []⟩
    (store.get? currentImpl).bind fun impl =>
      (store.write currentImpl
        { impl with submasks := impl.submasks ++ [(component, subimpl)] }).bind fun store =>
          addComponents store subimpl name

def constructName (ms : Masks) (name : MistParamNameAbs) : Option Masks :=
  (addComponents (ms.store.alloc ⟨1, []⟩) ms.store.next name).map fun store =>
    ⟨store, ms.vars ++ [some ms.store.next]⟩

def copy (ms : Masks) (b : Nat) : Option Masks :=
  ((MaskLocation.var b).impl ms).bind fun q =>
    (MaskStore.ref ms.store q).map fun store => ⟨store, ms.vars ++ [some q]⟩

def assign (ms : Masks) (a b : Nat) : Option Masks :=
  ((MaskLocation.var a).impl ms).bind fun p =>
    ((MaskLocation.var b).impl ms).bind fun q =>
      if p ≠ q then
        (MaskStore.unref ms.store p).bind fun store =>
          (MaskStore.ref store q).map fun store => ⟨store, ms.vars.set a (some q)⟩
      else some ms

/-- `~MistParamMask`. -/
def destroy (ms : Masks) (a : Nat) : Option Masks :=
  ((MaskLocation.var a).impl ms).bind fun p =>
    (MaskStore.unref ms.store p).map fun store => ⟨store, ms.vars.set a none⟩

end Masks

end Mist
end KedrAux
