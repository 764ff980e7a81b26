import Mathlib.Tactic

/-!
# Simulation points and their indicators

A simulation point may have a fault indicator that belongs to a module and has a state.  Indicator
functions of modules are registered under names, and may be set for a point by name.  Both the
points and the registered functions ask for a call when the module is unloaded; these requests are
kept in one store, under the module, as pairs of a callback and a raw pointer.

A pointer to an object that does not exist any more, and a `BUG_ON`, are the result `none`.
-/

namespace KedrAux
namespace FaultSimulation

abbrev Addr := Nat

abbrev Module := Nat

abbrev CString := List Char

/-- Callbacks that are scheduled for the unloading of a module. -/
inductive DestroyNotify where
  | unsetIndicatorCallback
  | onModuleUnload
deriving DecidableEq

structure DestroyData where
  destroy : DestroyNotify
  userData : Addr
deriving DecidableEq

structure ModuleWeakRefData where
  m : Module
  destroyData : List DestroyData
deriving DecidableEq

abbrev WeakRefs := List ModuleWeakRefData

def getModuleNode (refs : WeakRefs) (m : Module) : Option ModuleWeakRefData :=
  refs.find? fun node => node.m = m

/-- The first node of the module is changed, or deleted when there is no new one. -/
def updateNode (m : Module) (f : ModuleWeakRefData → Option ModuleWeakRefData) :
    WeakRefs → WeakRefs
  | [] => []
  | node :: refs =>
    if node.m = m then (f node).toList ++ refs else node :: updateNode m f refs

/-- Shedule the function to call when module is unloaded. -/
def moduleWeakRef (refs : WeakRefs) (m : Module) (ddata : DestroyData) : WeakRefs :=
  match getModuleNode refs m with
  | none => refs ++ [⟨m, [ddata]⟩]
  | some _ =>
    updateNode m (fun node => some { node with destroyData := node.destroyData ++ [ddata] }) refs

def moduleWeakUnref (refs : WeakRefs) (m : Module) (ddata : DestroyData) : Option WeakRefs :=
  match getModuleNode refs m with
  | none => none
  | some _ => some <| updateNode m (fun node =>
    let rest := node.destroyData.erase ddata
    if rest.isEmpty then none else some { node with destroyData := rest }) refs

/-- Indicator of a point.  `serial` numbers the states that were handed over; the program does
not have it. -/
structure FaultIndicatorInfo where
  fi : Option Addr
  m : Option Module
  indicatorState : Addr
  destroy : Option Addr
  serial : Nat
deriving DecidableEq

def noIndicator : FaultIndicatorInfo := ⟨none, none, 0, none, 0⟩

structure SimulationPoint where
  addr : Addr
  name : CString
  formatString : Option CString
  currentIndicator : FaultIndicatorInfo
deriving DecidableEq

/-- Indicator function that is registered under a name. -/
structure IndicatorDescriptor where
  addr : Addr
  indicatorName : CString
  fi : Option Addr
  formatString : Option CString
  m : Module
  initState : Option Addr
  destroyState : Option Addr
deriving DecidableEq

/--
The lists of the two modules.  The other fields are not part of the program: the modules that are
loaded, the number of states that were handed over, those that were installed and those that were
built by `init_state`, both with the information whether they have a destroy function, and those
for which a destroy function was called.
-/
structure State where
  simPoints : List SimulationPoint
  indicators : List IndicatorDescriptor
  weakRefs : WeakRefs
  loaded : List Module
  serials : Nat
  installed : List (Nat × Bool)
  built : List (Nat × Bool)
  destroyed : List Nat
deriving DecidableEq

def State.init : State := ⟨[], [], [], [], 0, [], [], []⟩

variable (s : State)

def fsimLookupPoint (name : CString) : Option SimulationPoint :=
  s.simPoints.find? fun point => point.name = name

/-- Whether data of the point will be correctly interpreted by the indicator. -/
def isDataFormatCompatible (pointFormat indicatorFormat : Option CString) : Bool :=
  match indicatorFormat with
  | none | some [] => true
  | some format =>
    match pointFormat with
    | none | some [] => false
    | some pointFormat => format.isPrefixOf pointFormat

/-- The destroy function is called for the state of an indicator, if there is one. -/
def callDestroy (info : FaultIndicatorInfo) : State :=
  if info.destroy.isSome then { s with destroyed := s.destroyed ++ [info.serial] } else s

def setCurrent (addr : Addr) (info : FaultIndicatorInfo) (points : List SimulationPoint) :
    List SimulationPoint :=
  points.map fun point =>
    if point.addr = addr then { point with currentIndicator := info } else point

/-- Cancel the call for an indicator that may have a module. -/
def unrefIndicator (refs : WeakRefs) (m : Option Module) (addr : Addr) : Option WeakRefs :=
  match m with
  | none => some refs
  | some m => moduleWeakUnref refs m ⟨.unsetIndicatorCallback, addr⟩

/-- Shedule the call for an indicator that may have a module. -/
def refIndicator (refs : WeakRefs) (m : Option Module) (addr : Addr) : WeakRefs :=
  match m with
  | none => refs
  | some m => moduleWeakRef refs m ⟨.unsetIndicatorCallback, addr⟩

def fsimSetIndicatorInternal
    (point : SimulationPoint) (formatString : Option CString) (info : FaultIndicatorInfo) :
    Option (Int × State) :=
  if !isDataFormatCompatible point.formatString formatString then some (1, s)
  else do
    let s := callDestroy s point.currentIndicator
    let weakRefs ← unrefIndicator s.weakRefs point.currentIndicator.m point.addr
    return (0, { s with
      simPoints := setCurrent point.addr info s.simPoints
      weakRefs := refIndicator weakRefs info.m point.addr
      installed := s.installed ++ [(info.serial, info.destroy.isSome)] })

/-- Register simulation point; `addr` is the result of `kmalloc`. -/
def kedrFsimPointRegister (pointName : CString) (formatString : Option CString) (addr : Addr) :
    State :=
  if (fsimLookupPoint s pointName).isSome then s
  else { s with
    simPoints := s.simPoints ++ [⟨addr, pointName, formatString, noIndicator⟩] }

/-- Unregister point, making its name free for use. -/
def kedrFsimPointUnregister (addr : Addr) : Option State := do
  let point ← s.simPoints.find? fun point => point.addr = addr
  let (_, s) ← fsimSetIndicatorInternal { s with serials := s.serials + 1 } point none
    { noIndicator with serial := s.serials }
  return { s with simPoints := s.simPoints.filter fun point => point.addr ≠ addr }

/-- Set fault indicator for simulation point. -/
def kedrFsimSetIndicator
    (pointName : CString) (formatString : Option CString) (info : FaultIndicatorInfo) :
    Option (Int × State) :=
  match fsimLookupPoint s pointName with
  | none => some (-1, s)
  | some point => fsimSetIndicatorInternal s point formatString info

/-- Unset indicator when its module is unloaded. -/
def unsetIndicatorCallback (addr : Addr) : Option State := do
  let point ← s.simPoints.find? fun point => point.addr = addr
  let s := callDestroy s point.currentIndicator
  return { s with simPoints := setCurrent addr noIndicator s.simPoints }

def indicatorDescriptorLookup (name : CString) : Option IndicatorDescriptor :=
  s.indicators.find? fun node => node.indicatorName = name

/-- Callback for the unloading of the module that registers an indicator function. -/
def onModuleUnload (addr : Addr) : Option State := do
  let _ ← s.indicators.find? fun node => node.addr = addr
  return { s with indicators := s.indicators.filter fun node => node.addr ≠ addr }

/-- Bind the name of `node` with particular indicator functions. -/
def kedrFsimIndicatorFunctionRegister (node : IndicatorDescriptor) : Int × State :=
  if node.indicatorName = [] then (-1, s)
  else if (indicatorDescriptorLookup s node.indicatorName).isSome then (-1, s)
  else (0, { s with
    indicators := s.indicators ++ [node]
    weakRefs := moduleWeakRef s.weakRefs node.m ⟨.onModuleUnload, node.addr⟩ })

def kedrFsimIndicatorFunctionUnregister (indicatorName : CString) : Option State :=
  match indicatorDescriptorLookup s indicatorName with
  | none => some s
  | some node => do
      let weakRefs ← moduleWeakUnref s.weakRefs node.m ⟨.onModuleUnload, node.addr⟩
      return { s with
        weakRefs
        indicators := s.indicators.filter fun other => other.addr ≠ node.addr }

/--
Set indicator function for simulation point by its name.  `initResult` is the outcome of
`init_state`: the state that it has built, or `none` for an error.
-/
def kedrFsimSetIndicatorByName
    (pointName : CString) (indicatorName : Option CString) (initResult : Option Addr) :
    Option (Int × State) :=
  match indicatorName with
  | none | some [] =>
    kedrFsimSetIndicator { s with serials := s.serials + 1 } pointName none
      { noIndicator with serial := s.serials }
  | some name =>
    match indicatorDescriptorLookup s name with
    | none => some (-1, s)
    | some node =>
      if node.initState.isSome ∧ initResult = none then some (-2, s)
      else do
        let info : FaultIndicatorInfo :=
          ⟨node.fi, some node.m, if node.initState.isSome then initResult.getD 0 else 0,
            node.destroyState, s.serials⟩
        let s := { s with
          serials := s.serials + 1
          built := s.built ++
            if node.initState.isSome then [(s.serials, node.destroyState.isSome)] else [] }
        let (result, s) ← kedrFsimSetIndicator s pointName node.formatString info
        return (result, if result ≠ 0 then callDestroy s info else s)

/-- One round of the loop over the callbacks of the module: the call, and the removal of the entry
from the list. -/
def notifyUnload (m : Module) (s : State) (ddata : DestroyData) : Option State := do
  let s ← match ddata.destroy with
    | .unsetIndicatorCallback => FaultSimulation.unsetIndicatorCallback s ddata.userData
    | .onModuleUnload => FaultSimulation.onModuleUnload s ddata.userData
  return { s with
    weakRefs := updateNode m
      (fun node => some { node with destroyData := node.destroyData.erase ddata }) s.weakRefs }

def detectorModulesUnload (m : Module) : Option State :=
  match getModuleNode s.weakRefs m with
  | none => some s
  | some node => do
      let s ← node.destroyData.foldlM (notifyUnload m) s
      return { s with weakRefs := updateNode m (fun _ => none) s.weakRefs }

/-- Unregister the indicator functions, the first one of the list each time; there are `n`. -/
def faultIndicatorManageExit : Nat → State → Option State
  | 0, s => some s
  | n + 1, s =>
    match s.indicators with
    | [] => some s
    | node :: _ => do
        faultIndicatorManageExit n
          (← kedrFsimIndicatorFunctionUnregister s node.indicatorName)

/-- Unregister the points, the first one of the list each time; there are `n`.  Then the store
must be empty. -/
def fsimCleanupModule : Nat → State → Option State
  | 0, s => if s.weakRefs.isEmpty then some s else none
  | n + 1, s =>
    match s.simPoints with
    | [] => if s.weakRefs.isEmpty then some s else none
    | point :: _ => do
        fsimCleanupModule n (← kedrFsimPointUnregister s point.addr)

inductive Action where
  | pointRegister (name : CString) (formatString : Option CString) (addr : Addr)
  | pointUnregister (addr : Addr)
  | setIndicator (pointName : CString) (formatString : Option CString) (fi : Option Addr)
      (m : Option Module) (indicatorState : Addr) (destroy : Option Addr)
  | functionRegister (node : IndicatorDescriptor)
  | functionUnregister (name : CString)
  | setIndicatorByName (pointName : CString) (indicatorName : Option CString)
      (initResult : Option Addr)
  | load (m : Module)
  | unload (m : Module)
deriving DecidableEq

/-- What the callers and `kmalloc` promise: modules are loaded, points are registered, and new
objects have new addresses. -/
def Allowed : Action → Prop
  | .pointRegister _ _ addr => addr ∉ s.simPoints.map SimulationPoint.addr
  | .pointUnregister addr => addr ∈ s.simPoints.map SimulationPoint.addr
  | .setIndicator _ _ _ m _ _ => ∀ m', m = some m' → m' ∈ s.loaded
  | .functionRegister node =>
    node.addr ∉ s.indicators.map IndicatorDescriptor.addr ∧ node.m ∈ s.loaded
  | .unload m => m ∈ s.loaded
  | _ => True

/-- The call `kedr_fsim_set_indicator`, with a number for the state that is handed over. -/
def setIndicatorCall
    (pointName : CString) (formatString : Option CString) (fi : Option Addr) (m : Option Module)
    (indicatorState : Addr) (destroy : Option Addr) : Option (Int × State) :=
  kedrFsimSetIndicator { s with serials := s.serials + 1 } pointName formatString
    ⟨fi, m, indicatorState, destroy, s.serials⟩

def State.step : Action → Option State
  | .pointRegister name formatString addr => some (kedrFsimPointRegister s name formatString addr)
  | .pointUnregister addr => kedrFsimPointUnregister s addr
  | .setIndicator pointName formatString fi m indicatorState destroy =>
    (setIndicatorCall s pointName formatString fi m indicatorState destroy).map Prod.snd
  | .functionRegister node => some (kedrFsimIndicatorFunctionRegister s node).2
  | .functionUnregister name => kedrFsimIndicatorFunctionUnregister s name
  | .setIndicatorByName pointName indicatorName initResult =>
    (kedrFsimSetIndicatorByName s pointName indicatorName initResult).map Prod.snd
  | .load m => some { s with loaded := m :: s.loaded.filter (· ≠ m) }
  | .unload m =>
    (detectorModulesUnload s m).map fun s => { s with loaded := s.loaded.filter (· ≠ m) }

/-- States reached by runs in which the promises are kept. -/
inductive Reachable : State → Prop
  | init : Reachable .init
  | step {s s' : State} {a : Action} :
      Reachable s →
      Allowed s a →
      s.step a = some s' →
      Reachable s'

end FaultSimulation
end KedrAux
