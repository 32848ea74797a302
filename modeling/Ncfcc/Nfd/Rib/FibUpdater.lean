import Ncfcc.Nfd.Rib.Rib

/-! The FIB updates for a RIB update and their application. What the updater adds to its
lists on the way is returned as a list of emissions, in the order it is added. -/
namespace Ncfcc.Nfd

inductive Emission where
  | addNextHop (name : Name) (faceId cost : Nat)
  | removeNextHop (name : Name) (faceId : Nat)
  | addInheritedRoute (name : Name) (route : Route)
  | removeInheritedRoute (name : Name) (route : Route)
  deriving DecidableEq

namespace FibUpdater
open Emission

def addInheritedRoutes (entry : RibEntry) (routesToAdd : List Route) : List Emission :=
  routesToAdd.flatMap fun route =>
    if entry.hasFaceId route.faceId then []
    else [addInheritedRoute entry.name route,addNextHop entry.name route.faceId route.cost]

/-- `addInheritedRoutes` for a new name, without the face of its own route. -/
def addInheritedRoutesOf (name : Name) (routesToAdd : List Route) (ignore : Route) : List Emission :=
  routesToAdd.flatMap fun route =>
    if route.faceId = ignore.faceId then []
    else [addInheritedRoute name route,addNextHop name route.faceId route.cost]

def removeInheritedRoutes (entry : RibEntry) (routesToRemove : List Route) : List Emission :=
  routesToRemove.flatMap fun route =>
    if entry.hasInheritedRoute route then
      [removeInheritedRoute entry.name route,removeNextHop entry.name route.faceId]
    else []

/-- The descent from an entry, at most `fuel` levels deep. A face on which the entry passes on a
route of its own is dropped from both sets for all that lies below. -/
def traverseSubTree (rib : Rib) : Nat → Name → List Route → List Route → List Emission
  | 0, _, _, _ => []
  | fuel + 1, name, routesToAdd, routesToRemove =>
    match rib.find name with
    | none => []
    | some entry =>
      if entry.hasCapture then []
      else
        let routesToRemove := routesToRemove.filter fun route => !entry.hasChildInheritOnFaceId route.faceId
        let routesToAdd := routesToAdd.filter fun route => !entry.hasChildInheritOnFaceId route.faceId
        removeInheritedRoutes entry routesToRemove ++ addInheritedRoutes entry routesToAdd ++
          entry.children.flatMap fun child => traverseSubTree rib fuel child routesToAdd routesToRemove

def height (rib : Rib) : Nat := (rib.entries.map fun entry => entry.name.length).foldr max 0 + 1

def modifyChildrensInheritedRoutes (rib : Rib) (children : List Name) (routesToAdd routesToRemove : List Route) :
    List Emission :=
  children.flatMap fun child => traverseSubTree rib (height rib) child routesToAdd routesToRemove

def createFibUpdatesForNewRibEntry (rib : Rib) (name : Name) (route : Route) (children : List Name) : List Emission :=
  let ancestors := rib.getAncestorRoutesOf name
  addNextHop name route.faceId route.cost ::
    if !route.childInherit && !route.capture then addInheritedRoutesOf name ancestors route
    else if route.childInherit && route.capture then
      modifyChildrensInheritedRoutes rib children [route] ancestors
    else if route.childInherit then
      addInheritedRoutesOf name ancestors route ++
        modifyChildrensInheritedRoutes rib children
          (insertRoute (ancestors.filter fun other => other.faceId ≠ route.faceId) route) []
    else modifyChildrensInheritedRoutes rib children [] ancestors

def createFibUpdatesForNewRoute (rib : Rib) (entry : RibEntry) (route : Route) (captureWasTurnedOn : Bool) :
    List Emission :=
  let routesToAdd :=
    if route.childInherit then
      match entry.getRouteWithLowestCostAndChildInheritByFaceId route.faceId with
      | none => [route]
      | some previous => if route.cost ≤ previous.cost then [route] else []
    else []
  let routesToRemove := if captureWasTurnedOn then rib.getAncestorRoutes entry else []
  removeInheritedRoutes entry routesToRemove ++
    modifyChildrensInheritedRoutes rib entry.children routesToAdd routesToRemove ++
    match entry.getRouteWithLowestCostByFaceId route.faceId with
    | none => [addNextHop entry.name route.faceId route.cost]
    | some other => if route.cost ≤ other.cost then [addNextHop entry.name route.faceId route.cost] else []

/-- The updates for the entry itself when the cost of a route changed; none if a null pointer
is dereferenced. `entry` has the new route in place of the existing one. -/
def updatesForCost (entry : RibEntry) (route existing : Route) : Option (List Emission) :=
  match entry.getRouteWithLowestCostByFaceId route.faceId with
  | none => none
  | some lowest =>
    if route.cost ≤ lowest.cost then some [addNextHop entry.name route.faceId route.cost]
    else if existing.cost < lowest.cost then
      (entry.getRouteWithLowestCostAndChildInheritByFaceId route.faceId).map fun previous =>
        [addNextHop entry.name previous.faceId previous.cost]
    else some []

def isLowestForChildren (entry : RibEntry) (route : Route) : Bool :=
  match entry.getRouteWithLowestCostAndChildInheritByFaceId route.faceId with
  | none => true
  | some previous => route.cost ≤ previous.cost

def updatesForChildInherit (rib : Rib) (entry : RibEntry) (route existing : Route) : List Emission :=
  if !existing.childInherit && route.childInherit then
    if isLowestForChildren entry route then modifyChildrensInheritedRoutes rib entry.children [route] [] else []
  else if existing.childInherit && !route.childInherit then
    let routesToAdd :=
      match entry.getRouteWithLowestCostAndChildInheritByFaceId route.faceId with
      | some previous => [previous]
      | none => (findFace (rib.getAncestorRoutes entry) route.faceId).toList
    modifyChildrensInheritedRoutes rib entry.children routesToAdd [route]
  else []

def updatesForCapture (rib : Rib) (entry : RibEntry) (route existing : Route) : List Emission :=
  if !existing.capture && route.capture then
    let ancestors := rib.getAncestorRoutes entry
    removeInheritedRoutes entry ancestors ++ modifyChildrensInheritedRoutes rib entry.children [] ancestors
  else if existing.capture && !route.capture then
    let ancestors := rib.getAncestorRoutes entry
    addInheritedRoutes entry ancestors ++ modifyChildrensInheritedRoutes rib entry.children ancestors []
  else []

def createFibUpdatesForUpdatedRoute (rib : Rib) (entry : RibEntry) (route existing : Route) : Option (List Emission) :=
  let sameFlags := route.childInherit == existing.childInherit && route.capture == existing.capture
  if sameFlags && route.cost == existing.cost then some []
  else do
    let own ← if route.cost ≠ existing.cost then updatesForCost entry route existing else some []
    if route.cost ≠ existing.cost && isLowestForChildren entry route && sameFlags && route.childInherit then
      return own ++ modifyChildrensInheritedRoutes rib entry.children [route] []
    return own ++ updatesForChildInherit rib entry route existing ++ updatesForCapture rib entry route existing

/-- `entry` no longer has the route. -/
def createFibUpdatesForErasedRoute (rib : Rib) (entry : RibEntry) (route : Route) (captureWasTurnedOff : Bool) :
    List Emission :=
  let ancestors := rib.getAncestorRoutes entry
  let uncovered := if captureWasTurnedOff then ancestors else []
  let self := if captureWasTurnedOff then addInheritedRoutes entry ancestors else []
  let children :=
    if route.childInherit && route.capture then
      self ++ modifyChildrensInheritedRoutes rib entry.children uncovered [route]
    else if route.childInherit then
      modifyChildrensInheritedRoutes rib entry.children (if entry.hasCapture then [] else ancestors) [route]
    else if route.capture then self ++ modifyChildrensInheritedRoutes rib entry.children uncovered []
    else []
  let blocked :=
    if !entry.hasCapture && entry.routes.length ≠ 0 then
      match findFace ancestors route.faceId with
      | some ancestor =>
        [addInheritedRoute entry.name ancestor,addNextHop entry.name ancestor.faceId ancestor.cost]
      | none => []
    else []
  removeNextHop entry.name route.faceId :: (children ++ blocked)

def createFibUpdatesForErasedRibEntry (entry : RibEntry) : List Emission :=
  entry.inheritedRoutes.map fun route => removeNextHop entry.name route.faceId

def computeUpdatesForRegistration (rib : Rib) (name : Name) (route : Route) : Option (List Emission) :=
  match rib.find name with
  | none =>
    let parent := rib.findParent name
    let children := (rib.findDescendantsForNonInsertedName name).filter fun entry => entry.parent = parent
    some (createFibUpdatesForNewRibEntry rib name route (children.map RibEntry.name))
  | some entry =>
    match entry.findRoute route with
    | none => some (createFibUpdatesForNewRoute rib entry route (!entry.hasCapture && route.capture))
    | some existing =>
      createFibUpdatesForUpdatedRoute rib {entry with routes := updateRoute entry.routes route} route existing

def computeUpdatesForUnregistration (readSecond : List Route → Route) (rib : Rib) (name : Name) (route : Route) :
    List Emission :=
  match rib.find name with
  | none => []
  | some entry =>
    match entry.findRoute route with
    | none => []
    | some existing =>
      let erased := entry.eraseRoute route
      createFibUpdatesForErasedRoute rib erased existing (entry.hasCapture && !erased.hasCapture) ++
        (match entry.getRouteWithSecondLowestCostByFaceId readSecond route.faceId with
          | some next => createFibUpdatesForNewRoute rib erased next false
          | none => []) ++
        if entry.routes.length = 1 then createFibUpdatesForErasedRibEntry entry else []

/-- A command for the FIB: a next hop with its cost, or none to remove it. -/
structure FibUpdate where
  name : Name
  faceId : Nat
  cost : Option Nat
  deriving DecidableEq

/-- `addFibUpdate`: an update of the same name and face is replaced. -/
def addFibUpdate : List FibUpdate → FibUpdate → List FibUpdate
  | [], new => [new]
  | update :: updates, new =>
    if update.name = new.name ∧ update.faceId = new.faceId then new :: updates
    else update :: addFibUpdate updates new

def fibUpdate : Emission → Option FibUpdate
  | addNextHop name faceId cost => some ⟨name,faceId,some cost⟩
  | removeNextHop name faceId => some ⟨name,faceId,none⟩
  | _ => none

/-- The updates for the face of the batch come first, those for other faces after them. -/
def fibUpdates (batchFaceId : Nat) (emissions : List Emission) : List FibUpdate × List FibUpdate :=
  let updates := emissions.filterMap fibUpdate
  ((updates.filter fun update => update.faceId = batchFaceId).foldl addFibUpdate [],
    (updates.filter fun update => update.faceId ≠ batchFaceId).foldl addFibUpdate [])

end FibUpdater

/-- The change of an inherited route that was computed beforehand. None stands for a failed
assertion, or for erasing at the end of the list. -/
def Rib.modifyInheritedRoute (rib : Rib) : Emission → Option Rib
  | .addInheritedRoute name route =>
    if (rib.find name).isSome then
      some (rib.modify name fun entry => {entry with inheritedRoutes := entry.inheritedRoutes ++ [route]})
    else none
  | .removeInheritedRoute name route =>
    match rib.find name with
    | none => none
    | some entry =>
      if entry.hasInheritedRoute route then
        some (rib.modify name fun entry =>
          {entry with inheritedRoutes := entry.inheritedRoutes.eraseP fun other => other.faceId == route.faceId})
      else none
  | _ => some rib

def Rib.modifyInheritedRoutes (rib : Rib) (emissions : List Emission) : Option Rib :=
  emissions.foldlM Rib.modifyInheritedRoute rib

abbrev NextHops := Name → Nat → Option Nat

inductive RibUpdate where
  | register (name : Name) (route : Route)
  | unregister (name : Name) (route : Route)
  | removeFace (name : Name) (route : Route)
  deriving DecidableEq

def RibUpdate.change (rib : Rib) : RibUpdate → Rib
  | .register name route => rib.insert name route
  | .unregister name route => rib.erase name route
  | .removeFace name route => rib.erase name route

def RibUpdate.emissions (readSecond : List Route → Route) (rib : Rib) : RibUpdate → Option (List Emission)
  | .register name route => FibUpdater.computeUpdatesForRegistration rib name route
  | .unregister name route => some (FibUpdater.computeUpdatesForUnregistration readSecond rib name route)
  | .removeFace name route => some (FibUpdater.computeUpdatesForUnregistration readSecond rib name route)

structure RibState where
  rib : Rib
  fib : NextHops
  /-- The faces that are gone, which no next hop can have. -/
  destroyed : List Nat

namespace RibState

def empty : RibState := ⟨.empty,fun _ _ => none,[]⟩

def applyFibUpdate (destroyed : List Nat) (fib : NextHops) (update : FibUpdater.FibUpdate) : NextHops :=
  fun name faceId =>
    if name = update.name ∧ faceId = update.faceId then if faceId ∈ destroyed then none else update.cost
    else fib name faceId

/-- `beginApplyUpdate` up to the end of `onFibUpdateSuccess`. -/
def beginApplyUpdate (readSecond : List Route → Route) (state : RibState) : RibUpdate → Option RibState
  | .register name route => do
    let emissions ← FibUpdater.computeUpdatesForRegistration state.rib name route
    let (batch,others) := FibUpdater.fibUpdates route.faceId emissions
    let rib ← (state.rib.insert name route).modifyInheritedRoutes emissions
    return ⟨rib,(batch ++ others).foldl (applyFibUpdate state.destroyed) state.fib,state.destroyed⟩
  | .unregister name route => do
    let emissions := FibUpdater.computeUpdatesForUnregistration readSecond state.rib name route
    let (batch,others) := FibUpdater.fibUpdates route.faceId emissions
    let rib ← (state.rib.erase name route).modifyInheritedRoutes emissions
    return ⟨rib,(batch ++ others).foldl (applyFibUpdate state.destroyed) state.fib,state.destroyed⟩
  | .removeFace name route => do
    let emissions := FibUpdater.computeUpdatesForUnregistration readSecond state.rib name route
    let (_,others) := FibUpdater.fibUpdates route.faceId emissions
    let rib ← (state.rib.erase name route).modifyInheritedRoutes emissions
    let destroyed := route.faceId :: state.destroyed
    let fib : NextHops := fun name faceId => if faceId = route.faceId then none else state.fib name faceId
    return ⟨rib,others.foldl (applyFibUpdate destroyed) fib,destroyed⟩

end RibState

end Ncfcc.Nfd
