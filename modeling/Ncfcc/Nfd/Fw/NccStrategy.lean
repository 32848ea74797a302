import Ncfcc.Library.Scheduler
import Ncfcc.Nfd.Fw.Changes

/-! The NCC strategy in the pipelines of a forwarder. What its measurements say when they are
read comes with the events, as does which Interests and Data are dispatched to it. -/
namespace Ncfcc.Nfd.Fw
open Ncfcc.Library Ncfcc.Nfd.Table
open Ncfcc.Cs (FreshData Time)

namespace Forwarder

/-- The PIT entry for which an Interest gets to `afterReceiveInterest` of a strategy. -/
def entryForStrategy (inFace : Face) (interest : Interest) (cached : Option FreshData) (forwarder : Forwarder) :
    Option Nat :=
  if violatesLocalhost inFace interest.name then none
  else
    let (entry,inserted) := forwarder.pitInsert interest
    inserted.entries[entry]?.bind fun found =>
      if inserted.hasDuplicateNonce inFace interest found then none
      else if found.inRecords.isEmpty && cached.isSome then none
      else some entry

end Forwarder

structure MeasurementsEntryInfo where
  bestFace : Option Face
  previousFace : Option Face
  prediction : Int

def MeasurementsEntryInfo.getBestFace (info : MeasurementsEntryInfo) : Option Face := info.bestFace.or info.previousFace

/-- The strategy's information on a PIT entry. Setting a timer does not cancel the one before. -/
structure PitEntryInfo where
  bestFaceTimeout : Option Nat
  propagateTimer : Option Nat
  maxInterval : Int
  deriving DecidableEq

/-- The events that the strategy schedules; they refer weakly to the entries. -/
inductive NccTimer where
  | doPropagate (pitEntry fibEntry : Nat)
  | timeoutOnBestFace (pitEntry : Nat)
  deriving DecidableEq

/-- FIB entries are known by their places, and are none once they are erased. -/
structure NccForwarder where
  forwarder : Forwarder
  fibEntries : List (Option (List Face))
  pitEntryInfo : Nat → Option PitEntryInfo
  scheduler : Scheduler NccTimer

namespace NccForwarder

/-- In microseconds. -/
def deferFirstWithoutBestFace : Int := 4000

def deferRangeWithoutBestFace : Int := 75000

def new : NccForwarder := ⟨.new,[],fun _ => none,.initial 0 0⟩

section
variable (entry : Nat) (state : NccForwarder)

/-- Without a FIB entry the lookup gives an empty one. -/
def getNextHops (fibEntry : Nat) : List Face := (state.fibEntries[fibEntry]?.join).getD []

def canForwardTo (face : Face) : Bool :=
  state.forwarder.entries[entry]?.any fun found => found.canForwardTo face state.forwarder.now

def sendInterest (face : Face) : Option NccForwarder :=
  (state.forwarder.onOutgoingInterest entry face none).map fun forwarder => {state with forwarder}

def getOrCreatePitEntryInfo : NccForwarder :=
  {state with pitEntryInfo :=
    Function.update state.pitEntryInfo entry (some ((state.pitEntryInfo entry).getD ⟨none,none,0⟩))}

def modifyInfo (change : PitEntryInfo → PitEntryInfo) : NccForwarder :=
  {state with pitEntryInfo := Function.update state.pitEntryInfo entry ((state.pitEntryInfo entry).map change)}

def setBestFaceTimeout (after : Int) : NccForwarder :=
  {state.modifyInfo entry (fun info => {info with bestFaceTimeout := some state.scheduler.nextId}) with
    scheduler := state.scheduler.schedule after (.timeoutOnBestFace entry)}

def setPropagateTimer (fibEntry : Nat) (after : Int) : NccForwarder :=
  {state.modifyInfo entry (fun info => {info with propagateTimer := some state.scheduler.nextId}) with
    scheduler := state.scheduler.schedule after (.doPropagate entry fibEntry)}

/-- The information goes with its entry or is cleared, and its destructor cancels both timers. -/
def destroyInfo : NccForwarder :=
  match state.pitEntryInfo entry with
  | none => state
  | some info =>
    {state with
      pitEntryInfo := Function.update state.pitEntryInfo entry none
      scheduler := (state.scheduler.cancel info.bestFaceTimeout).cancel info.propagateTimer}

/-- The Interest goes to the best face, or else to the first eligible next hop; with the times
to defer and the number of other upstreams. -/
def sendToFirst (nexthops : List Face) (measured : MeasurementsEntryInfo) : Option (Int × Int × UInt64 × NccForwarder) :=
  match measured.getBestFace.filter fun face => face ∈ nexthops && state.canForwardTo entry face with
  | some bestFace =>
    (state.sendInterest entry bestFace).map fun sent =>
      (measured.prediction,(measured.prediction + 1).tdiv 2,UInt64.ofNat nexthops.length - 1,
        sent.setBestFaceTimeout entry (measured.prediction * 1000))
  | none =>
    match nexthops.find? fun face => state.canForwardTo entry face with
    | some face =>
      (state.sendInterest entry face).map fun sent =>
        (deferFirstWithoutBestFace,deferRangeWithoutBestFace,UInt64.ofNat nexthops.length,sent)
    | none => some (deferFirstWithoutBestFace,deferRangeWithoutBestFace,UInt64.ofNat nexthops.length,state)

def maxInterval (deferFirst deferRange : Int) (nUpstreams : UInt64) : Int :=
  if 0 < nUpstreams then max 1 ((UInt64.ofInt (2 * deferRange) + nUpstreams - 1) / nUpstreams).toBitVec.toInt
  else deferFirst

def afterReceiveInterest (fibEntry : Nat) (measured : MeasurementsEntryInfo) : Option NccForwarder := do
  let nexthops := state.getNextHops fibEntry
  if nexthops.isEmpty then
    let forwarder ← state.forwarder.onInterestReject entry
    return {state with forwarder}
  let state := state.getOrCreatePitEntryInfo entry
  let found ← state.forwarder.entries[entry]?
  if found.hasUnexpiredOutRecords state.forwarder.now then return state
  let (deferFirst,deferRange,nUpstreams,state) ← state.sendToFirst entry nexthops measured
  let previous := measured.previousFace.any fun face => face ∈ nexthops && state.canForwardTo entry face
  let nUpstreams := if previous then nUpstreams - 1 else nUpstreams
  let state := state.modifyInfo entry fun info => {info with maxInterval := maxInterval deferFirst deferRange nUpstreams}
  return state.setPropagateTimer entry fibEntry (deferFirst * 1000)

def sendToPrevious (nexthops : List Face) (measured : MeasurementsEntryInfo) : Option NccForwarder :=
  match measured.previousFace.filter fun face => face ∈ nexthops && state.canForwardTo entry face with
  | some previousFace => state.sendInterest entry previousFace
  | none => some state

/-- The first eligible next hop gets the Interest, and another round follows. -/
def sendToNext (fibEntry : Nat) (nexthops : List Face) (deferNext : Int) : Option NccForwarder :=
  match nexthops.find? fun face => state.canForwardTo entry face with
  | some face => (state.sendInterest entry face).map fun sent => sent.setPropagateTimer entry fibEntry deferNext
  | none => some state

/-- The information is asserted to be there; the time to the next round is drawn. -/
def propagate (fibEntry : Nat) (nexthops : List Face) (measured : MeasurementsEntryInfo) (draw : Int) :
    Option NccForwarder := do
  let info ← state.pitEntryInfo entry
  let state ← state.sendToPrevious entry nexthops measured
  state.sendToNext entry fibEntry nexthops (draw % info.maxInterval)

/-- Nothing happens if the PIT entry or the FIB entry is gone. -/
def doPropagate (fibEntry : Nat) (measured : MeasurementsEntryInfo) (draw : Int) : Option NccForwarder :=
  if state.forwarder.entries[entry]?.any PitEntry.inPit then
    match state.fibEntries[fibEntry]?.join with
    | none => some state
    | some nexthops => state.propagate entry fibEntry nexthops measured draw
  else some state

def nameOf (entry : Nat) : Name := (state.forwarder.entries[entry]?.map fun found => found.interest.name).getD []

/-- The measurements of two levels are updated first, and out of the strategy's namespace the function returns there;
above the root there are none. -/
def updatesLevels (inNamespace : Name → Bool) (name : Name) : Bool :=
  inNamespace name && !name.isEmpty && inNamespace name.dropLast

def beforeSatisfyInterest (inNamespace : Name → Bool) : NccForwarder :=
  if state.forwarder.entries[entry]?.any fun found => found.inRecords.isEmpty then state
  else if !updatesLevels inNamespace (state.nameOf entry) then state
  else
    match state.pitEntryInfo entry with
    | none => state
    | some info =>
      {state.modifyInfo entry (fun info => {info with propagateTimer := none}) with
        scheduler := state.scheduler.cancel info.propagateTimer}

end

/-! Runs. -/

inductive Event where
  /-- Time passes, but not beyond a timer of the strategy. -/
  | advance (time : Time)
  /-- An Interest that is dispatched to the strategy if it gets that far. -/
  | incomingInterest (inFace : Face) (interest : Interest) (cached : Option FreshData) (fibEntry : Nat)
      (measured : MeasurementsEntryInfo)
  /-- Data that is dispatched to the strategy for these entries, with the names for which it is the effective one, and
  to others for the rest. -/
  | incomingData (inFace : Face) (data : FreshData) (toNcc : Nat → Bool) (inNamespace : Name → Bool) (strategy : Strategy)
  /-- The next timer of the strategy runs. -/
  | timer (measured : MeasurementsEntryInfo) (draw : Int)
  /-- Any event of the forwarder in which the strategy does nothing. -/
  | other (event : Fw.Event)
  | insertFibEntry (nexthops : List Face)
  | setNextHops (fibEntry : Nat) (nexthops : List Face)
  | eraseFibEntry (fibEntry : Nat)
  /-- A change of strategy clears the information on these entries. -/
  | changeStrategy (entries : List Nat)

section
variable (matchesData : Interest → FreshData → Bool) (state : NccForwarder)

def onIncomingInterest (inFace : Face) (interest : Interest) (cached : Option FreshData) (fibEntry : Nat)
    (measured : MeasurementsEntryInfo) : Option NccForwarder := do
  -- the dispatch is the last thing that the pipeline does after a miss
  let forwarder ← state.forwarder.onIncomingInterest inFace interest cached fun _ => []
  match state.forwarder.entryForStrategy inFace interest cached with
  | none => return {state with forwarder}
  | some entry => ({state with forwarder} : NccForwarder).afterReceiveInterest entry fibEntry measured

/-- The in-records of an entry stay until the strategy was told of it. -/
def onIncomingData (inFace : Face) (data : FreshData) (toNcc : Nat → Bool) (inNamespace : Name → Bool) (strategy : Strategy) :
    Option NccForwarder := do
  let satisfied := if violatesLocalhost inFace data.name then []
    else state.forwarder.findAllDataMatches matchesData data
  let told := (satisfied.filter toNcc).foldl (fun state entry => state.beforeSatisfyInterest entry inNamespace) state
  let forwarder ← state.forwarder.onIncomingData matchesData inFace data fun entry =>
    if toNcc entry then [] else strategy entry
  return {told with forwarder}

/-- A PIT entry that is erased is gone, as nothing else refers to it. -/
def onOther (event : Fw.Event) : Option NccForwarder := do
  let forwarder ← state.forwarder.step matchesData (state.scheduler.now,event)
  match event with
  | .unsatisfyTimer entry _ => return ({state with forwarder} : NccForwarder).destroyInfo entry
  | .stragglerTimer entry => return ({state with forwarder} : NccForwarder).destroyInfo entry
  | _ => return {state with forwarder}

def onTimer (event : Scheduled NccTimer) (measured : MeasurementsEntryInfo) (draw : Int) : Option NccForwarder :=
  let state := {state with
    scheduler := state.scheduler.fire event
    forwarder := {state.forwarder with now := event.due}}
  match event.callback with
  | .doPropagate entry fibEntry => state.doPropagate entry fibEntry measured draw
  | .timeoutOnBestFace _ => some state

/-- None stands for a failed assertion. -/
def step : Event → Option NccForwarder
  | .advance time =>
    let scheduler := state.scheduler.advance time
    some {state with scheduler, forwarder := {state.forwarder with now := scheduler.now}}
  | .incomingInterest inFace interest cached fibEntry measured =>
    state.onIncomingInterest inFace interest cached fibEntry measured
  | .incomingData inFace data toNcc inNamespace strategy =>
    state.onIncomingData matchesData inFace data toNcc inNamespace strategy
  | .timer measured draw =>
    match state.scheduler.next with
    | none => some state
    | some event => state.onTimer event measured draw
  | .other event => state.onOther matchesData event
  | .insertFibEntry nexthops => some {state with fibEntries := state.fibEntries ++ [some nexthops]}
  | .setNextHops fibEntry nexthops =>
    some {state with fibEntries := state.fibEntries.modify fibEntry fun entry => entry.map fun _ => nexthops}
  | .eraseFibEntry fibEntry => some {state with fibEntries := state.fibEntries.set fibEntry none}
  | .changeStrategy entries => some (entries.foldl (fun state entry => state.destroyInfo entry) state)

end

end NccForwarder

end Ncfcc.Nfd.Fw
