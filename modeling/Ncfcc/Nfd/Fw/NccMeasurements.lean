import Ncfcc.Nfd.Fw.NccTimers

/-! The measurements of the NCC strategy together with its timers. Which faces and measurements
entries are there and where the strategy is effective comes with the events. -/
namespace Ncfcc.Nfd.Fw
open Ncfcc.Library Ncfcc.Nfd.Table
open Ncfcc.Cs (FreshData Time)

namespace MeasurementsEntryInfo

/-- In microseconds. -/
def initialPrediction : Int := 8192

def minPrediction : Int := 127

def maxPrediction : Int := 160000

def new : MeasurementsEntryInfo := ⟨none,none,initialPrediction⟩

def lock (exist : Face → Bool) (info : MeasurementsEntryInfo) : MeasurementsEntryInfo :=
  {info with bestFace := info.bestFace.filter exist, previousFace := info.previousFace.filter exist}

/-- `getBestFace` puts the previous face in the place of a best face that is gone. -/
def replaceBestFace (exist : Face → Bool) (info : MeasurementsEntryInfo) : MeasurementsEntryInfo :=
  match (info.lock exist).bestFace with
  | some _ => info
  | none => {info with bestFace := (info.lock exist).previousFace}

def adjustPredictDown (info : MeasurementsEntryInfo) : MeasurementsEntryInfo :=
  {info with prediction := max minPrediction (info.prediction - info.prediction >>> (7 : Nat))}

def adjustPredictUp (info : MeasurementsEntryInfo) : MeasurementsEntryInfo :=
  {info with prediction := min maxPrediction (info.prediction + info.prediction >>> (3 : Nat))}

def updateBestFace (exist : Face → Bool) (face : Face) (info : MeasurementsEntryInfo) : MeasurementsEntryInfo :=
  match (info.lock exist).bestFace with
  | none => {info with bestFace := some face}
  | some bestFace =>
    if bestFace = face then info.adjustPredictDown
    else {info with previousFace := info.bestFace, bestFace := some face}

end MeasurementsEntryInfo

abbrev NccMeasurements := Name → Option MeasurementsEntryInfo

structure Surroundings where
  exist : Face → Bool
  inNamespace : Name → Bool

namespace NccMeasurements

def setInfo (measurements : NccMeasurements) (name : Name) (info : MeasurementsEntryInfo) : NccMeasurements :=
  Function.update measurements name (some info)

/-- By the reversed name. A new information inherits from the parent's, which is made as well,
unless the parent is out of the namespace. -/
def getInfoReversed (inNamespace : Name → Bool) : List Component → NccMeasurements → MeasurementsEntryInfo × NccMeasurements
  | [],measurements =>
    match measurements [] with
    | some info => (info,measurements)
    | none => (.new,measurements.setInfo [] .new)
  | last :: parent,measurements =>
    match measurements (last :: parent).reverse with
    | some info => (info,measurements)
    | none =>
      let measurements := measurements.setInfo (last :: parent).reverse .new
      if inNamespace parent.reverse then
        let (parentInfo,measurements) := getInfoReversed inNamespace parent measurements
        (parentInfo,measurements.setInfo (last :: parent).reverse parentInfo)
      else (.new,measurements)

def getMeasurementsEntryInfo (around : Surroundings) (name : Name) (measurements : NccMeasurements) :
    MeasurementsEntryInfo × NccMeasurements :=
  getInfoReversed around.inNamespace name.reverse measurements

/-- The change is made to the entry and its ancestors, for so many levels within the namespace. -/
def updateLevels (around : Surroundings) (change : MeasurementsEntryInfo → MeasurementsEntryInfo) :
    (levels : Nat) → Name → NccMeasurements → NccMeasurements
  | 0,_,measurements => measurements
  | levels + 1,name,measurements =>
    if around.inNamespace name then
      let (info,measurements) := measurements.getMeasurementsEntryInfo around name
      let measurements := measurements.setInfo name (change info)
      if name.isEmpty then measurements else updateLevels around change levels name.dropLast measurements
    else measurements

def updateMeasurementsNLevels : Nat := 2

end NccMeasurements

def NccForwarder.Event.withMeasured (around : Surroundings) (measured : MeasurementsEntryInfo) :
    NccForwarder.Event → NccForwarder.Event
  | .incomingInterest inFace interest cached fibEntry _ => .incomingInterest inFace interest cached fibEntry measured
  | .incomingData inFace data toNcc _ strategy => .incomingData inFace data toNcc around.inNamespace strategy
  | .timer _ draw => .timer measured draw
  | event => event

namespace NccForwarder

section
variable (state : NccForwarder)

def forwardsAfresh (inFace : Face) (interest : Interest) (cached : Option FreshData) (fibEntry : Nat) : Option Nat :=
  (state.forwarder.entryForStrategy inFace interest cached).filter fun entry =>
    !(state.getNextHops fibEntry).isEmpty &&
      state.forwarder.entries[entry]?.all fun found => !found.hasUnexpiredOutRecords state.forwarder.now

def propagatesNext : Option (Nat × List Face) :=
  match state.scheduler.next with
  | some ⟨_,_,.doPropagate entry fibEntry⟩ =>
    if state.forwarder.entries[entry]?.any PitEntry.inPit && (state.pitEntryInfo entry).isSome then
      state.fibEntries[fibEntry]?.join.map fun nexthops => (entry,nexthops)
    else none
  | _ => none

def timedOutNext : Option Nat :=
  match state.scheduler.next with
  | some ⟨_,_,.timeoutOnBestFace entry⟩ =>
    if state.forwarder.entries[entry]?.any PitEntry.inPit then some entry else none
  | _ => none

def satisfiedBy (matchesData : Interest → FreshData → Bool) (data : FreshData) (toNcc : Nat → Bool) (inFace : Face) :
    List Nat :=
  ((if violatesLocalhost inFace data.name then [] else state.forwarder.findAllDataMatches matchesData data).filter
    toNcc).filter fun entry => state.forwarder.entries[entry]?.any fun found => !found.inRecords.isEmpty

def readsFor : Event → Option (Name × Bool)
  | .incomingInterest inFace interest cached fibEntry _ =>
    (state.forwardsAfresh inFace interest cached fibEntry).map fun _ => (interest.name,true)
  | .timer _ _ => state.propagatesNext.map fun (entry,_) => (state.nameOf entry,false)
  | _ => none

end

end NccForwarder

structure NccStrategy where
  ncc : NccForwarder
  measurements : NccMeasurements

namespace NccStrategy

def new : NccStrategy := ⟨.new,fun _ => none⟩

inductive Event where
  | ncc (around : Surroundings) (event : NccForwarder.Event)
  /-- Measurements entries expire, or a change of strategy clears the information on them. -/
  | forget (names : Name → Bool)

section
variable (matchesData : Interest → FreshData → Bool) (state : NccStrategy) (around : Surroundings)

/-- What was measured, if the event reads it; there has to be an entry for the strategy to read. -/
def read (event : NccForwarder.Event) : Option (MeasurementsEntryInfo × NccMeasurements) :=
  match state.ncc.readsFor event with
  | none => some (.new,state.measurements)
  | some (name,asksBestFace) =>
    if around.inNamespace name then
      let (info,measurements) := state.measurements.getMeasurementsEntryInfo around name
      some (info.lock around.exist,
        if asksBestFace then measurements.setInfo name (info.replaceBestFace around.exist) else measurements)
    else none

def update (event : NccForwarder.Event) (measurements : NccMeasurements) : NccMeasurements :=
  match event with
  | .timer _ _ =>
    match state.ncc.timedOutNext with
    | some entry => measurements.updateLevels around MeasurementsEntryInfo.adjustPredictUp
        NccMeasurements.updateMeasurementsNLevels (state.ncc.nameOf entry)
    | none => measurements
  | .incomingData inFace data toNcc _ _ =>
    (state.ncc.satisfiedBy matchesData data toNcc inFace).foldl (fun measurements entry =>
      measurements.updateLevels around (MeasurementsEntryInfo.updateBestFace around.exist inFace)
        NccMeasurements.updateMeasurementsNLevels (state.ncc.nameOf entry)) measurements
  | _ => measurements

/-- None stands for a failed assertion or a null pointer that is followed. -/
def step : Event → Option NccStrategy
  | .ncc around event => do
    let (measured,measurements) ← state.read around event
    let ncc ← state.ncc.step matchesData (event.withMeasured around measured)
    return ⟨ncc,state.update matchesData around event measurements⟩
  | .forget names => some {state with measurements := fun name => if names name then none else state.measurements name}

end

end NccStrategy

end Ncfcc.Nfd.Fw
