import Ncfcc.Library.Run
import Ncfcc.Nfd.Table.PitSearch

/-! The forwarding pipelines. What the content store answers, what the strategy does in a
trigger and which nonces are drawn comes with the events. A pipeline without a
result has failed an assertion. -/
namespace Ncfcc.Nfd.Fw
open Ncfcc.Library Ncfcc.Nfd.Table
open Ncfcc.Cs (FreshData Time milliSeconds)

/-- What leaves the forwarder, oldest first. -/
inductive Output where
  /-- An Interest, with the place of the PIT entry it is sent for and that entry as it was then. -/
  | interest (face : Face) (interest : Interest) (entry : Nat) (found : PitEntry)
  | data (face : Face) (data : FreshData)
  | csInsert (data : FreshData) (isUnsolicited : Bool)
  deriving DecidableEq

structure Forwarder where
  /-- The time of the current event. -/
  now : Time
  /-- The faces with a valid id. -/
  faceTable : List Face
  /-- All PIT entries made so far; an entry is known by its place. -/
  entries : List PitEntry
  deadNonceList : DeadNonceList
  outputs : List Output
  deriving DecidableEq

/-- What a strategy does with a PIT entry; `nonce` is the new nonce if it wants one. -/
inductive StrategyAction where
  | sendInterest (entry : Nat) (outFace : Face) (nonce : Option UInt32)
  | rejectPendingInterest (entry : Nat)
  deriving DecidableEq

/-- The actions in a trigger, for each entry it may be dispatched for. -/
abbrev Strategy := Nat → List StrategyAction

inductive Event where
  | incomingInterest (inFace : Face) (interest : Interest) (cached : Option FreshData) (strategy : Strategy)
  | incomingData (inFace : Face) (data : FreshData) (strategy : Strategy)
  | strategyAction (action : StrategyAction)
  | unsatisfyTimer (entry : Nat) (strategy : Strategy)
  | stragglerTimer (entry : Nat)
  | mark
  | adjustCapacity
  | addFace (face : Face)
  | removeFace (face : Face)

namespace Forwarder

def new : Forwarder := ⟨0,[],[],.new,[]⟩

def emit (output : Output) (forwarder : Forwarder) : Forwarder :=
  { forwarder with outputs := forwarder.outputs ++ [output] }

def modify (entry : Nat) (change : PitEntry → PitEntry) (forwarder : Forwarder) : Forwarder :=
  { forwarder with entries := forwarder.entries.modify entry change }

/-! The PIT. -/

def isFor (interest : Interest) (entry : PitEntry) : Bool :=
  entry.inPit && entry.interest.name = interest.name && entry.interest.selectors = interest.selectors

/-- `Pit::insert`. -/
def pitInsert (interest : Interest) (forwarder : Forwarder) : Nat × Forwarder :=
  match forwarder.entries.findIdx? (isFor interest) with
  | some entry => (entry,forwarder)
  | none => (forwarder.entries.length,{ forwarder with entries := forwarder.entries ++ [.new interest] })

/-- `Pit::erase`, of an entry that is in the PIT. -/
def pitErase (entry : Nat) (forwarder : Forwarder) : Option Forwarder :=
  match forwarder.entries[entry]? with
  | none => none
  | some found => if found.inPit then some (forwarder.modify entry fun found => { found with inPit := false }) else none

def pitNames (forwarder : Forwarder) : List Name :=
  (forwarder.entries.filter PitEntry.inPit).map fun found => found.interest.name

/-- `Pit::findAllDataMatches`, an unordered collection: the matching entries on the way up from
the node that the search for the Data's name ends at. -/
def findAllDataMatches (matchesData : Interest → FreshData → Bool) (data : FreshData) (forwarder : Forwarder) :
    List Nat :=
  match deepestMatch CityHash.cityHash64 forwarder.pitNames data.name with
  | none => []
  | some deepest =>
    (List.range forwarder.entries.length).filter fun entry => forwarder.entries[entry]?.any fun found =>
      found.inPit && found.interest.name.isPrefixOf deepest && matchesData found.interest data

/-! Timers. -/

def cancelUnsatisfyAndStragglerTimer (entry : Nat) : Forwarder → Forwarder :=
  modify entry fun found => { found with unsatisfyTimer := none, stragglerTimer := none }

def setUnsatisfyTimer (entry : Nat) (forwarder : Forwarder) : Option Forwarder := do
  let found ← forwarder.entries[entry]?
  let lastExpiring ← maxElement (fun first second => first.expiry < second.expiry) found.inRecords
  some (forwarder.modify entry fun found => { found with unsatisfyTimer := some lastExpiring.expiry })

def setStragglerTimer (entry : Nat) (isSatisfied : Bool) (dataFreshnessPeriod : Int) (forwarder : Forwarder) :
    Forwarder :=
  forwarder.modify entry fun found =>
    { found with stragglerTimer := some ⟨forwarder.now + milliSeconds 100,isSatisfied,dataFreshnessPeriod⟩ }

/-! The outgoing pipelines and the actions of strategies. -/

/-- Is the second in-record preferred for an Interest to this face? -/
def comparePickInterest (outFace : Face) (first second : InRecord) : Bool :=
  if first.face ≠ outFace ∧ second.face = outFace then false
  else if first.face = outFace ∧ second.face ≠ outFace then true
  else second.lastRenewed < first.lastRenewed

def onOutgoingInterest (entry : Nat) (outFace : Face) (nonce : Option UInt32) (forwarder : Forwarder) :
    Option Forwarder := do
  if outFace ∉ forwarder.faceTable then return forwarder
  let found ← forwarder.entries[entry]?
  if found.violatesScope outFace then return forwarder
  let picked ← maxElement (comparePickInterest outFace) found.inRecords
  let interest := match nonce with
    | none => picked.interest
    | some nonce => { picked.interest with nonce }
  return emit (.interest outFace interest entry found)
    (forwarder.modify entry (PitEntry.insertOrUpdateOutRecord outFace interest forwarder.now))

def onInterestReject (entry : Nat) (forwarder : Forwarder) : Option Forwarder := do
  let found ← forwarder.entries[entry]?
  if found.hasUnexpiredOutRecords forwarder.now then return forwarder
  return setStragglerTimer entry false (-1) (cancelUnsatisfyAndStragglerTimer entry forwarder)

def onOutgoingData (data : FreshData) (outFace : Face) (forwarder : Forwarder) : Forwarder :=
  if outFace ∉ forwarder.faceTable then forwarder
  else if violatesLocalhost outFace data.name then forwarder
  else forwarder.emit (.data outFace data)

def act (forwarder : Forwarder) : StrategyAction → Option Forwarder
  | .sendInterest entry outFace nonce => forwarder.onOutgoingInterest entry outFace nonce
  | .rejectPendingInterest entry => forwarder.onInterestReject entry

def dispatchToStrategy (entry : Nat) (strategy : Strategy) (forwarder : Forwarder) : Option Forwarder :=
  (strategy entry).foldlM act forwarder

/-! The Dead Nonce List. -/

def needDnl (entry : PitEntry) (isSatisfied : Bool) (dataFreshnessPeriod : Int) : Bool :=
  if isSatisfied then
    entry.interest.selectors.mustBeFresh && 0 ≤ dataFreshnessPeriod &&
      milliSeconds dataFreshnessPeriod < DeadNonceList.defaultLifetime
  else true

/-- Without an upstream the nonces of all out-records are inserted. -/
def insertDeadNonceList (entry : Nat) (isSatisfied : Bool) (dataFreshnessPeriod : Int) (upstream : Option Face)
    (forwarder : Forwarder) : Forwarder :=
  match forwarder.entries[entry]? with
  | none => forwarder
  | some found =>
    if needDnl found isSatisfied dataFreshnessPeriod then
      let records := match upstream with
        | none => found.outRecords
        | some face => (found.getOutRecord face).toList
      { forwarder with deadNonceList := records.foldl (fun list record =>
          list.add found.interest.name record.lastNonce) forwarder.deadNonceList }
    else forwarder

/-! The incoming pipelines. -/

def onContentStoreMiss (inFace : Face) (entry : Nat) (interest : Interest) (strategy : Strategy)
    (forwarder : Forwarder) : Option Forwarder := do
  let forwarder := forwarder.modify entry (PitEntry.insertOrUpdateInRecord inFace interest forwarder.now)
  let forwarder ← forwarder.setUnsatisfyTimer entry
  forwarder.dispatchToStrategy entry strategy

def onContentStoreHit (inFace : Face) (entry : Nat) (data : FreshData) (strategy : Strategy)
    (forwarder : Forwarder) : Option Forwarder := do
  let forwarder ← forwarder.dispatchToStrategy entry strategy
  return onOutgoingData data inFace (forwarder.setStragglerTimer entry true data.freshnessPeriod)

def onInterestLoop (forwarder : Forwarder) : Forwarder := forwarder

def hasDuplicateNonce (inFace : Face) (interest : Interest) (found : PitEntry) (forwarder : Forwarder) : Bool :=
  found.findNonce interest.nonce inFace ≠ 0 || forwarder.deadNonceList.has interest.name interest.nonce

def onIncomingInterest (inFace : Face) (interest : Interest) (cached : Option FreshData) (strategy : Strategy)
    (forwarder : Forwarder) : Option Forwarder := do
  if violatesLocalhost inFace interest.name then return forwarder
  let (entry,forwarder) := forwarder.pitInsert interest
  let found ← forwarder.entries[entry]?
  if forwarder.hasDuplicateNonce inFace interest found then return forwarder.onInterestLoop
  let forwarder := forwarder.cancelUnsatisfyAndStragglerTimer entry
  if found.inRecords.isEmpty then
    match cached with
    | some data => forwarder.onContentStoreHit inFace entry data strategy
    | none => forwarder.onContentStoreMiss inFace entry interest strategy
  else forwarder.onContentStoreMiss inFace entry interest strategy

def onInterestFinalize (entry : Nat) (isSatisfied : Bool) (dataFreshnessPeriod : Int) (forwarder : Forwarder) :
    Option Forwarder :=
  let forwarder := forwarder.insertDeadNonceList entry isSatisfied dataFreshnessPeriod none
  (forwarder.cancelUnsatisfyAndStragglerTimer entry).pitErase entry

def onInterestUnsatisfied (entry : Nat) (strategy : Strategy) (forwarder : Forwarder) : Option Forwarder := do
  let forwarder ← forwarder.dispatchToStrategy entry strategy
  forwarder.onInterestFinalize entry false (-1)

def onDataUnsolicited (inFace : Face) (data : FreshData) (forwarder : Forwarder) : Forwarder :=
  if inFace.isLocal then forwarder.emit (.csInsert data true) else forwarder

/-- The round of `onIncomingData` for one matching entry, with the pending downstreams
remembered so far. -/
def satisfy (inFace : Face) (data : FreshData) (strategy : Strategy) (state : List Face × Forwarder) (entry : Nat) :
    Option (List Face × Forwarder) := do
  let (downstreams,forwarder) := state
  let forwarder := forwarder.cancelUnsatisfyAndStragglerTimer entry
  let found ← forwarder.entries[entry]?
  let pending := (found.inRecords.filter fun record => forwarder.now < record.expiry).map fun record => record.face
  let forwarder ← forwarder.dispatchToStrategy entry strategy
  let forwarder := forwarder.insertDeadNonceList entry true data.freshnessPeriod (some inFace)
  let forwarder := forwarder.modify entry fun found => found.deleteInRecords.deleteOutRecord inFace
  return (pending.foldl (fun set face => set.insert face) downstreams,forwarder.setStragglerTimer entry true data.freshnessPeriod)

def onIncomingData (matchesData : Interest → FreshData → Bool) (inFace : Face) (data : FreshData)
    (strategy : Strategy) (forwarder : Forwarder) : Option Forwarder :=
  if violatesLocalhost inFace data.name then some forwarder
  else
    match forwarder.findAllDataMatches matchesData data with
    | [] => some (forwarder.onDataUnsolicited inFace data)
    | pitMatches => do
      let (downstreams,forwarder) ← pitMatches.foldlM (satisfy inFace data strategy)
        ([],forwarder.emit (.csInsert data false))
      return (downstreams.filter (· ≠ inFace)).foldl (fun forwarder face => forwarder.onOutgoingData data face) forwarder

/-! Runs. -/

/-- A timer event runs when its timer is pending and due. -/
def step (matchesData : Interest → FreshData → Bool) (forwarder : Forwarder) (timed : Time × Event) :
    Option Forwarder :=
  let forwarder := { forwarder with now := timed.1 }
  match timed.2 with
  | .incomingInterest inFace interest cached strategy => forwarder.onIncomingInterest inFace interest cached strategy
  | .incomingData inFace data strategy => forwarder.onIncomingData matchesData inFace data strategy
  | .strategyAction action => forwarder.act action
  | .unsatisfyTimer entry strategy => do
    let found ← forwarder.entries[entry]?
    if found.unsatisfyTimer = some timed.1 then
      onInterestUnsatisfied entry strategy (forwarder.modify entry fun found => { found with unsatisfyTimer := none })
    else none
  | .stragglerTimer entry => do
    let found ← forwarder.entries[entry]?
    let timer ← found.stragglerTimer
    if timer.due = timed.1 then
      onInterestFinalize entry timer.isSatisfied timer.dataFreshnessPeriod
        (forwarder.modify entry fun found => { found with stragglerTimer := none })
    else none
  | .mark => some { forwarder with deadNonceList := forwarder.deadNonceList.addMark }
  | .adjustCapacity => some { forwarder with deadNonceList := forwarder.deadNonceList.adjustCapacity }
  | .addFace face => some { forwarder with faceTable := forwarder.faceTable.insert face }
  | .removeFace face => some { forwarder with faceTable := forwarder.faceTable.filter (· ≠ face) }

def next (matchesData : Interest → FreshData → Bool) : Option Forwarder → Time × Event → Option Forwarder :=
  attempt (step matchesData)

end Forwarder

end Ncfcc.Nfd.Fw
