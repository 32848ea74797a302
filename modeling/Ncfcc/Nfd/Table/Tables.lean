import Ncfcc.Library.Scheduler
import Ncfcc.Nfd.Table.FibEntry
import Ncfcc.Nfd.Table.InterestMatch
import Ncfcc.Nfd.Table.NameTreeEnumeration

/-! The FIB, the PIT, the measurements and the strategy choices on the name tree they share.
Their entries are told apart by numbers that are never used again; an entry points back to
the node it is attached to until it is detached. -/
namespace Ncfcc.Nfd

namespace NameTree

section
variable (tree : NameTree) (id : Nat)

def setFibEntry (fibEntry : Option Nat) : NameTree := tree.modify id fun entry => {entry with fibEntry}

def insertPitEntry (pitEntry : Nat) : NameTree :=
  tree.modify id fun entry => {entry with pitEntries := entry.pitEntries ++ [pitEntry]}

/-- The last entry takes the place of the erased one. -/
def erasePitEntry (pitEntry : Nat) : NameTree :=
  tree.modify id fun entry => {entry with pitEntries := swapRemove entry.pitEntries pitEntry}

def setMeasurementsEntry (measurementsEntry : Option Nat) : NameTree :=
  tree.modify id fun entry => {entry with measurementsEntry}

def setStrategyChoiceEntry (strategyChoiceEntry : Option Nat) : NameTree :=
  tree.modify id fun entry => {entry with strategyChoiceEntry}

def holder (holds : Entry → Bool) : Option Nat := (List.range tree.nextEntry).find? (tree.selects holds)

end

end NameTree

namespace Table
open Ncfcc.Library

/-- The types of the items on a host of StrategyInfo. -/
abbrev StrategyInfo := List Nat

structure PitInfo where
  entry : StrategyInfo
  inRecords : List StrategyInfo
  outRecords : List StrategyInfo
  deriving DecidableEq

def PitInfo.clear (info : PitInfo) : PitInfo :=
  ⟨[],info.inRecords.map fun _ => [],info.outRecords.map fun _ => []⟩

structure Strategy where
  name : Name
  instanceNumber : Nat
  deriving DecidableEq

/-- The strategy instances are in the order of their names. -/
structure Tables where
  tree : NameTree
  nextNumber : Nat
  fibNItems : Nat
  nextHops : Nat → List (NextHop Nat)
  pitNItems : Nat
  interests : Nat → Interest
  pitInfo : Nat → PitInfo
  measurementsNItems : Nat
  expiry : Nat → Int
  cleanupEvent : Nat → Option Nat
  scheduler : Scheduler Nat
  measurementsInfo : Nat → StrategyInfo
  strategyChoiceNItems : Nat
  strategies : Nat → Strategy
  strategyInstances : List Strategy

namespace Tables

/-- The counts of entries are unsigned and wrap below zero. -/
def decrement (count : Nat) : Nat := if count = 0 then 2^64 - 1 else count - 1

section
variable (hashComponent : Component → UInt64) (tables : Tables)

/-! The FIB. -/

def fibInsert (name : Name) : Tables :=
  let (tree,node) := tables.tree.lookup hashComponent name
  match node with
  | none => {tables with tree}
  | some id =>
    match (tree.entries id).bind NameTree.Entry.fibEntry with
    | some _ => {tables with tree}
    | none =>
      {tables with
        tree := tree.setFibEntry id (some tables.nextNumber)
        nextNumber := tables.nextNumber + 1
        fibNItems := tables.fibNItems + 1
        nextHops := Function.update tables.nextHops tables.nextNumber []}

/-- Erases whatever FIB entry the node has. -/
def fibEraseNode (id : Nat) : Tables :=
  {tables with
    tree := ((tables.tree.setFibEntry id none).eraseEntryIfEmpty id).2
    fibNItems := decrement tables.fibNItems}

def fibErase (name : Name) : Tables :=
  match tables.tree.findExactMatch hashComponent name with
  | none => tables
  | some id => tables.fibEraseNode id

def fibNode (fibEntry : Nat) : Option Nat := tables.tree.holder fun entry => entry.fibEntry = some fibEntry

def fibEraseEntry (fibEntry : Nat) : Tables :=
  match tables.fibNode fibEntry with
  | none => tables
  | some id => tables.fibEraseNode id

def addNextHop (fibEntry face cost : Nat) : Tables :=
  {tables with
    nextHops := Function.update tables.nextHops fibEntry (Table.addNextHop (tables.nextHops fibEntry) face cost)}

def removeNextHop (fibEntry face : Nat) : Tables :=
  {tables with
    nextHops := Function.update tables.nextHops fibEntry
      ((tables.nextHops fibEntry).eraseP fun hop => hop.face = face)}

def fibEntries : List Nat :=
  (tables.tree.fullEnumerate fun entry => entry.fibEntry.isSome).filterMap fun id =>
    (tables.tree.entries id).bind NameTree.Entry.fibEntry

/-- Entries left without next hops are erased after the enumeration. -/
def removeNextHopFromAllEntries (face : Nat) : Tables :=
  let removed := tables.fibEntries.foldl (fun tables fibEntry => tables.removeNextHop fibEntry face) tables
  let toErase := tables.fibEntries.filter fun fibEntry => (removed.nextHops fibEntry).isEmpty
  toErase.foldl fibEraseEntry removed

/-! The PIT. -/

def pitInsert (interest : Interest) : Tables :=
  let (tree,node) := tables.tree.lookup hashComponent interest.name
  match node with
  | none => {tables with tree}
  | some id =>
    let pitEntries := ((tree.entries id).map NameTree.Entry.pitEntries).getD []
    if pitEntries.any (fun pitEntry => (tables.interests pitEntry).name = interest.name ∧
        (tables.interests pitEntry).selectors = interest.selectors) then {tables with tree}
    else
      {tables with
        tree := tree.insertPitEntry id tables.nextNumber
        nextNumber := tables.nextNumber + 1
        pitNItems := tables.pitNItems + 1
        interests := Function.update tables.interests tables.nextNumber interest
        pitInfo := Function.update tables.pitInfo tables.nextNumber ⟨[],[],[]⟩}

def pitNode (pitEntry : Nat) : Option Nat := tables.tree.holder fun entry => pitEntry ∈ entry.pitEntries

/-- None where the entry is not in the PIT, which is asserted. -/
def pitErase (pitEntry : Nat) : Option Tables :=
  (tables.pitNode pitEntry).map fun id =>
    {tables with
      tree := ((tables.tree.erasePitEntry id pitEntry).eraseEntryIfEmpty id).2
      pitNItems := decrement tables.pitNItems}

def findAllDataMatches (data : Data) : List Nat :=
  (tables.tree.findAllMatches hashComponent data.name fun entry => !entry.pitEntries.isEmpty).flatMap fun id =>
    (((tables.tree.entries id).map NameTree.Entry.pitEntries).getD []).filter fun pitEntry =>
      (tables.interests pitEntry).matchesData data

/-! The measurements. -/

/-- Four seconds, in nanoseconds. -/
def initialLifetime : Int := 4000000000

def measurementsGetNode (id : Nat) : Tables :=
  match (tables.tree.entries id).bind NameTree.Entry.measurementsEntry with
  | some _ => tables
  | none =>
    {tables with
      tree := tables.tree.setMeasurementsEntry id (some tables.nextNumber)
      nextNumber := tables.nextNumber + 1
      measurementsNItems := tables.measurementsNItems + 1
      expiry := Function.update tables.expiry tables.nextNumber (tables.scheduler.now + initialLifetime)
      cleanupEvent := Function.update tables.cleanupEvent tables.nextNumber (some tables.scheduler.nextId)
      scheduler := tables.scheduler.schedule initialLifetime tables.nextNumber
      measurementsInfo := Function.update tables.measurementsInfo tables.nextNumber []}

def measurementsGet (name : Name) : Tables :=
  let (tree,node) := tables.tree.lookup hashComponent name
  match node with
  | none => {tables with tree}
  | some id => ({tables with tree} : Tables).measurementsGetNode id

def measurementsNode (measurementsEntry : Nat) : Option Nat :=
  tables.tree.holder fun entry => entry.measurementsEntry = some measurementsEntry

/-- The root has no parent. None where the child is not in the table, whose name is not kept. -/
def measurementsGetParent (child : Nat) : Option Tables :=
  (tables.measurementsNode child).bind fun id => (tables.tree.entries id).bind fun entry =>
    if entry.name.isEmpty then some tables else entry.parent.map tables.measurementsGetNode

def extendLifetime (measurementsEntry : Nat) (lifetime : Int) : Tables :=
  match tables.measurementsNode measurementsEntry with
  | none => tables
  | some _ =>
    let expiry := tables.scheduler.now + lifetime
    if tables.expiry measurementsEntry ≥ expiry then tables
    else
      let cancelled := tables.scheduler.cancel (tables.cleanupEvent measurementsEntry)
      {tables with
        expiry := Function.update tables.expiry measurementsEntry expiry
        cleanupEvent := Function.update tables.cleanupEvent measurementsEntry (some cancelled.nextId)
        scheduler := cancelled.schedule lifetime measurementsEntry}

def cleanup (measurementsEntry : Nat) : Tables :=
  match tables.measurementsNode measurementsEntry with
  | none => tables
  | some id =>
    {tables with
      tree := ((tables.tree.setMeasurementsEntry id none).eraseEntryIfEmpty id).2
      measurementsNItems := decrement tables.measurementsNItems}

/-! The strategy choices. -/

/-- The loop of `getStrategy`, with the candidate met so far. -/
def pickStrategy (strategyName : Name) : List Strategy → Option Strategy → Option Strategy
  | [], candidate => candidate
  | strategy :: rest, candidate =>
    if strategyName.isPrefixOf strategy.name then
      if strategy.name.length = strategyName.length then some strategy
      else if strategy.name.length = strategyName.length + 1 then pickStrategy strategyName rest (some strategy)
      else pickStrategy strategyName rest candidate
    else candidate

def getStrategy (strategyName : Name) : Option Strategy :=
  pickStrategy strategyName
    (tables.strategyInstances.dropWhile fun strategy => Name.less strategy.name strategyName) none

/-- A second strategy of one name is not installed. -/
def install (strategy : Strategy) : Tables :=
  if tables.strategyInstances.any (fun other => other.name = strategy.name) then tables
  else
    {tables with strategyInstances :=
      (tables.strategyInstances.takeWhile fun other => Name.less other.name strategy.name) ++
        strategy :: tables.strategyInstances.dropWhile fun other => Name.less other.name strategy.name}

def hasChoice (entry : NameTree.Entry) : Bool := entry.strategyChoiceEntry.isSome

def strategyOf (id : Nat) : Option Strategy :=
  ((tables.tree.entries id).bind NameTree.Entry.strategyChoiceEntry).map tables.strategies

/-- None where no prefix has a choice, which is asserted. The match by name is a parameter. -/
def findEffectiveStrategy (longestMatch : NameTree → Name → (NameTree.Entry → Bool) → Option Nat) (name : Name) :
    Option Strategy :=
  (longestMatch tables.tree name hasChoice).bind tables.strategyOf

def clearStrategyInfo (id : Nat) : Tables :=
  match tables.tree.entries id with
  | none => tables
  | some entry =>
    {tables with
      pitInfo := fun pitEntry =>
        if pitEntry ∈ entry.pitEntries then (tables.pitInfo pitEntry).clear else tables.pitInfo pitEntry
      measurementsInfo := fun measurementsEntry =>
        if entry.measurementsEntry = some measurementsEntry then [] else tables.measurementsInfo measurementsEntry}

def changeSelector (root id : Nat) : Bool × Bool :=
  if id = root then (true,true) else if tables.tree.selects hasChoice id then (false,false) else (true,true)

/-- The entry of the changed choice is at this node, which has this name. -/
def changeStrategy (root : Nat) (name : Name) (oldStrategy newStrategy : Strategy) : Tables :=
  if oldStrategy = newStrategy then tables
  else (tables.tree.partialEnumerate hashComponent name (tables.changeSelector root)).foldl clearStrategyInfo tables

variable (longestMatch : NameTree → Name → (NameTree.Entry → Bool) → Option Nat)

def strategyChoiceInsert (name strategyName : Name) : Option Tables :=
  match tables.getStrategy strategyName with
  | none => some tables
  | some strategy =>
    let (tree,node) := tables.tree.lookup hashComponent name
    let tables := {tables with tree}
    match node with
    | none => some tables
    | some id =>
      match (tree.entries id).bind NameTree.Entry.strategyChoiceEntry with
      | some choice =>
        if (tables.strategies choice).name = strategy.name then some tables
        else
          let changed := tables.changeStrategy hashComponent id name (tables.strategies choice) strategy
          some {changed with strategies := Function.update changed.strategies choice strategy}
      | none =>
        (tables.findEffectiveStrategy longestMatch name).map fun oldStrategy =>
          let entered := {tables with
            tree := tree.setStrategyChoiceEntry id (some tables.nextNumber)
            nextNumber := tables.nextNumber + 1
            strategyChoiceNItems := tables.strategyChoiceNItems + 1}
          let changed := entered.changeStrategy hashComponent id name oldStrategy strategy
          {changed with strategies := Function.update changed.strategies tables.nextNumber strategy}

/-- The name of a choice to erase is not empty, which is asserted. -/
def strategyChoiceErase (name : Name) : Option Tables :=
  if name = [] then none
  else
    match tables.tree.findExactMatch hashComponent name with
    | none => some tables
    | some id =>
      match (tables.tree.entries id).bind NameTree.Entry.strategyChoiceEntry with
      | none => some tables
      | some choice =>
        (tables.findEffectiveStrategy longestMatch name.dropLast).map fun parentStrategy =>
          let changed := tables.changeStrategy hashComponent id name (tables.strategies choice) parentStrategy
          {changed with
            tree := ((changed.tree.setStrategyChoiceEntry id none).eraseEntryIfEmpty id).2
            strategyChoiceNItems := decrement changed.strategyChoiceNItems}

/-- `findEffectiveStrategy` of a node, which walks up the parents. -/
def effectiveStrategy (id : Nat) : Option Strategy :=
  (tables.tree.entries id).bind fun entry =>
    if hasChoice entry then tables.strategyOf id
    else
      (tables.tree.findLongestPrefixMatchFrom hasChoice (entry.name.length + 1) (some id)).bind tables.strategyOf

end

/-! The find operations. -/

inductive Query where
  | fibLongest (name : Name)
  | fibLongestOfPit (pitEntry : Nat)
  | fibLongestOfMeasurements (measurementsEntry : Nat)
  | fibExact (name : Name)
  | pitAllDataMatches (data : Data)
  | measurementsLongest (name : Name) (accepts : Nat → Bool)
  | measurementsLongestOfPit (pitEntry : Nat) (accepts : Nat → Bool)
  | measurementsExact (name : Name)
  | strategyChoiceGet (name : Name)
  | effectiveStrategy (name : Name)
  | effectiveStrategyOfPit (pitEntry : Nat)
  | effectiveStrategyOfMeasurements (measurementsEntry : Nat)

section
variable (hashComponent : Component → UInt64) (tables : Tables)

def attachedTo (attached : NameTree.Entry → Option Nat) (node : Option Nat) : List Nat :=
  ((node.bind tables.tree.entries).bind attached).toList

/-- The longest match from the node of an entry. Where the entry is detached only the search of the
measurements goes without a node, and finds nothing. -/
def longestFrom (attached : NameTree.Entry → Option Nat) (node : Option Nat) : Option (List Nat) :=
  node.bind fun id => (tables.tree.entries id).map fun entry => tables.attachedTo attached
    (tables.tree.findLongestPrefixMatchFrom (fun entry => (attached entry).isSome) (entry.name.length + 1) (some id))

def acceptedMeasurements (accepts : Nat → Bool) (entry : NameTree.Entry) : Option Nat :=
  entry.measurementsEntry.filter accepts

/-- The tables after a find operation, and the entries found; none for a failed assertion.
The exact match of the measurements creates what it looks for. -/
def find : Query → Option (Tables × List Nat)
  | .fibLongest name => some (tables,tables.attachedTo NameTree.Entry.fibEntry
      (tables.tree.findLongestPrefixMatch hashComponent name fun entry => entry.fibEntry.isSome))
  | .fibLongestOfPit pitEntry =>
    (tables.longestFrom NameTree.Entry.fibEntry (tables.pitNode pitEntry)).map fun found => (tables,found)
  | .fibLongestOfMeasurements measurementsEntry =>
    (tables.longestFrom NameTree.Entry.fibEntry (tables.measurementsNode measurementsEntry)).map fun found =>
      (tables,found)
  | .fibExact name => some (tables,tables.attachedTo NameTree.Entry.fibEntry
      (tables.tree.findExactMatch hashComponent name))
  | .pitAllDataMatches data => some (tables,tables.findAllDataMatches hashComponent data)
  | .measurementsLongest name accepts => some (tables,tables.attachedTo NameTree.Entry.measurementsEntry
      (tables.tree.findLongestPrefixMatch hashComponent name fun entry => (acceptedMeasurements accepts entry).isSome))
  | .measurementsLongestOfPit pitEntry accepts =>
    some (tables,(tables.longestFrom (acceptedMeasurements accepts) (tables.pitNode pitEntry)).getD [])
  | .measurementsExact name =>
    let (tree,node) := tables.tree.lookup hashComponent name
    let tables := {tables with tree}
    some (tables,tables.attachedTo NameTree.Entry.measurementsEntry node)
  | .strategyChoiceGet name => some (tables,tables.attachedTo NameTree.Entry.strategyChoiceEntry
      (tables.tree.findExactMatch hashComponent name))
  | .effectiveStrategy name => some (tables,tables.attachedTo NameTree.Entry.strategyChoiceEntry
      (tables.tree.findLongestPrefixMatch hashComponent name hasChoice))
  | .effectiveStrategyOfPit pitEntry =>
    (tables.longestFrom NameTree.Entry.strategyChoiceEntry (tables.pitNode pitEntry)).map fun found => (tables,found)
  | .effectiveStrategyOfMeasurements measurementsEntry =>
    (tables.longestFrom NameTree.Entry.strategyChoiceEntry (tables.measurementsNode measurementsEntry)).map fun found =>
      (tables,found)

end

/-! Runs. -/

inductive Operation where
  | fibInsert (name : Name)
  | fibErase (name : Name)
  | fibEraseEntry (fibEntry : Nat)
  | addNextHop (fibEntry face cost : Nat)
  | removeNextHop (fibEntry face : Nat)
  | removeNextHopFromAllEntries (face : Nat)
  | pitInsert (interest : Interest)
  | pitErase (pitEntry : Nat)
  | setPitInfo (pitEntry : Nat) (info : PitInfo)
  | measurementsGet (name : Name)
  | measurementsGetOfFib (fibEntry : Nat)
  | measurementsGetOfPit (pitEntry : Nat)
  | measurementsGetParent (child : Nat)
  | setMeasurementsInfo (measurementsEntry : Nat) (info : StrategyInfo)
  | extendLifetime (measurementsEntry : Nat) (lifetime : Int)
  | cleanup
  | advance (time : Int)
  | install (strategy : Strategy)
  | strategyChoiceInsert (name strategyName : Name)
  | strategyChoiceErase (name : Name)
  | find (query : Query)

section
variable (hashComponent : Component → UInt64)
  (longestMatch : NameTree → Name → (NameTree.Entry → Bool) → Option Nat) (tables : Tables)

/-- None stands for a failed assertion or a null pointer that is followed. -/
def step : Operation → Option Tables
  | .fibInsert name => some (tables.fibInsert hashComponent name)
  | .fibErase name => some (tables.fibErase hashComponent name)
  | .fibEraseEntry fibEntry => some (tables.fibEraseEntry fibEntry)
  | .addNextHop fibEntry face cost => some (tables.addNextHop fibEntry face cost)
  | .removeNextHop fibEntry face => some (tables.removeNextHop fibEntry face)
  | .removeNextHopFromAllEntries face => some (tables.removeNextHopFromAllEntries face)
  | .pitInsert interest => some (tables.pitInsert hashComponent interest)
  | .pitErase pitEntry => tables.pitErase pitEntry
  | .setPitInfo pitEntry info => some {tables with pitInfo := Function.update tables.pitInfo pitEntry info}
  | .measurementsGet name => some (tables.measurementsGet hashComponent name)
  | .measurementsGetOfFib fibEntry => (tables.fibNode fibEntry).map tables.measurementsGetNode
  | .measurementsGetOfPit pitEntry => (tables.pitNode pitEntry).map tables.measurementsGetNode
  | .measurementsGetParent child => tables.measurementsGetParent child
  | .setMeasurementsInfo measurementsEntry info =>
    some {tables with measurementsInfo := Function.update tables.measurementsInfo measurementsEntry info}
  | .extendLifetime measurementsEntry lifetime => some (tables.extendLifetime measurementsEntry lifetime)
  | .cleanup =>
    match tables.scheduler.next with
    | none => some tables
    | some event => some (({tables with scheduler := tables.scheduler.fire event} : Tables).cleanup event.callback)
  | .advance time => some {tables with scheduler := tables.scheduler.advance time}
  | .install strategy => some (tables.install strategy)
  | .strategyChoiceInsert name strategyName =>
    tables.strategyChoiceInsert hashComponent longestMatch name strategyName
  | .strategyChoiceErase name => tables.strategyChoiceErase hashComponent longestMatch name
  | .find query => (tables.find hashComponent query).map Prod.fst

end

/-- The tables of a forwarder: `setDefaultStrategy` gives the root a choice. -/
def new (hashComponent : Component → UInt64) (nBuckets : Nat) (now : Int) (defaultStrategy : Strategy) : Tables where
  tree := ((NameTree.initial nBuckets).lookup hashComponent []).1.setStrategyChoiceEntry 0 (some 0)
  nextNumber := 1
  fibNItems := 0
  nextHops := fun _ => []
  pitNItems := 0
  interests := fun _ => ⟨[],Selectors.none,0,0⟩
  pitInfo := fun _ => ⟨[],[],[]⟩
  measurementsNItems := 0
  expiry := fun _ => 0
  cleanupEvent := fun _ => none
  scheduler := Scheduler.initial now 0
  measurementsInfo := fun _ => []
  strategyChoiceNItems := 1
  strategies := fun _ => defaultStrategy
  strategyInstances := [defaultStrategy]

end Tables

end Table

end Ncfcc.Nfd
