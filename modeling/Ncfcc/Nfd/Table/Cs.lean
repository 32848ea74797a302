import Ncfcc.Library.Scheduler
import Ncfcc.Nfd.Table.InterestMatch

/-! The content store: a set of entries in the order of full names, and a replacement policy that
is told of every change. Iterators are numbers that are never used again; where an iterator
would leave the set there is no result. -/
namespace Ncfcc.Nfd.Table
open Ncfcc.Library

inductive CachingPolicy where
  | noCache
  deriving DecidableEq

/-- Data with their freshness period in milliseconds, negative if they have none, and the
caching policy of their local control header. -/
structure DataPacket extends Data where
  freshnessPeriod : Int
  cachingPolicy : Option CachingPolicy
  deriving DecidableEq

/-! The order of entries. -/

/-- What components are ordered by, see `componentLess`. -/
def componentKey (component : Component) : List Nat :=
  (component.headD 0).toNat :: component.length :: component.map UInt8.toNat

def compareComponents (first second : Component) : Ordering :=
  if componentLess first second then .lt else if componentLess second first then .gt else .eq

def nameLess (first second : Name) : Bool := decide (first.map componentKey < second.map componentKey)

def compareNames (first second : Name) : Ordering :=
  if nameLess first second then .lt else if nameLess second first then .gt else .eq

def compareQueryWithData (queryName : Name) (data : Data) : Ordering :=
  let queryIsFullName := queryName.getLast?.any isImplicitSha256Digest
  let cmp := if queryIsFullName then compareNames queryName.dropLast data.name else compareNames queryName data.name
  if cmp ≠ .eq then cmp
  else if queryIsFullName then compareComponents (queryName.getLastD []) (digestComponent data.digest)
  else .lt

def compareDataWithData (first second : Data) : Ordering :=
  let cmp := compareNames first.name second.name
  if cmp ≠ .eq then cmp else compareComponents (digestComponent first.digest) (digestComponent second.digest)

/-! Entries. -/

/-- The stale time is none where the Data never expire. -/
structure CsEntry where
  data : DataPacket
  isUnsolicited : Bool
  staleTime : Option Int
  deriving DecidableEq

namespace CsEntry

def freshness (data : DataPacket) : Int := data.freshnessPeriod * 1000000

def updateStaleTime (now : Int) (entry : CsEntry) : CsEntry :=
  {entry with staleTime := if entry.data.freshnessPeriod ≥ 0 then some (now + freshness entry.data) else none}

def setData (now : Int) (data : DataPacket) (isUnsolicited : Bool) : CsEntry :=
  updateStaleTime now ⟨data,isUnsolicited,none⟩

def unsetUnsolicited (now : Int) (entry : CsEntry) : CsEntry := setData now entry.data false

def isStale (now : Int) (entry : CsEntry) : Bool := entry.staleTime.any fun time => time < now

def canStale (entry : CsEntry) : Bool := entry.staleTime.isSome

def less (first second : CsEntry) : Bool := compareDataWithData first.data.toData second.data.toData == .lt

def canSatisfy (interest : Interest) (now : Int) (entry : CsEntry) : Bool :=
  interest.matchesData entry.data.toData && !(interest.selectors.mustBeFresh && entry.isStale now)

end CsEntry

/-- The events of the scheduler are for entries. -/
structure Cs (σ : Type) where
  table : List (Nat × CsEntry)
  nextEntry : Nat
  limit : Nat
  scheduler : Scheduler Nat
  policy : σ

/-- The virtual methods of a policy; none stands for a failed assertion. -/
structure Policy (σ : Type) where
  doAfterInsert : Cs σ → Nat → Option (Cs σ)
  doAfterRefresh : Cs σ → Nat → Option (Cs σ)
  doBeforeUse : Cs σ → Nat → Option (Cs σ)
  evictEntries : Cs σ → Option (Cs σ)

namespace Cs
variable {σ : Type}

section
variable (cs : Cs σ)

def size : Nat := cs.table.length

def stored : List Nat := cs.table.map Prod.fst

def entry (i : Nat) : Option CsEntry := (cs.table.find? fun node => node.1 = i).map Prod.snd

def setEntry (i : Nat) (change : CsEntry → CsEntry) : Cs σ :=
  {cs with table := cs.table.map fun node => if node.1 = i then (i,change node.2) else node}

/-- What the store does when the policy emits `beforeEvict`. -/
def beforeEvict (i : Nat) : Cs σ := {cs with table := cs.table.eraseP fun node => node.1 = i}

def existing (entry : CsEntry) : Option Nat :=
  (cs.table.find? fun node => !node.2.less entry).bind fun node => if entry.less node.2 then none else some node.1

def enter (entry : CsEntry) : Cs σ :=
  {cs with
    table := (cs.table.takeWhile fun node => node.2.less entry) ++
      (cs.nextEntry,entry) :: cs.table.dropWhile fun node => node.2.less entry
    nextEntry := cs.nextEntry + 1}

/-- The first entry that is not before a query. -/
def lowerBound (name : Name) : Nat :=
  (cs.table.takeWhile fun node => compareQueryWithData name node.2.data.toData == .gt).length

def satisfies (interest : Interest) (index : Nat) : Bool :=
  cs.table[index]?.any fun node => node.2.canSatisfy interest cs.scheduler.now

def findLeftmost (interest : Interest) (first last : Nat) : Option Nat :=
  if first ≤ last then some (((List.range' first (last - first)).find? (cs.satisfies interest)).getD last) else none

def findRightmostAmongExact (interest : Interest) (first last : Nat) : Option Nat :=
  if first ≤ last then some (((List.range' first (last - first)).reverse.find? (cs.satisfies interest)).getD last) else none

/-- The loop of `findRightmost`, from the right end of what is left to search. -/
def findRightmost (interest : Interest) (first last : Nat) : Nat → Nat → Option Nat
  | 0, _ => none
  | fuel + 1, right =>
    if right = first then some last
    else if right = 0 then none
    else
      cs.table[right - 1]?.bind fun prev =>
        if prev.2.data.name.length = interest.name.length then
          (cs.findRightmostAmongExact interest first right).map fun matchExact =>
            if matchExact = right then last else matchExact
        else
          let left := cs.lowerBound (prev.2.data.name.getPrefix (interest.name.length + 1))
          (cs.findLeftmost interest left right).bind fun found =>
            if found = right then findRightmost interest first last fuel left else some found

/-- The entry that `find` hits, or that there is a miss. The successor of a name is a parameter. -/
def search (getSuccessor : Name → Name) (interest : Interest) : Option (Option Nat) :=
  let first := cs.lowerBound interest.name
  let last := if interest.name ≠ [] then cs.lowerBound (getSuccessor interest.name) else cs.table.length
  let found := if interest.selectors.childSelector = some 1 then
      cs.findRightmost interest first last (cs.table.length + 1) last
    else cs.findLeftmost interest first last
  found.bind fun index => if index = last then some none else cs.table[index]?.map fun node => some node.1

end

section
variable (policy : Policy σ) (cs : Cs σ)

def insert (data : DataPacket) (isUnsolicited : Bool) : Option (Cs σ × Bool) :=
  if data.cachingPolicy = some .noCache then some (cs,false)
  else
    let now := cs.scheduler.now
    let new := CsEntry.setData now data isUnsolicited
    match cs.existing new with
    | some i =>
      let refreshed := cs.setEntry i fun entry =>
        let updated := entry.updateStaleTime now
        if updated.isUnsolicited && !isUnsolicited then updated.unsetUnsolicited now else updated
      (policy.doAfterRefresh refreshed i).map fun cs => (cs,true)
    | none =>
      (policy.doAfterInsert (cs.enter (new.updateStaleTime now)) cs.nextEntry).map fun cs => (cs,true)

def find (getSuccessor : Name → Name) (interest : Interest) : Option (Cs σ × Option Nat) :=
  (cs.search getSuccessor interest).bind fun found =>
    match found with
    | none => some (cs,none)
    | some i => (policy.doBeforeUse cs i).map fun cs => (cs,some i)

/-- The limit is positive, which is asserted. -/
def setLimit (nMaxEntries : Nat) : Option (Cs σ) :=
  if nMaxEntries > 0 then policy.evictEntries {cs with limit := nMaxEntries} else none

end

end Cs

end Ncfcc.Nfd.Table
