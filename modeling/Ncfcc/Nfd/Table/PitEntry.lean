import Ncfcc.Cs.Policies
import Ncfcc.Nfd.Table.DeadNonceList

/-! PIT entries with their in-records, out-records and timers. -/
namespace Ncfcc.Nfd.Table
open Ncfcc.Cs (Time milliSeconds)

structure Selectors where
  minSuffixComponents : Option Nat
  maxSuffixComponents : Option Nat
  /-- The encoded key locator, empty if there is none. -/
  publisherPublicKeyLocator : List UInt8
  exclude : List (Component × Bool)
  childSelector : Option Nat
  mustBeFresh : Bool
  deriving DecidableEq

def Selectors.none : Selectors := ⟨.none,.none,[],[],.none,false⟩

structure Interest where
  name : Name
  selectors : Selectors
  nonce : UInt32
  /-- In milliseconds, negative if it is not given. -/
  interestLifetime : Int
  deriving DecidableEq

/-- A face, told from all others by its number. -/
structure Face where
  number : Nat
  isLocal : Bool
  deriving DecidableEq

/-- `std::max_element`: the first of the greatest elements. -/
def maxElement {α : Type} (less : α → α → Bool) : List α → Option α
  | [] => none
  | first :: rest => some (rest.foldl (fun largest next => if less largest next then next else largest) first)

structure FaceRecord where
  face : Face
  lastNonce : UInt32
  lastRenewed : Time
  expiry : Time
  deriving DecidableEq

def defaultInterestLifetime : Int := 4000

namespace FaceRecord

/-- A record of this face after `update`. -/
def updated (face : Face) (interest : Interest) (now : Time) : FaceRecord where
  face := face
  lastNonce := interest.nonce
  lastRenewed := now
  expiry := now + milliSeconds (if interest.interestLifetime < 0 then defaultInterestLifetime
    else interest.interestLifetime)

end FaceRecord

structure InRecord extends FaceRecord where
  interest : Interest
  deriving DecidableEq

abbrev OutRecord := FaceRecord

/-- The pending `onInterestFinalize`, with what is bound to it. -/
structure StragglerTimer where
  due : Time
  isSatisfied : Bool
  dataFreshnessPeriod : Int
  deriving DecidableEq

structure PitEntry where
  interest : Interest
  inRecords : List InRecord
  outRecords : List OutRecord
  /-- When `onInterestUnsatisfied` is due, while it is pending. -/
  unsatisfyTimer : Option Time
  stragglerTimer : Option StragglerTimer
  /-- Is the entry in the PIT? It lives on without it while a strategy refers to it. -/
  inPit : Bool
  deriving DecidableEq

/-- The name `/localhost`. -/
def localhostName : Name := [[0x6c,0x6f,0x63,0x61,0x6c,0x68,0x6f,0x73,0x74]]

/-- The name `/localhop`. -/
def localhopName : Name := [[0x6c,0x6f,0x63,0x61,0x6c,0x68,0x6f,0x70]]

/-- Scope control: a name under `/localhost` stays on local faces. -/
def violatesLocalhost (face : Face) (name : Name) : Bool := !face.isLocal && localhostName.isPrefixOf name

namespace PitEntry

def new (interest : Interest) : PitEntry := ⟨interest,[],[],none,none,true⟩

def hasLocalInRecord (entry : PitEntry) : Bool := entry.inRecords.any fun record => record.face.isLocal

def violatesScope (entry : PitEntry) (face : Face) : Bool :=
  violatesLocalhost face entry.interest.name ||
    (!face.isLocal && localhopName.isPrefixOf entry.interest.name && !entry.hasLocalInRecord)

/-- The bits of the places where the nonce is found: in-records of the same face and of
others, then out-records of the same face and of others. -/
def findNonce (entry : PitEntry) (nonce : UInt32) (face : Face) : Nat :=
  let places (same other : Nat) (found : Nat) (record : FaceRecord) :=
    if record.lastNonce = nonce then found ||| (if record.face = face then same else other) else found
  let inside := entry.inRecords.foldl (fun found record => places 1 2 found record.toFaceRecord) 0
  entry.outRecords.foldl (places 4 8) inside

def insertOrUpdateInRecord (face : Face) (interest : Interest) (now : Time) (entry : PitEntry) : PitEntry :=
  let record : InRecord := ⟨.updated face interest now,interest⟩
  { entry with
    inRecords := match entry.inRecords.findIdx? (fun record => record.face = face) with
      | none => record :: entry.inRecords
      | some index => entry.inRecords.set index record }

def insertOrUpdateOutRecord (face : Face) (interest : Interest) (now : Time) (entry : PitEntry) : PitEntry :=
  let record : OutRecord := .updated face interest now
  { entry with
    outRecords := match entry.outRecords.findIdx? (fun record => record.face = face) with
      | none => record :: entry.outRecords
      | some index => entry.outRecords.set index record }

def getOutRecord (entry : PitEntry) (face : Face) : Option OutRecord :=
  entry.outRecords.find? fun record => record.face = face

def deleteInRecords (entry : PitEntry) : PitEntry := { entry with inRecords := [] }

def deleteOutRecord (face : Face) (entry : PitEntry) : PitEntry :=
  { entry with outRecords := entry.outRecords.eraseP fun record => record.face = face }

def canForwardTo (entry : PitEntry) (face : Face) (now : Time) : Bool :=
  let hasUnexpiredOutRecord := entry.outRecords.any fun record => record.face = face ∧ now ≤ record.expiry
  let hasUnexpiredOtherInRecord := entry.inRecords.any fun record => record.face ≠ face ∧ now ≤ record.expiry
  !hasUnexpiredOutRecord && hasUnexpiredOtherInRecord && !entry.violatesScope face

def hasUnexpiredOutRecords (entry : PitEntry) (now : Time) : Bool :=
  entry.outRecords.any fun record => now ≤ record.expiry

end PitEntry

end Ncfcc.Nfd.Table
