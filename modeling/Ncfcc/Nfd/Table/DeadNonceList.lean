import Mathlib.Algebra.Group.Nat.Defs
import Ncfcc.Nfd.CityHash

/-! The Dead Nonce List: a queue of hashes of names and nonces, kept near a capacity that
the marks between them adjust. -/
namespace Ncfcc.Nfd.Table

structure DeadNonceList where
  queue : List UInt64
  capacity : Nat
  actualMarkCounts : List Nat
  deriving DecidableEq

namespace DeadNonceList

/-- Six seconds, in nanoseconds. -/
def defaultLifetime : Int := 6000000000

def initialCapacity : Nat := 2^7

def minCapacity : Nat := 2^3

def maxCapacity : Nat := 2^24

def mark : UInt64 := 0

def expectedMarkCount : Nat := 5

def evictLimit : Nat := 2^6

def new : DeadNonceList where
  queue := List.replicate expectedMarkCount mark
  capacity := initialCapacity
  actualMarkCounts := []

def makeEntry (name : Name) (nonce : UInt32) : UInt64 :=
  CityHash.cityHash64WithSeed name.wire nonce.toUInt64

def has (list : DeadNonceList) (name : Name) (nonce : UInt32) : Bool := list.queue.contains (makeEntry name nonce)

/-- At most `evictLimit` of the entries above the capacity go, the oldest first. -/
def evictEntries (list : DeadNonceList) : DeadNonceList :=
  { list with queue := list.queue.drop (min (list.queue.length - list.capacity) evictLimit) }

def add (list : DeadNonceList) (name : Name) (nonce : UInt32) : DeadNonceList :=
  evictEntries { list with queue := list.queue ++ [makeEntry name nonce] }

def countMarks (list : DeadNonceList) : Nat := list.queue.count mark

/-- The event `mark`. -/
def addMark (list : DeadNonceList) : DeadNonceList :=
  let marked := { list with queue := list.queue ++ [mark] }
  { marked with actualMarkCounts := list.actualMarkCounts ++ [marked.countMarks] }

/-- The factors of the capacity are 0.9 and 1.2, and the products are cut to integers. -/
def adjustCapacity (list : DeadNonceList) : DeadNonceList :=
  let capacity :=
    if list.actualMarkCounts.all (expectedMarkCount < ·) then max minCapacity (list.capacity * 9 / 10)
    else if list.actualMarkCounts.all (· < expectedMarkCount) then min maxCapacity (list.capacity * 12 / 10)
    else list.capacity
  evictEntries { list with capacity, actualMarkCounts := [] }

end DeadNonceList

end Ncfcc.Nfd.Table
