import Mathlib.Data.List.Nodup
import Ncfcc.Nfd.Table.Cs

/-! The priority FIFO policy of the content store. Every entry is in one of three queues; an
entry of the FIFO queue may have an event that moves it to the stale queue. -/
namespace Ncfcc.Nfd.Table
open Ncfcc.Library

inductive QueueType where
  | unsolicited
  | stale
  | fifo
  deriving DecidableEq

structure EntryInfo where
  queueType : QueueType
  queueIt : Nat
  moveStaleEventId : Option Nat
  deriving DecidableEq

/-- The queues are linked lists, whose nodes are numbers that are never used again. The info
map compares iterators by the entries they point to, which are all different. -/
structure PriorityFifo where
  queues : QueueType → List (Nat × Nat)
  nextNode : Nat
  entryInfoMap : Nat → Option EntryInfo

namespace PriorityFifo
variable (cs : Cs PriorityFifo)

def queueOf (entry : CsEntry) : QueueType :=
  if entry.isUnsolicited then .unsolicited else if entry.isStale cs.scheduler.now then .stale else .fifo

/-- The entry is not in a queue, which is asserted. -/
def attachQueue (i : Nat) : Option (Cs PriorityFifo) :=
  if (cs.policy.entryInfoMap i).isSome then none
  else
    (cs.entry i).map fun entry =>
      let node := cs.policy.nextNode
      {cs with
        scheduler := if queueOf cs entry = .fifo ∧ entry.canStale = true then
          cs.scheduler.schedule (CsEntry.freshness entry.data) i else cs.scheduler
        policy := {
          queues := Function.update cs.policy.queues (queueOf cs entry)
            (cs.policy.queues (queueOf cs entry) ++ [(node,i)])
          nextNode := node + 1
          entryInfoMap := Function.update cs.policy.entryInfoMap i
            (some ⟨queueOf cs entry,node,
              if queueOf cs entry = .fifo ∧ entry.canStale = true then some cs.scheduler.nextId else none⟩)}}

/-- The entry is in a queue, which is asserted, at its node there. -/
def detachQueue (i : Nat) : Option (Cs PriorityFifo) :=
  (cs.policy.entryInfoMap i).bind fun info =>
    if info.queueIt ∈ (cs.policy.queues info.queueType).map Prod.fst then
      some {cs with
        scheduler := if info.queueType = .fifo then cs.scheduler.cancel info.moveStaleEventId else cs.scheduler
        policy := {cs.policy with
          queues := Function.update cs.policy.queues info.queueType
            ((cs.policy.queues info.queueType).eraseP fun node => node.1 = info.queueIt)
          entryInfoMap := Function.update cs.policy.entryInfoMap i none}}
    else none

/-- The entry is in the FIFO queue, which is asserted. -/
def moveToStaleQueue (i : Nat) : Option (Cs PriorityFifo) :=
  (cs.policy.entryInfoMap i).bind fun info =>
    if info.queueType = .fifo ∧ info.queueIt ∈ (cs.policy.queues .fifo).map Prod.fst then
      let node := cs.policy.nextNode
      let erased := Function.update cs.policy.queues .fifo
        ((cs.policy.queues .fifo).eraseP fun node => node.1 = info.queueIt)
      some {cs with
        policy := {
          queues := Function.update erased .stale (erased .stale ++ [(node,i)])
          nextNode := node + 1
          entryInfoMap := Function.update cs.policy.entryInfoMap i
            (some {info with queueType := .stale, queueIt := node})}}
    else none

/-- One of the queues is not empty, which is asserted. -/
def evictOne : Option (Cs PriorityFifo) :=
  let front := if cs.policy.queues .unsolicited ≠ [] then (cs.policy.queues .unsolicited).head?
    else if cs.policy.queues .stale ≠ [] then (cs.policy.queues .stale).head?
    else (cs.policy.queues .fifo).head?
  front.bind fun node => (detachQueue cs node.2).map fun cs => cs.beforeEvict node.2

/-- The loop of `evictEntries`; none if it goes on after this many rounds. -/
def evictRounds : Nat → Cs PriorityFifo → Option (Cs PriorityFifo)
  | 0, cs => if cs.size > cs.limit then none else some cs
  | rounds + 1, cs => if cs.size > cs.limit then (evictOne cs).bind (evictRounds rounds) else some cs

def policy : Policy PriorityFifo where
  doAfterInsert := fun cs i => (attachQueue cs i).bind fun cs => evictRounds cs.size cs
  doAfterRefresh := fun cs i => (detachQueue cs i).bind fun cs => attachQueue cs i
  doBeforeUse := fun cs i => if (cs.policy.entryInfoMap i).isSome then some cs else none
  evictEntries := fun cs => evictRounds cs.size cs

end PriorityFifo

/-! Runs. -/

namespace Cs

inductive Event where
  | insert (data : DataPacket) (isUnsolicited : Bool)
  | find (interest : Interest)
  | setLimit (nMaxEntries : Nat)
  | moveToStaleQueue
  | advance (time : Int)

def fireNext (cs : Cs PriorityFifo) : Option (Cs PriorityFifo) :=
  match cs.scheduler.next with
  | none => some cs
  | some event => PriorityFifo.moveToStaleQueue {cs with scheduler := cs.scheduler.fire event} event.callback

def step (getSuccessor : Name → Name) (cs : Cs PriorityFifo) : Event → Option (Cs PriorityFifo)
  | .insert data isUnsolicited => (cs.insert PriorityFifo.policy data isUnsolicited).map Prod.fst
  | .find interest => (cs.find PriorityFifo.policy getSuccessor interest).map Prod.fst
  | .setLimit nMaxEntries => cs.setLimit PriorityFifo.policy nMaxEntries
  | .moveToStaleQueue => cs.fireNext
  | .advance time => some {cs with scheduler := cs.scheduler.advance time}

def empty (now : Int) : Cs PriorityFifo where
  table := []
  nextEntry := 0
  limit := 0
  scheduler := Scheduler.initial now 0
  policy := ⟨fun _ => [],0,fun _ => none⟩

def new (nMaxPackets : Nat) (now : Int) : Option (Cs PriorityFifo) :=
  (empty now).setLimit PriorityFifo.policy nMaxPackets

end Cs

end Ncfcc.Nfd.Table
