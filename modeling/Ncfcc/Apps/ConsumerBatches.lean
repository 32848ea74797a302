import Ncfcc.Apps.DelayTraces

/-! `ConsumerBatches`: a consumer that is given its numbers in batches. `AddBatch` may
run at any time, whatever the attribute `Batches` says, and forgets the history of
the round-trip estimator while Interests may be outstanding. -/
namespace Ncfcc.Apps
open Ncfcc.Library

structure ConsumerBatches where
  base : Consumer
  initial : Bool

inductive BatchesEvent where
  | consumer (event : Event)
  | addBatch (amount : Nat)
  deriving DecidableEq, Repr

structure BatchesOccurrence where
  now : Time
  event : BatchesEvent
  deriving DecidableEq, Repr

namespace ConsumerBatches

def withBase (state : ConsumerBatches) (base : Consumer) : ConsumerBatches := { state with base }

def scheduleNextPacket (now : Time) (state : ConsumerBatches) : ConsumerBatches :=
  if state.base.sendRunning then state
  else
    let delay := if state.initial then 0 else state.base.rtt.retransmitTimeout
    ⟨state.base.scheduleSend (now + delay),false⟩

def onRsr (now : Time) (name : Name) (state : ConsumerBatches) : ConsumerBatches :=
  if name = Name.rsr then scheduleNextPacket now state else state

def onTimeout (now : Time) (seq : Nat) (state : ConsumerBatches) : ConsumerBatches :=
  scheduleNextPacket now (state.withBase (state.base.timedOut now seq))

def virtual : Virtual ConsumerBatches where
  base := base
  withBase := withBase
  scheduleNextPacket := scheduleNextPacket
  willSendOutInterest now seq state := state.withBase (state.base.willSendOutInterest now seq)
  onData now data state := state.withBase (state.base.onData now data)
  onRsr := onRsr
  onTimeout := onTimeout

def addBatch (now : Time) (amount : Nat) (state : ConsumerBatches) : ConsumerBatches :=
  scheduleNextPacket now
    { base := { state.base with
        seqMax := (state.base.seqMax + amount) % word
        rtt := state.base.rtt.clearSent }
      initial := true }

def step (state : ConsumerBatches) (occurrence : BatchesOccurrence) : ConsumerBatches :=
  match occurrence.event with
  | .consumer event => virtual.step state ⟨occurrence.now,event⟩
  | .addBatch amount => addBatch occurrence.now amount state

def watch (watched : Watched ConsumerBatches) (occurrence : BatchesOccurrence) : Watched ConsumerBatches :=
  match occurrence.event with
  | .consumer event => virtual.watch watched ⟨occurrence.now,event⟩
  | .addBatch amount => ⟨addBatch occurrence.now amount watched.state,watched.sent⟩

theorem watch_state (watched : Watched ConsumerBatches) (occurrence : BatchesOccurrence) :
    (watch watched occurrence).state = step watched.state occurrence := by
  obtain ⟨now,event⟩ := occurrence
  cases event <;> rfl

theorem scheduleNextPacket_sequencing (now : Time) (state : ConsumerBatches) :
    (scheduleNextPacket now state).base.sequencing = state.base.sequencing := by
  unfold scheduleNextPacket
  split <;> rfl

theorem lawful : virtual.Lawful where
  base_withBase _ _ := rfl
  schedule := scheduleNextPacket_sequencing
  willSend _ _ _ := rfl
  data _ _ _ := rfl
  rsr now name state := by
    change (onRsr now name state).base.sequencing = _
    unfold onRsr
    split
    · exact scheduleNextPacket_sequencing now state
    · rfl
  timeout now seq state := scheduleNextPacket_sequencing now _

end ConsumerBatches

end Ncfcc.Apps
