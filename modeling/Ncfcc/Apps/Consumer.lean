import Mathlib.Data.Finset.Max
import Ncfcc.Name
import Ncfcc.Library.Run
import Ncfcc.Library.TimedSet
import Ncfcc.Apps.RttEstimator

/-! The base class of the consumer applications. Its handlers call methods that the
derived classes override, so they are written over the table of these methods
(`Virtual`); a derived state holds the base part and replaces it as a whole. -/
namespace Ncfcc.Apps
open Ncfcc.Library

/-- The number of values of a `uint32_t`. -/
def word : Nat := 2^32

/-- `std::numeric_limits<uint32_t>::max()`, both "no limit" and "no number". -/
def maxWord : Nat := word - 1

structure Data where
  /-- The 64-bit number in the last name component. -/
  sequenceNumber : Nat
  hopCount : Nat
  deriving DecidableEq, Repr

/-- What the trace sources of a consumer report, oldest first. -/
inductive Trace where
  | transmittedInterest (seq : Nat)
  | lastRetransmittedInterestDataDelay (seq : Nat) (delay : Time) (hopCount : Nat)
  | firstInterestDataDelay (seq : Nat) (delay : Time) (retxCount hopCount : Nat)
  deriving DecidableEq, Repr

structure Consumer where
  active : Bool
  seq : Nat
  seqMax : Nat
  sendEvent : EventId
  retxTimer : Time
  rtt : RttMeanDeviation
  retxSeqs : Finset Nat
  seqTimeouts : TimedSet Nat Time
  seqLastDelay : TimedSet Nat Time
  seqFullDelay : TimedSet Nat Time
  seqRetxCounts : Nat → Nat
  simulator : Simulator
  trace : List Trace

namespace Consumer

/-- A consumer before `StartApplication`: nothing sent, nothing scheduled. -/
def initial (startSeq seqMax : Nat) (retxTimer : Time) (rtt : RttMeanDeviation) : Consumer where
  active := false
  seq := startSeq
  seqMax := seqMax
  sendEvent := none
  retxTimer := retxTimer
  rtt := rtt
  retxSeqs := ∅
  seqTimeouts := .empty
  seqLastDelay := .empty
  seqFullDelay := .empty
  seqRetxCounts := fun _ => 0
  simulator := .initial
  trace := []

def transmitted (consumer : Consumer) : List Nat :=
  consumer.trace.filterMap fun
    | .transmittedInterest seq => some seq
    | _ => none

/-- Everything but the scheduling of `SendPacket` and `CheckRetxTimeout`. -/
def sequencing (consumer : Consumer) : Consumer :=
  { consumer with sendEvent := none, simulator := .initial }

def removeSend (consumer : Consumer) : Consumer :=
  { consumer with simulator := consumer.simulator.remove consumer.sendEvent }

def scheduleSend (consumer : Consumer) (due : Time) : Consumer :=
  { consumer with
    sendEvent := some consumer.simulator.nextUid
    simulator := consumer.simulator.scheduleSend due }

def sendRunning (consumer : Consumer) : Bool := consumer.simulator.isRunning consumer.sendEvent

/-- The choice of `SendPacket`: the least number waiting for retransmission, else
the next new one. The largest 32-bit number stands for "none" and is dropped. -/
def nextSeq (consumer : Consumer) : Option Nat × Consumer :=
  if consumer.active then
    let (seq,rest) := match consumer.retxSeqs.min with
      | ⊤ => (maxWord,consumer)
      | some first => (first,{ consumer with retxSeqs := consumer.retxSeqs.erase first })
    if seq = maxWord then
      if rest.seqMax ≠ maxWord ∧ rest.seq ≥ rest.seqMax then (none,rest)
      else (some rest.seq,{ rest with seq := (rest.seq + 1) % word })
    else (some seq,rest)
  else (none,consumer)

def willSendOutInterest (consumer : Consumer) (now : Time) (seq : Nat) : Consumer :=
  { consumer with
    seqTimeouts := consumer.seqTimeouts.insert seq now
    seqFullDelay := consumer.seqFullDelay.insert seq now
    seqLastDelay := (consumer.seqLastDelay.erase seq).insert seq now
    seqRetxCounts := Function.update consumer.seqRetxCounts seq ((consumer.seqRetxCounts seq + 1) % word)
    rtt := consumer.rtt.sentSeq now seq 1 }

def transmit (consumer : Consumer) (seq : Nat) : Consumer :=
  { consumer with trace := consumer.trace ++ [.transmittedInterest seq] }

def delayTraces (consumer : Consumer) (now : Time) (seq hopCount : Nat) : List Trace :=
  ((consumer.seqLastDelay.find seq).toList.map fun time =>
    .lastRetransmittedInterestDataDelay seq (now - time) hopCount) ++
  ((consumer.seqFullDelay.find seq).toList.map fun time =>
    .firstInterestDataDelay seq (now - time) (consumer.seqRetxCounts seq) hopCount)

/-- `Consumer::OnData`. The estimator is acknowledged twice, as in the source; the
timeout computed after that is assigned to a local variable only. -/
def onData (consumer : Consumer) (now : Time) (data : Data) : Consumer :=
  if consumer.active then
    let seq := data.sequenceNumber % word
    { consumer with
      trace := consumer.trace ++ consumer.delayTraces now seq data.hopCount
      seqRetxCounts := Function.update consumer.seqRetxCounts seq 0
      seqFullDelay := consumer.seqFullDelay.erase seq
      seqLastDelay := consumer.seqLastDelay.erase seq
      seqTimeouts := consumer.seqTimeouts.erase seq
      retxSeqs := consumer.retxSeqs.erase seq
      rtt := ((consumer.rtt.ackSeq now seq).2.ackSeq now seq).2 }
  else consumer

/-- `Consumer::OnTimeout` up to its call of `ScheduleNextPacket`. -/
def timedOut (consumer : Consumer) (now : Time) (seq : Nat) : Consumer :=
  { consumer with
    rtt := consumer.rtt.increaseMultiplier.sentSeq now seq 1
    retxSeqs := insert seq consumer.retxSeqs }

def expired (consumer : Consumer) (now rto : Time) : Option Nat :=
  match consumer.seqTimeouts.front with
  | none => none
  | some (seq,time) => if time + rto ≤ now then some seq else none

def eraseTimeout (consumer : Consumer) (seq : Nat) : Consumer :=
  { consumer with seqTimeouts := consumer.seqTimeouts.erase seq }

theorem nextSeq_seqTimeouts (consumer : Consumer) :
    consumer.nextSeq.2.seqTimeouts = consumer.seqTimeouts := by
  unfold nextSeq
  split
  · dsimp only
    cases consumer.retxSeqs.min <;> dsimp only <;> split <;> (try split) <;> rfl
  · rfl

end Consumer

/-- The overridable methods of a consumer whose whole state is `σ`. -/
structure Virtual (σ : Type) where
  base : σ → Consumer
  withBase : σ → Consumer → σ
  scheduleNextPacket : Time → σ → σ
  willSendOutInterest : Time → Nat → σ → σ
  onData : Time → Data → σ → σ
  onRsr : Time → Name → σ → σ
  onTimeout : Time → Nat → σ → σ

/-- Overriding methods act on the base part as the base methods do, except for the
`SendPacket` events that `ScheduleNextPacket` creates and removes. -/
structure Virtual.Lawful {σ : Type} (virtual : Virtual σ) : Prop where
  base_withBase : ∀ state consumer, virtual.base (virtual.withBase state consumer) = consumer
  schedule : ∀ now state,
    (virtual.base (virtual.scheduleNextPacket now state)).sequencing = (virtual.base state).sequencing
  willSend : ∀ now seq state, virtual.base (virtual.willSendOutInterest now seq state) =
    (virtual.base state).willSendOutInterest now seq
  data : ∀ now data state, (virtual.base (virtual.onData now data state)).sequencing =
    ((virtual.base state).onData now data).sequencing
  rsr : ∀ now name state,
    (virtual.base (virtual.onRsr now name state)).sequencing = (virtual.base state).sequencing
  timeout : ∀ now seq state, (virtual.base (virtual.onTimeout now seq state)).sequencing =
    ((virtual.base state).timedOut now seq).sequencing

inductive Event where
  | startApplication
  | stopApplication
  /-- The pending `SendPacket` event of this uid fires. -/
  | sendPacket (uid : Nat)
  | onData (data : Data)
  | onRsr (name : Name)
  | checkRetxTimeout
  deriving DecidableEq, Repr

structure Occurrence where
  now : Time
  event : Event
  deriving DecidableEq, Repr

namespace Virtual
variable {σ : Type} (virtual : Virtual σ)

def startApplication (now : Time) (state : σ) : σ :=
  virtual.scheduleNextPacket now (virtual.withBase state { virtual.base state with active := true })

def stopApplication (state : σ) : σ :=
  virtual.withBase state { (virtual.base state).removeSend with active := false }

def sendPacket (now : Time) (state : σ) : σ :=
  match (virtual.base state).nextSeq with
  | (none,consumer) => virtual.withBase state consumer
  | (some seq,consumer) =>
    let sent := virtual.willSendOutInterest now seq (virtual.withBase state consumer)
    virtual.scheduleNextPacket now (virtual.withBase sent ((virtual.base sent).transmit seq))

/-- The loop of `CheckRetxTimeout`, for at most as many rounds as `fuel`. -/
def expire (now rto : Time) : (fuel : Nat) → σ → σ
  | 0, state => state
  | fuel + 1, state =>
    match (virtual.base state).expired now rto with
    | none => state
    | some seq => expire now rto fuel
        (virtual.onTimeout now seq (virtual.withBase state ((virtual.base state).eraseTimeout seq)))

def checkRetxTimeout (now : Time) (state : σ) : σ :=
  let consumer := virtual.base state
  let after := virtual.expire now consumer.rtt.retransmitTimeout consumer.seqTimeouts.size state
  virtual.withBase after { virtual.base after with
    simulator := (virtual.base after).simulator.scheduleCheck (now + (virtual.base after).retxTimer) }

/-- An event that fires is no longer pending when its handler runs. -/
def fire (uid : Nat) (state : σ) : σ :=
  virtual.withBase state
    { virtual.base state with simulator := (virtual.base state).simulator.remove (some uid) }

def step (state : σ) (occurrence : Occurrence) : σ :=
  match occurrence.event with
  | .startApplication => virtual.startApplication occurrence.now state
  | .stopApplication => virtual.stopApplication state
  | .sendPacket uid => virtual.sendPacket occurrence.now (virtual.fire uid state)
  | .onData data => virtual.onData occurrence.now data state
  | .onRsr name => virtual.onRsr occurrence.now name state
  | .checkRetxTimeout => virtual.checkRetxTimeout occurrence.now state

end Virtual

end Ncfcc.Apps
