import Ncfcc.Apps.KarnRule

/-! Runs of the round-trip estimator by itself: a number has at most one record in the history, so
that acknowledging it a second time changes nothing. -/
namespace Ncfcc.Apps
open Ncfcc.Library

namespace RttMeanDeviation

def created (arithmetic : RttArithmetic) (maxMultiplier : Nat) (initialEstimatedRtt : Time) : RttMeanDeviation where
  arithmetic := arithmetic
  maxMultiplier := maxMultiplier
  currentEstimatedRtt := initialEstimatedRtt
  variance := 0
  nSamples := 0
  multiplier := 1
  history := []

inductive Call where
  | sentSeq (seq size : Nat)
  | ackSeq (seq : Nat)
  | clearSent
  | increaseMultiplier
  | resetMultiplier
  deriving DecidableEq, Repr

def perform (rtt : RttMeanDeviation) : Time × Call → RttMeanDeviation
  | (now,.sentSeq seq size) => rtt.sentSeq now seq size
  | (now,.ackSeq seq) => (rtt.ackSeq now seq).2
  | (_,.clearSent) => rtt.clearSent
  | (_,.increaseMultiplier) => rtt.increaseMultiplier
  | (_,.resetMultiplier) => rtt.resetMultiplier

private theorem perform_distinct {rtt : RttMeanDeviation} (distinct : rtt.recorded.Nodup) (call : Time × Call) : (rtt.perform call).recorded.Nodup := by
  obtain ⟨now,call⟩ := call
  cases call with
  | sentSeq seq size => exact sentSeq_distinct distinct now seq size
  | ackSeq seq =>
    change (rtt.ackSeq now seq).2.recorded.Nodup
    rw [recorded_ackSeq distinct]
    exact distinct.filter _
  | clearSent => exact List.nodup_nil
  | increaseMultiplier => exact distinct
  | resetMultiplier => exact distinct

/-- A number that has no record is acknowledged without effect. -/
theorem ackSeq_unrecorded {rtt : RttMeanDeviation} {ack : Nat} (unknown : ack ∉ rtt.recorded) (now : Time) :
    (rtt.ackSeq now ack).2 = rtt := by
  rw [ackSeq,find_unrecorded unknown]

/-- One record for each number is what makes the second acknowledgement have no effect. -/
theorem ackSeq_again {rtt : RttMeanDeviation} (distinct : rtt.recorded.Nodup) (now later : Time) (ack : Nat) :
    ((rtt.ackSeq now ack).2.ackSeq later ack).2 = (rtt.ackSeq now ack).2 := by
  apply ackSeq_unrecorded
  rw [recorded_ackSeq distinct]
  simp

private theorem run_distinct (arithmetic : RttArithmetic) (maxMultiplier : Nat) (initialEstimatedRtt : Time)
    (calls : List (Time × Call)) : (run perform (created arithmetic maxMultiplier initialEstimatedRtt) calls).recorded.Nodup := by
  refine List.foldlRecOn (motive := fun rtt : RttMeanDeviation => rtt.recorded.Nodup) calls perform List.nodup_nil ?_
  intro rtt distinct call _
  exact perform_distinct distinct call

/-- In every run of the estimator the numbers of the history are distinct, acknowledging a number twice is acknowledging it
once, and so is what an active consumer does with Data. -/
theorem acknowledged_once (arithmetic : RttArithmetic) (maxMultiplier : Nat) (initialEstimatedRtt : Time)
    (calls : List (Time × Call)) :
    let rtt := run perform (created arithmetic maxMultiplier initialEstimatedRtt) calls
    rtt.recorded.Nodup ∧ (∀ now ack, ((rtt.ackSeq now ack).2.ackSeq now ack).2 = (rtt.ackSeq now ack).2) ∧
      ∀ (consumer : Consumer) now data, (({consumer with rtt := rtt, active := true} : Consumer).onData now data).rtt =
        (rtt.ackSeq now (data.sequenceNumber % word)).2 := by
  intro rtt
  have distinct : rtt.recorded.Nodup := run_distinct arithmetic maxMultiplier initialEstimatedRtt calls
  refine ⟨distinct,fun now ack => ackSeq_again distinct now now ack,?_⟩
  intro consumer now data
  rw [Consumer.onData_rtt now data rfl]
  exact ackSeq_again distinct now now _

end RttMeanDeviation

end Ncfcc.Apps
