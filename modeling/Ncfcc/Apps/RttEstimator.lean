import Mathlib.Algebra.Group.Nat.Defs
import Mathlib.Algebra.Order.Group.Unbundled.Int
import Ncfcc.Apps.Simulator

/-! The mean-deviation round-trip estimator. Its history, sample count and
multiplier are modelled exactly; the formulas computed in `double` are taken as
the functions they are, with the attributes of the object inside them. -/
namespace Ncfcc.Apps

structure RttHistory where
  seq : Nat
  count : Nat
  time : Time
  retx : Bool
  deriving DecidableEq, Repr

/-- The floating-point formulas of `Measurement` and `RetransmitTimeout`. -/
structure RttArithmetic where
  smoothed : (estimate sample : Time) → Time
  deviation : (variance estimate sample : Time) → Time
  firstDeviation : (sample : Time) → Time
  timeout : (multiplier : Nat) → (estimate variance : Time) → Time

/-- The formulas under the default attributes, rounded to whole ticks. -/
def RttArithmetic.ticks : RttArithmetic where
  smoothed estimate sample := estimate + (sample - estimate) / 8
  deviation variance estimate sample := variance + (|sample - estimate| - variance) / 4
  firstDeviation sample := sample / 2
  timeout multiplier estimate variance :=
    min (200 * second) (max (multiplier * (second / 5)) (multiplier * (estimate + 4 * variance)))

structure RttMeanDeviation where
  arithmetic : RttArithmetic
  maxMultiplier : Nat
  currentEstimatedRtt : Time
  variance : Time
  nSamples : Nat
  multiplier : Nat
  history : List RttHistory

namespace RttMeanDeviation

def initial (arithmetic : RttArithmetic) : RttMeanDeviation where
  arithmetic := arithmetic
  maxMultiplier := 64
  currentEstimatedRtt := 4 * second
  variance := 0
  nSamples := 0
  multiplier := 1
  history := []

/-- The counter of samples has 32 bits. -/
def measurement (rtt : RttMeanDeviation) (sample : Time) : RttMeanDeviation :=
  if rtt.nSamples ≠ 0 then
    { rtt with
      currentEstimatedRtt := rtt.arithmetic.smoothed rtt.currentEstimatedRtt sample
      variance := rtt.arithmetic.deviation rtt.variance rtt.currentEstimatedRtt sample
      nSamples := (rtt.nSamples + 1) % 2^32 }
  else
    { rtt with
      currentEstimatedRtt := sample
      variance := rtt.arithmetic.firstDeviation sample
      nSamples := (rtt.nSamples + 1) % 2^32 }

def retransmitTimeout (rtt : RttMeanDeviation) : Time :=
  rtt.arithmetic.timeout rtt.multiplier rtt.currentEstimatedRtt rtt.variance

def increaseMultiplier (rtt : RttMeanDeviation) : RttMeanDeviation :=
  { rtt with
    multiplier := if rtt.multiplier * 2 < rtt.maxMultiplier then rtt.multiplier * 2 else rtt.maxMultiplier }

def resetMultiplier (rtt : RttMeanDeviation) : RttMeanDeviation := { rtt with multiplier := 1 }

def markRetx (seq : Nat) : List RttHistory → List RttHistory
  | [] => []
  | record :: rest => if seq = record.seq then { record with retx := true } :: rest
    else record :: markRetx seq rest

def sentSeq (rtt : RttMeanDeviation) (now : Time) (seq size : Nat) : RttMeanDeviation :=
  if rtt.history.any (fun record => seq = record.seq) then
    { rtt with history := markRetx seq rtt.history }
  else { rtt with history := rtt.history ++ [⟨seq,size,now,false⟩] }

/-- The round-trip time measured for this acknowledgement, zero if none is. -/
def ackSeq (rtt : RttMeanDeviation) (now : Time) (ack : Nat) : Time × RttMeanDeviation :=
  match rtt.history.find? (fun record => ack = record.seq) with
  | none => (0,rtt)
  | some record =>
    let sample := if record.retx then 0 else now - record.time
    let measured := if record.retx then rtt else (rtt.measurement sample).resetMultiplier
    (sample,{ measured with history := rtt.history.eraseP (fun record => ack = record.seq) })

/-- `RttEstimator::ClearSent`; the next expected number it resets is not read by
this estimator. -/
def clearSent (rtt : RttMeanDeviation) : RttMeanDeviation := { rtt with history := [] }

/-- The sample that an acknowledgement passes to `Measurement`, if it takes one. -/
def sampled (rtt : RttMeanDeviation) (now : Time) (ack : Nat) : Option Time :=
  match rtt.history.find? (fun record => ack = record.seq) with
  | none => none
  | some record => if record.retx then none else some (now - record.time)

theorem ackSeq_sampled (rtt : RttMeanDeviation) (now : Time) (ack : Nat) :
    (rtt.ackSeq now ack).2 =
      { (rtt.sampled now ack).elim rtt (fun sample => (rtt.measurement sample).resetMultiplier) with
        history := rtt.history.eraseP (fun record => ack = record.seq) } := by
  unfold ackSeq sampled
  cases found : rtt.history.find? (fun record => ack = record.seq) with
  | none =>
    have kept : rtt.history.eraseP (fun record => ack = record.seq) = rtt.history :=
      List.eraseP_of_forall_not (List.find?_eq_none.mp found)
    simp only [Option.elim,kept]
  | some record => cases marked : record.retx <;> simp [marked]

end RttMeanDeviation

end Ncfcc.Apps
