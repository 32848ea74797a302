import Ncfcc.Apps.Transmissions

/-! The two delay traces of a consumer against its transmissions. The containers of the
first and of the last sending and the retransmission counts stay in step with the
recorded transmissions; a stopped consumer reports nothing. -/
namespace Ncfcc.Apps
open Ncfcc.Library

/-- Both reports about a number sent at these times, none about one not sent. -/
def delayReports (times : List Time) (count : Nat) (now : Time) (seq hopCount : Nat) : List Trace :=
  match times.getLast?,times.head? with
  | some last,some first =>
    [.lastRetransmittedInterestDataDelay seq (now - last) hopCount,
      .firstInterestDataDelay seq (now - first) count hopCount]
  | _,_ => []

namespace Consumer

/-- The containers hold the first sending, the last one and the 32-bit count. -/
structure Delays (sent : Nat → List Time) (consumer : Consumer) : Prop where
  first : ∀ seq, consumer.seqFullDelay.find seq = (sent seq).head?
  last : ∀ seq, consumer.seqLastDelay.find seq = (sent seq).getLast?
  count : ∀ seq, consumer.seqRetxCounts seq = (sent seq).length % word

section
variable {sent : Nat → List Time} {consumer : Consumer}

theorem Delays.congr {other : Consumer} (delays : Delays sent consumer)
    (full : other.seqFullDelay = consumer.seqFullDelay) (last : other.seqLastDelay = consumer.seqLastDelay)
    (counts : other.seqRetxCounts = consumer.seqRetxCounts) : Delays sent other := by
  refine ⟨?_,?_,?_⟩
  · rw [full]
    exact delays.first
  · rw [last]
    exact delays.last
  · rw [counts]
    exact delays.count

theorem delays_of_sequencing {first second : Consumer} (same : first.sequencing = second.sequencing) :
    Delays sent first ↔ Delays sent second := by
  have full := field_of_sequencing seqFullDelay (fun _ => rfl) same
  have last := field_of_sequencing seqLastDelay (fun _ => rfl) same
  have counts := field_of_sequencing seqRetxCounts (fun _ => rfl) same
  exact ⟨fun delays => delays.congr full.symm last.symm counts.symm,
    fun delays => delays.congr full last counts⟩

theorem initial_delays (startSeq seqMax : Nat) (retxTimer : Time) (rtt : RttMeanDeviation) :
    (initial startSeq seqMax retxTimer rtt).Delays (fun _ => []) :=
  ⟨fun _ => rfl,fun _ => rfl,fun _ => rfl⟩

theorem Delays.nextSeq (delays : Delays sent consumer) : Delays sent consumer.nextSeq.2 := by
  rcases consumer.nextSeq_cases with same | same | same | ⟨seq,-,-,same⟩
  · rw [same]
    exact delays
  · rw [same]
    exact delays.congr rfl rfl rfl
  · rw [same]
    exact delays.congr rfl rfl rfl
  · rw [same]
    exact delays.congr rfl rfl rfl

theorem Delays.send (delays : Delays sent consumer) (now : Time) (seq : Nat) :
    Delays (Function.update sent seq (sent seq ++ [now]))
      ((consumer.willSendOutInterest now seq).transmit seq) := by
  constructor
  · intro other
    change (consumer.seqFullDelay.insert seq now).find other = _
    rw [TimedSet.find_insert,delays.first,delays.first]
    by_cases same : other = seq
    · simp [same,List.head?_append]
    · simp [same]
  · intro other
    change ((consumer.seqLastDelay.erase seq).insert seq now).find other = _
    rw [TimedSet.find_insert,TimedSet.find_erase,TimedSet.find_erase]
    by_cases same : other = seq
    · simp [same]
    · simp [same,delays.last]
  · intro other
    change Function.update consumer.seqRetxCounts seq ((consumer.seqRetxCounts seq + 1) % word) other = _
    by_cases same : other = seq
    · simp [same,delays.count]
    · simp [same,delays.count]

theorem Delays.data (delays : Delays sent consumer) (now : Time) (data : Data)
    (active : consumer.active = true) :
    Delays (Function.update sent (data.sequenceNumber % word) []) (consumer.onData now data) := by
  unfold onData
  rw [if_pos active]
  constructor
  · intro seq
    change (consumer.seqFullDelay.erase _).find seq = _
    rw [TimedSet.find_erase,delays.first]
    by_cases same : seq = data.sequenceNumber % word <;> simp [same]
  · intro seq
    change (consumer.seqLastDelay.erase _).find seq = _
    rw [TimedSet.find_erase,delays.last]
    by_cases same : seq = data.sequenceNumber % word <;> simp [same]
  · intro seq
    change Function.update consumer.seqRetxCounts _ 0 seq = _
    by_cases same : seq = data.sequenceNumber % word <;> simp [same,delays.count]

/-- What `OnData` reports about a number is what its transmissions say. -/
theorem Delays.delayTraces (delays : Delays sent consumer) (now : Time) (seq hopCount : Nat) :
    consumer.delayTraces now seq hopCount =
      delayReports (sent seq) ((sent seq).length % word) now seq hopCount := by
  unfold Consumer.delayTraces delayReports
  rw [delays.first,delays.last,delays.count]
  cases times : sent seq with
  | nil => rfl
  | cons first rest => simp [List.getLast?_eq_some_getLast]

end

end Consumer

namespace Virtual
variable {σ : Type} {virtual : Virtual σ}

theorem Lawful.delays_step (lawful : virtual.Lawful) (watched : Watched σ) (occurrence : Occurrence)
    (delays : (virtual.base watched.state).Delays watched.sent) :
    (virtual.base (virtual.watch watched occurrence).state).Delays
      (virtual.watch watched occurrence).sent := by
  cases lawful.watched watched occurrence with
  | idle active kept base =>
    rw [kept,Consumer.delays_of_sequencing base]
    exact delays.congr rfl rfl rfl
  | silent rest choice kept base =>
    rw [kept,Consumer.delays_of_sequencing base]
    have chosen := delays.nextSeq
    rw [choice] at chosen
    exact chosen
  | send uid seq rest event choice added base =>
    rw [added,Consumer.delays_of_sequencing base]
    have chosen := delays.nextSeq
    rw [choice] at chosen
    exact chosen.send occurrence.now seq
  | data data active cleared base =>
    rw [cleared,Consumer.delays_of_sequencing base]
    exact delays.data occurrence.now data active
  | check event kept rounds =>
    rw [kept]
    apply rounds
    · intro first second same
      exact Consumer.delays_of_sequencing same
    · intro current seq holds _
      exact holds.congr rfl rfl rfl
    · exact delays

/-- What the arrival of a Data adds to the traces. -/
def Reports (virtual : Virtual σ) (reports : Watched σ → Time → Data → List Trace) (watched : Watched σ)
    (occurrence : Occurrence) : Prop :=
  ∀ data, occurrence.event = .onData data →
    (virtual.base (virtual.watch watched occurrence).state).trace =
      (virtual.base watched.state).trace ++ reports watched occurrence.now data

def transmissionReports (watched : Watched σ) (now : Time) (data : Data) : List Trace :=
  delayReports (watched.sent (data.sequenceNumber % word))
    (watched.sent (data.sequenceNumber % word)).length now (data.sequenceNumber % word) data.hopCount

def activeReports (virtual : Virtual σ) (watched : Watched σ) (now : Time) (data : Data) : List Trace :=
  if (virtual.base watched.state).active then
    delayReports (watched.sent (data.sequenceNumber % word))
      ((watched.sent (data.sequenceNumber % word)).length % word) now (data.sequenceNumber % word)
      data.hopCount
  else []

theorem Lawful.reports (lawful : virtual.Lawful) (watched : Watched σ) (occurrence : Occurrence)
    (delays : (virtual.base watched.state).Delays watched.sent) :
    virtual.Reports virtual.activeReports watched occurrence := by
  obtain ⟨now,event⟩ := occurrence
  rintro data rfl
  have base := lawful.data now data watched.state
  change (virtual.base (virtual.onData now data watched.state)).trace = _
  rw [Consumer.field_of_sequencing Consumer.trace (fun _ => rfl) base]
  unfold activeReports Consumer.onData
  by_cases active : (virtual.base watched.state).active = true
  · rw [if_pos active,if_pos active,← delays.delayTraces]
  · rw [if_neg active,if_neg active,List.append_nil]

/-- In every run of a consumer, of whatever lawful class, a Data that reaches the
active application fires both delay traces once, with the delays since the first
and since the last unacknowledged transmission and their number modulo `2^32`; no
transmission, or no active application, and neither fires. -/
theorem delays_reported (virtual : Virtual σ) (lawful : virtual.Lawful) (initial : σ) (startSeq seqMax : Nat)
    (retxTimer : Time) (rtt : RttMeanDeviation)
    (new : virtual.base initial = Consumer.initial startSeq seqMax retxTimer rtt)
    (occurrences : List Occurrence) :
    Steps virtual.watch (virtual.Reports virtual.activeReports) (Watched.new initial) occurrences := by
  have start : (virtual.base initial).Delays (fun _ => []) := by
    rw [new]
    exact Consumer.initial_delays _ _ _ _
  have always : Along virtual.watch (fun watched => (virtual.base watched.state).Delays watched.sent)
      (Watched.new initial) occurrences :=
    along_of_steps (fun watched occurrence delays _ => lawful.delays_step watched occurrence delays) start
      (Q := fun _ _ => True) (fun _ _ _ => trivial)
  exact steps_of_along (fun watched occurrence delays => lawful.reports watched occurrence delays) always

theorem delays_reported_retransmitted :
    Steps WindowClass.fullyDistributed.virtual.watch
      (WindowClass.fullyDistributed.virtual.Reports WindowClass.fullyDistributed.virtual.activeReports)
      (Watched.new defaultConsumer) retransmitted :=
  delays_reported WindowClass.fullyDistributed.virtual (WindowClass.lawful .fullyDistributed) defaultConsumer
    0 maxWord (second / 20) (.initial .ticks) rfl retransmitted

def answeredStopped : List Occurrence :=
  [⟨0,.startApplication⟩,⟨0,.sendPacket 0⟩,⟨second,.stopApplication⟩,⟨second,.onData ⟨0,2⟩⟩]

/-- One transmission is unacknowledged and neither trace fires. -/
theorem answeredStopped_unreported :
    ¬ Steps WindowClass.fullyDistributed.virtual.watch
      (WindowClass.fullyDistributed.virtual.Reports transmissionReports)
      (Watched.new defaultConsumer) answeredStopped := by
  intro always
  have last := always (answeredStopped.take 3) ⟨second,.onData ⟨0,2⟩⟩ List.prefix_rfl ⟨0,2⟩ rfl
  revert last
  decide

end Virtual

end Ncfcc.Apps
