import Ncfcc.Apps.ConsumerBatches
import Ncfcc.Library.KeyedList

/-! Karn's rule: a round-trip sample is taken only for a number sent once since it was
last acknowledged. The history of the estimator carries the rule as long as every
unacknowledged number has a record in it, which `ClearSent` can break. -/
namespace Ncfcc.Apps
open Ncfcc.Library

namespace RttMeanDeviation

def recorded (rtt : RttMeanDeviation) : List Nat := rtt.history.map RttHistory.seq

private theorem markRetx_seqs (seq : Nat) (history : List RttHistory) :
    (markRetx seq history).map RttHistory.seq = history.map RttHistory.seq := by
  induction history with
  | nil => rfl
  | cons record rest ih =>
    unfold markRetx
    split
    · rfl
    · rw [List.map_cons,List.map_cons,ih]

private theorem markRetx_unmarked (seq : Nat) (history : List RttHistory)
    (distinct : (history.map RttHistory.seq).Nodup) (record : RttHistory)
    (member : record ∈ markRetx seq history) (unmarked : record.retx = false) :
    record ∈ history ∧ record.seq ≠ seq := by
  induction history with
  | nil => cases member
  | cons first rest ih =>
    rw [List.map_cons,List.nodup_cons] at distinct
    unfold markRetx at member
    split at member
    · rename_i same
      rcases List.mem_cons.mp member with rfl | below
      · cases unmarked
      · refine ⟨List.mem_cons_of_mem _ below,?_⟩
        intro equal
        apply distinct.1
        rw [← same,← equal]
        exact List.mem_map_of_mem below
    · rename_i apart
      rcases List.mem_cons.mp member with rfl | below
      · exact ⟨List.mem_cons_self,fun equal => apart equal.symm⟩
      · obtain ⟨inside,other⟩ := ih distinct.2 below
        exact ⟨List.mem_cons_of_mem _ inside,other⟩

private theorem any_seq_iff (rtt : RttMeanDeviation) (seq : Nat) :
    rtt.history.any (fun record => seq = record.seq) = true ↔ seq ∈ rtt.recorded := by
  rw [List.any_eq_true,recorded,List.mem_map]
  constructor
  · rintro ⟨record,member,same⟩
    exact ⟨record,member,(of_decide_eq_true same).symm⟩
  · rintro ⟨record,member,same⟩
    exact ⟨record,member,decide_eq_true same.symm⟩

private theorem sentSeq_of_recorded (rtt : RttMeanDeviation) (now : Time) (seq size : Nat)
    (known : seq ∈ rtt.recorded) :
    rtt.sentSeq now seq size = { rtt with history := markRetx seq rtt.history } :=
  if_pos ((any_seq_iff rtt seq).mpr known)

private theorem sentSeq_of_unrecorded (rtt : RttMeanDeviation) (now : Time) (seq size : Nat)
    (unknown : seq ∉ rtt.recorded) :
    rtt.sentSeq now seq size = { rtt with history := rtt.history ++ [⟨seq,size,now,false⟩] } :=
  if_neg (fun found => unknown ((any_seq_iff rtt seq).mp found))

private theorem recorded_sentSeq (rtt : RttMeanDeviation) (now : Time) (seq size : Nat) :
    (rtt.sentSeq now seq size).recorded = if seq ∈ rtt.recorded then rtt.recorded else rtt.recorded ++ [seq] := by
  split
  · rename_i known
    rw [sentSeq_of_recorded rtt now seq size known]
    exact markRetx_seqs seq rtt.history
  · rename_i unknown
    rw [sentSeq_of_unrecorded rtt now seq size unknown]
    exact List.map_append

private theorem mem_recorded_sentSeq (rtt : RttMeanDeviation) (now : Time) (seq size other : Nat) :
    other ∈ (rtt.sentSeq now seq size).recorded ↔ other = seq ∨ other ∈ rtt.recorded := by
  rw [recorded_sentSeq]
  split
  · rename_i known
    constructor
    · exact Or.inr
    · rintro (rfl | member)
      · exact known
      · exact member
  · rw [List.mem_append,List.mem_singleton,or_comm]

theorem find_unrecorded {rtt : RttMeanDeviation} {ack : Nat} (unknown : ack ∉ rtt.recorded) :
    rtt.history.find? (fun record => ack = record.seq) = none := by
  apply List.find?_eq_none.mpr
  intro record member same
  apply unknown
  rw [of_decide_eq_true same]
  exact List.mem_map_of_mem member

private theorem eraseP_seq (ack : Nat) (history : List RttHistory) (distinct : (history.map RttHistory.seq).Nodup) :
    history.eraseP (fun record => ack = record.seq) = history.filter (fun record => record.seq ≠ ack) := by
  rw [← eraseP_key distinct ack]
  simp only [eq_comm]

section
variable {rtt : RttMeanDeviation} (distinct : rtt.recorded.Nodup)
include distinct

theorem sentSeq_distinct (now : Time) (seq size : Nat) : (rtt.sentSeq now seq size).recorded.Nodup := by
  rw [recorded_sentSeq]
  split
  · exact distinct
  · rename_i unknown
    apply List.Nodup.append distinct (List.nodup_singleton seq)
    simpa using unknown

private theorem ackSeq_history (now : Time) (ack : Nat) :
    (rtt.ackSeq now ack).2.history = rtt.history.filter (fun record => record.seq ≠ ack) := by
  rw [ackSeq_sampled]
  exact eraseP_seq ack rtt.history distinct

theorem recorded_ackSeq (now : Time) (ack : Nat) : (rtt.ackSeq now ack).2.recorded = rtt.recorded.filter (fun seq => seq ≠ ack) := by
  rw [recorded,ackSeq_history distinct,recorded,List.filter_map]
  rfl

private theorem mem_recorded_ackSeq (now : Time) (ack other : Nat) :
    other ∈ (rtt.ackSeq now ack).2.recorded ↔ other ≠ ack ∧ other ∈ rtt.recorded := by
  rw [recorded_ackSeq distinct,List.mem_filter,decide_eq_true_eq,and_comm]

end

/-- Every number has at most one record, and an unmarked record is of the only
unacknowledged transmission of its number. -/
structure Karn (sent : Nat → List Time) (rtt : RttMeanDeviation) : Prop where
  distinct : rtt.recorded.Nodup
  single : ∀ record ∈ rtt.history, record.retx = false → sent record.seq = [record.time]

section
variable {sent : Nat → List Time} {rtt : RttMeanDeviation}

theorem Karn.mark (karn : Karn sent rtt) (seq : Nat) (times : List Time) :
    Karn (Function.update sent seq times) { rtt with history := markRetx seq rtt.history } := by
  constructor
  · change ((markRetx seq rtt.history).map RttHistory.seq).Nodup
    rw [markRetx_seqs]
    exact karn.distinct
  · intro record member unmarked
    obtain ⟨inside,other⟩ := markRetx_unmarked seq rtt.history karn.distinct record member unmarked
    rw [Function.update_of_ne other]
    exact karn.single record inside unmarked

theorem Karn.send (karn : Karn sent rtt) (now : Time) (seq : Nat)
    (remembered : sent seq ≠ [] → seq ∈ rtt.recorded) :
    Karn (Function.update sent seq (sent seq ++ [now])) (rtt.sentSeq now seq 1) := by
  by_cases known : seq ∈ rtt.recorded
  · rw [sentSeq_of_recorded rtt now seq 1 known]
    exact karn.mark seq _
  · have first : sent seq = [] := by
      by_contra more
      exact known (remembered more)
    refine ⟨sentSeq_distinct karn.distinct now seq 1,?_⟩
    rw [sentSeq_of_unrecorded rtt now seq 1 known,first]
    intro record member unmarked
    rcases List.mem_append.mp member with old | new
    · have other : record.seq ≠ seq := fun same => known (same ▸ List.mem_map_of_mem old)
      rw [Function.update_of_ne other]
      exact karn.single record old unmarked
    · rw [List.mem_singleton.mp new]
      simp

theorem Karn.timeout (karn : Karn sent rtt) (now : Time) (seq : Nat) (known : seq ∈ rtt.recorded) :
    Karn sent (rtt.increaseMultiplier.sentSeq now seq 1) := by
  rw [sentSeq_of_recorded rtt.increaseMultiplier now seq 1 known]
  have marked := karn.mark seq (sent seq)
  rw [Function.update_eq_self] at marked
  exact ⟨marked.distinct,marked.single⟩

theorem Karn.acknowledge (karn : Karn sent rtt) (now : Time) (ack : Nat) (times : List Time) :
    Karn (Function.update sent ack times) (rtt.ackSeq now ack).2 := by
  constructor
  · rw [recorded_ackSeq karn.distinct]
    exact karn.distinct.filter _
  · intro record member unmarked
    rw [ackSeq_history karn.distinct,List.mem_filter,decide_eq_true_eq] at member
    rw [Function.update_of_ne member.2]
    exact karn.single record member.1 unmarked

theorem Karn.sampled (karn : Karn sent rtt) (now : Time) (ack : Nat) (sample : Time)
    (taken : rtt.sampled now ack = some sample) : ∃ time, sent ack = [time] ∧ sample = now - time := by
  unfold RttMeanDeviation.sampled at taken
  cases found : rtt.history.find? (fun record => ack = record.seq) with
  | none => rw [found] at taken; cases taken
  | some record =>
    have same : ack = record.seq := by simpa using List.find?_some found
    rw [found] at taken
    cases marked : record.retx with
    | true => simp [marked] at taken
    | false =>
      simp only [marked,Bool.false_eq_true,↓reduceIte,Option.some.injEq] at taken
      refine ⟨record.time,?_,taken.symm⟩
      rw [same]
      exact karn.single record (List.mem_of_find?_eq_some found) marked

/-- The second call of `AckSeq` in `OnData` finds no record. -/
theorem Karn.sampled_again (karn : Karn sent rtt) (now : Time) (ack : Nat) :
    (rtt.ackSeq now ack).2.sampled now ack = none := by
  have gone : ack ∉ (rtt.ackSeq now ack).2.recorded := by
    rw [mem_recorded_ackSeq karn.distinct]
    exact fun inside => inside.1 rfl
  unfold RttMeanDeviation.sampled
  rw [find_unrecorded gone]

theorem Karn.clearSent (sent : Nat → List Time) (rtt : RttMeanDeviation) : Karn sent rtt.clearSent :=
  ⟨List.nodup_nil,fun _ member => absurd member List.not_mem_nil⟩

end

end RttMeanDeviation

namespace Consumer

/-- Every number sent and not acknowledged, and every one with a running timeout,
has a history record. -/
structure Recorded (sent : Nat → List Time) (consumer : Consumer) : Prop where
  unacknowledged : ∀ seq, sent seq ≠ [] → seq ∈ consumer.rtt.recorded
  outstanding : ∀ seq ∈ consumer.seqTimeouts.keys, seq ∈ consumer.rtt.recorded

section
variable {sent : Nat → List Time} {consumer : Consumer}

theorem Recorded.congr {other : Consumer} (recorded : Recorded sent consumer) (rtt : other.rtt = consumer.rtt)
    (timeouts : other.seqTimeouts = consumer.seqTimeouts) : Recorded sent other := by
  constructor
  · rw [rtt]
    exact recorded.unacknowledged
  · rw [rtt,timeouts]
    exact recorded.outstanding

private theorem recorded_of_sequencing {first second : Consumer} (same : first.sequencing = second.sequencing) :
    Recorded sent first ↔ Recorded sent second := by
  have estimator := field_of_sequencing rtt (fun _ => rfl) same
  have timeouts := seqTimeouts_of_sequencing same
  exact ⟨fun recorded => recorded.congr estimator.symm timeouts.symm,
    fun recorded => recorded.congr estimator timeouts⟩

private theorem nextSeq_rtt (consumer : Consumer) : consumer.nextSeq.2.rtt = consumer.rtt := by
  rcases consumer.nextSeq_cases with same | same | same | ⟨seq,-,-,same⟩ <;> rw [same] <;> rfl

theorem Recorded.send (recorded : Recorded sent consumer) (now : Time) (seq : Nat) :
    Recorded (Function.update sent seq (sent seq ++ [now]))
      ((consumer.willSendOutInterest now seq).transmit seq) := by
  have records : ∀ other, other ∈ ((consumer.willSendOutInterest now seq).transmit seq).rtt.recorded ↔
      other = seq ∨ other ∈ consumer.rtt.recorded :=
    consumer.rtt.mem_recorded_sentSeq now seq 1
  constructor
  · intro other unacknowledged
    rw [records]
    by_cases same : other = seq
    · exact Or.inl same
    · rw [Function.update_of_ne same] at unacknowledged
      exact Or.inr (recorded.unacknowledged other unacknowledged)
  · intro other member
    rw [records]
    have keys := (TimedSet.mem_keys_insert consumer.seqTimeouts seq other now).mp member
    exact keys.imp id (recorded.outstanding other)

theorem Recorded.timeout (recorded : Recorded sent consumer) (now : Time) (seq : Nat) :
    Recorded sent ((consumer.eraseTimeout seq).timedOut now seq) := by
  have records : ∀ other, other ∈ ((consumer.eraseTimeout seq).timedOut now seq).rtt.recorded ↔
      other = seq ∨ other ∈ consumer.rtt.recorded :=
    consumer.rtt.increaseMultiplier.mem_recorded_sentSeq now seq 1
  constructor
  · intro other unacknowledged
    rw [records]
    exact Or.inr (recorded.unacknowledged other unacknowledged)
  · intro other member
    rw [records]
    have keys := (TimedSet.mem_keys_erase consumer.seqTimeouts seq other).mp member
    exact Or.inr (recorded.outstanding other keys.2)

/-- The estimator after `OnData`, which acknowledges the number twice. -/
theorem onData_rtt (now : Time) (data : Data) (active : consumer.active = true) :
    (consumer.onData now data).rtt =
      ((consumer.rtt.ackSeq now (data.sequenceNumber % word)).2.ackSeq now (data.sequenceNumber % word)).2 := by
  simp [onData,active]

private theorem karn_onData (karn : consumer.rtt.Karn sent) (now : Time) (data : Data)
    (active : consumer.active = true) :
    (consumer.onData now data).rtt.Karn (Function.update sent (data.sequenceNumber % word) []) := by
  rw [onData_rtt now data active]
  have first := karn.acknowledge now (data.sequenceNumber % word) []
  have second := first.acknowledge now (data.sequenceNumber % word) []
  rw [Function.update_idem] at second
  exact second

theorem Recorded.data (recorded : Recorded sent consumer) (karn : consumer.rtt.Karn sent) (now : Time)
    (data : Data) (active : consumer.active = true) :
    Recorded (Function.update sent (data.sequenceNumber % word) []) (consumer.onData now data) := by
  have records : ∀ other, other ∈ (consumer.onData now data).rtt.recorded ↔
      other ≠ data.sequenceNumber % word ∧ other ∈ consumer.rtt.recorded := by
    intro other
    have first := karn.acknowledge now (data.sequenceNumber % word) []
    rw [onData_rtt now data active,RttMeanDeviation.mem_recorded_ackSeq first.distinct,RttMeanDeviation.mem_recorded_ackSeq karn.distinct]
    exact ⟨And.right,fun both => ⟨both.1,both⟩⟩
  constructor
  · intro other unacknowledged
    rw [records]
    by_cases same : other = data.sequenceNumber % word
    · simp [same] at unacknowledged
    · rw [Function.update_of_ne same] at unacknowledged
      exact ⟨same,recorded.unacknowledged other unacknowledged⟩
  · intro other member
    have keys : other ≠ data.sequenceNumber % word ∧ other ∈ consumer.seqTimeouts.keys := by
      simpa [onData,active] using member
    rw [records]
    exact ⟨keys.1,recorded.outstanding other keys.2⟩

end

end Consumer

namespace Virtual
variable {σ : Type} (virtual : Virtual σ)

/-- The samples this step passes to `Measurement`, one for each call of `AckSeq`
that takes one. -/
def samples (state : σ) (occurrence : Occurrence) : List Time :=
  match occurrence.event with
  | .onData data =>
    if (virtual.base state).active then
      let rtt := (virtual.base state).rtt
      let seq := data.sequenceNumber % word
      (rtt.sampled occurrence.now seq).toList ++
        ((rtt.ackSeq occurrence.now seq).2.sampled occurrence.now seq).toList
    else []
  | _ => []

/-- Every sample is the time since the only transmission of its number that was not
acknowledged before. -/
def Karn (watched : Watched σ) (occurrence : Occurrence) : Prop :=
  ∀ sample ∈ virtual.samples watched.state occurrence, ∃ data time, occurrence.event = .onData data ∧
    watched.sent (data.sequenceNumber % word) = [time] ∧ sample = occurrence.now - time

/-- A number that is sent again or times out still has its history record. -/
def Remembers (state : σ) (occurrence : Occurrence) : Prop :=
  match occurrence.event with
  | .sendPacket _ => ∀ seq ∈ (virtual.base state).nextSeq.1,
    seq ∈ (virtual.base state).seqFullDelay.keys → seq ∈ (virtual.base state).rtt.recorded
  | .checkRetxTimeout =>
    ∀ entry ∈ (virtual.base state).overdue occurrence.now (virtual.base state).rtt.retransmitTimeout,
      entry.1 ∈ (virtual.base state).rtt.recorded
  | _ => True

variable {virtual}

private theorem karn_of_history (watched : Watched σ) (occurrence : Occurrence)
    (karn : (virtual.base watched.state).rtt.Karn watched.sent) : virtual.Karn watched occurrence := by
  obtain ⟨now,event⟩ := occurrence
  intro sample taken
  cases event with
  | onData data =>
    unfold samples at taken
    dsimp only at taken
    split at taken
    · rw [karn.sampled_again,Option.toList_none,List.append_nil,Option.mem_toList] at taken
      obtain ⟨time,only,since⟩ := karn.sampled now (data.sequenceNumber % word) sample taken
      exact ⟨data,time,rfl,only,since⟩
    · cases taken
  | startApplication => cases taken
  | stopApplication => cases taken
  | sendPacket uid => cases taken
  | onRsr name => cases taken
  | checkRetxTimeout => cases taken

section
variable (lawful : virtual.Lawful)
include lawful

/-- The history keeps Karn's rule through a step that remembers what it repeats. -/
theorem Lawful.karn_step (watched : Watched σ) (occurrence : Occurrence)
    (delays : (virtual.base watched.state).Delays watched.sent)
    (karn : (virtual.base watched.state).rtt.Karn watched.sent)
    (remembers : virtual.Remembers watched.state occurrence) :
    (virtual.base (virtual.watch watched occurrence).state).rtt.Karn
      (virtual.watch watched occurrence).sent := by
  have transfer : ∀ first second : Consumer, first.sequencing = second.sequencing →
      first.rtt = second.rtt :=
    fun _ _ same => Consumer.field_of_sequencing Consumer.rtt (fun _ => rfl) same
  cases lawful.watched watched occurrence with
  | idle active kept base =>
    rw [kept,transfer _ _ base]
    exact karn
  | silent rest choice kept base =>
    have same := (virtual.base watched.state).nextSeq_rtt
    rw [choice] at same
    rw [kept,transfer _ _ base,same]
    exact karn
  | send uid seq rest event choice added base =>
    have same := (virtual.base watched.state).nextSeq_rtt
    rw [choice] at same
    rw [added,transfer _ _ base]
    change (rest.rtt.sentSeq occurrence.now seq 1).Karn _
    rw [same]
    refine karn.send occurrence.now seq ?_
    intro unacknowledged
    unfold Remembers at remembers
    rw [event] at remembers
    refine remembers seq (by rw [choice]; rfl) ?_
    by_contra absent
    apply unacknowledged
    rw [← List.head?_eq_none_iff,← delays.first]
    exact (TimedSet.find_eq_none _ seq).mpr absent
  | data data active cleared base =>
    rw [cleared,transfer _ _ base]
    exact Consumer.karn_onData karn occurrence.now data active
  | check event kept rounds =>
    unfold Remembers at remembers
    rw [event] at remembers
    rw [kept]
    -- The numbers still overdue keep their records while the loop marks them one by one.
    refine (rounds (fun consumer => consumer.rtt.Karn watched.sent ∧
      ∀ entry ∈ consumer.overdue occurrence.now (virtual.base watched.state).rtt.retransmitTimeout,
        entry.1 ∈ consumer.rtt.recorded) ?_ ?_ ⟨karn,remembers⟩).1
    · intro first second same
      rw [transfer _ _ same,Consumer.overdue_congr _ _ (Consumer.seqTimeouts_of_sequencing same)]
    · rintro current seq ⟨holds,known⟩ found
      obtain ⟨time,-,-,overdue⟩ := current.overdue_of_expired _ _ seq found
      have first : seq ∈ current.rtt.recorded := known (seq,time) (by rw [overdue]; exact List.mem_cons_self)
      refine ⟨holds.timeout occurrence.now seq first,?_⟩
      intro entry member
      have before := known entry (by rw [overdue]; exact List.mem_cons_of_mem _ member)
      exact (current.rtt.increaseMultiplier.mem_recorded_sentSeq occurrence.now seq 1 entry.1).mpr
        (Or.inr before)

theorem Lawful.recorded_step (watched : Watched σ) (occurrence : Occurrence)
    (karn : (virtual.base watched.state).rtt.Karn watched.sent)
    (recorded : (virtual.base watched.state).Recorded watched.sent) :
    (virtual.base (virtual.watch watched occurrence).state).Recorded
      (virtual.watch watched occurrence).sent := by
  have chosen : (virtual.base watched.state).nextSeq.2.Recorded watched.sent :=
    recorded.congr (virtual.base watched.state).nextSeq_rtt (virtual.base watched.state).nextSeq_seqTimeouts
  cases lawful.watched watched occurrence with
  | idle active kept base =>
    rw [kept,Consumer.recorded_of_sequencing base]
    exact recorded.congr rfl rfl
  | silent rest choice kept base =>
    rw [choice] at chosen
    rw [kept,Consumer.recorded_of_sequencing base]
    exact chosen
  | send uid seq rest event choice added base =>
    rw [choice] at chosen
    rw [added,Consumer.recorded_of_sequencing base]
    exact chosen.send occurrence.now seq
  | data data active cleared base =>
    rw [cleared,Consumer.recorded_of_sequencing base]
    exact recorded.data karn occurrence.now data active
  | check event kept rounds =>
    rw [kept]
    apply rounds
    · intro first second same
      exact Consumer.recorded_of_sequencing same
    · intro current seq holds _
      exact holds.timeout occurrence.now seq
    · exact recorded

omit lawful in
private theorem remembers_of_recorded (watched : Watched σ) (occurrence : Occurrence)
    (delays : (virtual.base watched.state).Delays watched.sent)
    (recorded : (virtual.base watched.state).Recorded watched.sent) :
    virtual.Remembers watched.state occurrence := by
  obtain ⟨now,event⟩ := occurrence
  cases event with
  | sendPacket uid =>
    intro seq _ present
    apply recorded.unacknowledged
    intro none
    have absent : (virtual.base watched.state).seqFullDelay.find seq = Option.none := by
      rw [delays.first,none]
      rfl
    exact (TimedSet.find_eq_none _ seq).mp absent present
  | checkRetxTimeout =>
    intro entry overdue
    exact recorded.outstanding entry.1 (List.mem_map_of_mem (List.mem_filter.mp overdue).1)
  | startApplication => trivial
  | stopApplication => trivial
  | onData data => trivial
  | onRsr name => trivial

end

end Virtual

namespace ConsumerBatches

/-- Karn's rule for a step of a batch consumer; a batch takes no sample. -/
def Karn (watched : Watched ConsumerBatches) (occurrence : BatchesOccurrence) : Prop :=
  match occurrence.event with
  | .consumer event => virtual.Karn watched ⟨occurrence.now,event⟩
  | .addBatch _ => True

/-- No step repeats a number whose record `ClearSent` has removed. -/
def Remembers (watched : Watched ConsumerBatches) (occurrence : BatchesOccurrence) : Prop :=
  match occurrence.event with
  | .consumer event => virtual.Remembers watched.state ⟨occurrence.now,event⟩
  | .addBatch _ => True

instance (watched : Watched ConsumerBatches) (occurrence : BatchesOccurrence) :
    Decidable (Remembers watched occurrence) :=
  match occurrence with
  | ⟨_,.consumer (.sendPacket _)⟩ =>
    inferInstanceAs (Decidable (∀ seq ∈ watched.state.base.nextSeq.1,
      seq ∈ watched.state.base.seqFullDelay.keys → seq ∈ watched.state.base.rtt.recorded))
  | ⟨now,.consumer .checkRetxTimeout⟩ =>
    inferInstanceAs (Decidable (∀ entry ∈ watched.state.base.overdue now
      watched.state.base.rtt.retransmitTimeout, entry.1 ∈ watched.state.base.rtt.recorded))
  | ⟨_,.consumer .startApplication⟩ | ⟨_,.consumer .stopApplication⟩ | ⟨_,.consumer (.onData _)⟩
  | ⟨_,.consumer (.onRsr _)⟩ | ⟨_,.addBatch _⟩ => inferInstanceAs (Decidable True)

structure Consistent (watched : Watched ConsumerBatches) : Prop where
  delays : watched.state.base.Delays watched.sent
  karn : watched.state.base.rtt.Karn watched.sent

theorem addBatch_sequencing (now : Time) (amount : Nat) (state : ConsumerBatches) :
    (addBatch now amount state).base.sequencing = ({ state.base with
      seqMax := (state.base.seqMax + amount) % word
      rtt := state.base.rtt.clearSent } : Consumer).sequencing :=
  scheduleNextPacket_sequencing now _

private theorem consistent_step (watched : Watched ConsumerBatches) (occurrence : BatchesOccurrence)
    (consistent : Consistent watched) (remembers : Remembers watched occurrence) :
    Consistent (watch watched occurrence) := by
  obtain ⟨now,event⟩ := occurrence
  cases event with
  | consumer event =>
    exact ⟨lawful.delays_step watched ⟨now,event⟩ consistent.delays,
      lawful.karn_step watched ⟨now,event⟩ consistent.delays consistent.karn remembers⟩
  | addBatch amount =>
    have base := addBatch_sequencing now amount watched.state
    constructor
    · refine (Consumer.delays_of_sequencing base).mpr ?_
      exact consistent.delays.congr rfl rfl rfl
    · change (addBatch now amount watched.state).base.rtt.Karn watched.sent
      rw [Consumer.field_of_sequencing Consumer.rtt (fun _ => rfl) base]
      exact RttMeanDeviation.Karn.clearSent watched.sent watched.state.base.rtt

private theorem karn_of_consistent (watched : Watched ConsumerBatches) (occurrence : BatchesOccurrence)
    (consistent : Consistent watched) : Karn watched occurrence := by
  obtain ⟨now,event⟩ := occurrence
  cases event with
  | consumer event => exact Virtual.karn_of_history watched ⟨now,event⟩ consistent.karn
  | addBatch amount => trivial

end ConsumerBatches

namespace RttMeanDeviation

private theorem karn_of_unused (rtt : RttMeanDeviation) (unused : rtt.history = []) (sent : Nat → List Time) :
    rtt.Karn sent := by
  constructor
  · simp [recorded,unused]
  · simp [unused]

end RttMeanDeviation

/-- Karn's rule holds in every run of a consumer of whatever lawful class, and in every
run of a batch consumer in which no number is sent again, or times out, after
`ClearSent` removed its history record. -/
theorem karn_rule (startSeq seqMax : Nat) (retxTimer : Time) (rtt : RttMeanDeviation)
    (unused : rtt.history = []) :
    (∀ (σ : Type) (virtual : Virtual σ) (initial : σ), virtual.Lawful →
        virtual.base initial = Consumer.initial startSeq seqMax retxTimer rtt → ∀ occurrences,
        Steps virtual.watch virtual.Karn (Watched.new initial) occurrences) ∧
      ∀ (initial : ConsumerBatches), initial.base = Consumer.initial startSeq seqMax retxTimer rtt →
        ∀ occurrences, Steps ConsumerBatches.watch ConsumerBatches.Remembers (Watched.new initial) occurrences →
          Steps ConsumerBatches.watch ConsumerBatches.Karn (Watched.new initial) occurrences := by
  constructor
  · intro σ virtual initial lawful new occurrences
    have always : Along virtual.watch (fun watched => (virtual.base watched.state).Delays watched.sent ∧
        (virtual.base watched.state).rtt.Karn watched.sent ∧
        (virtual.base watched.state).Recorded watched.sent) (Watched.new initial) occurrences := by
      refine along_of_steps (Q := fun _ _ => True) ?_ ?_ (fun _ _ _ => trivial)
      · rintro watched occurrence ⟨delays,karn,recorded⟩ -
        have remembers := Virtual.remembers_of_recorded watched occurrence delays recorded
        exact ⟨lawful.delays_step watched occurrence delays,
          lawful.karn_step watched occurrence delays karn remembers,
          lawful.recorded_step watched occurrence karn recorded⟩
      · change (virtual.base initial).Delays (fun _ => []) ∧ _ ∧ (virtual.base initial).Recorded (fun _ => [])
        rw [new]
        refine ⟨Consumer.initial_delays _ _ _ _,?_,fun _ sent => absurd rfl sent,fun _ member => absurd member ?_⟩
        · change (virtual.base initial).rtt.Karn (fun _ => [])
          rw [new]
          exact rtt.karn_of_unused unused _
        · exact List.not_mem_nil
    exact steps_of_along (fun watched occurrence all => Virtual.karn_of_history watched occurrence all.2.1) always
  · intro initial new occurrences remembers
    have start : ConsumerBatches.Consistent (Watched.new initial) := by
      constructor
      · change initial.base.Delays (fun _ => [])
        rw [new]
        exact Consumer.initial_delays _ _ _ _
      · change initial.base.rtt.Karn (fun _ => [])
        rw [new]
        exact rtt.karn_of_unused unused _
    exact steps_of_along ConsumerBatches.karn_of_consistent
      (along_of_steps ConsumerBatches.consistent_step start remembers)

namespace ConsumerBatches

def new : ConsumerBatches := ⟨Consumer.initial 0 0 (second / 20) (.initial .ticks),true⟩

def answeredBatches : List BatchesOccurrence :=
  [⟨0,.consumer .startApplication⟩,⟨0,.addBatch 1⟩,⟨0,.consumer (.sendPacket 0)⟩,
    ⟨0,.consumer (.sendPacket 1)⟩,⟨second,.consumer (.onData ⟨0,2⟩)⟩,⟨second * 2,.addBatch 1⟩,
    ⟨second * 2,.consumer (.sendPacket 2)⟩,⟨second * 3,.consumer (.onData ⟨1,2⟩)⟩]

theorem karn_rule_answeredBatches : Steps watch Karn (Watched.new new) answeredBatches :=
  (karn_rule 0 0 (second / 20) (.initial .ticks) rfl).2 new rfl answeredBatches (by decide)

def forgottenBatches : List BatchesOccurrence :=
  [⟨0,.consumer .startApplication⟩,⟨0,.addBatch 1⟩,⟨0,.consumer (.sendPacket 0)⟩,
    ⟨0,.consumer (.sendPacket 1)⟩,⟨second * 2,.addBatch 1⟩,⟨second * 2,.consumer (.sendPacket 2)⟩,
    ⟨second * 4,.consumer .checkRetxTimeout⟩,⟨second * 5,.consumer (.onData ⟨0,2⟩)⟩]

/-- The sample is one second, and the round trip took five. -/
theorem forgottenBatches_not_karn : ¬ Steps watch Karn (Watched.new new) forgottenBatches := by
  intro always
  have last := always (forgottenBatches.take 7) ⟨second * 5,.consumer (.onData ⟨0,2⟩)⟩ List.prefix_rfl
    second (by decide)
  obtain ⟨data,time,event,only,since⟩ := last
  cases event
  have sent : (run watch (Watched.new new) (forgottenBatches.take 7)).sent 0 = [0] := by decide
  rw [show (⟨0,2⟩ : Data).sequenceNumber % word = 0 from rfl,sent] at only
  cases only
  exact absurd since (by decide)

end ConsumerBatches

end Ncfcc.Apps
