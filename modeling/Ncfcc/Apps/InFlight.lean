import Ncfcc.Apps.WindowConsumer

/-! The in-flight counter of the window consumers against the set of outstanding
Interests. The counter belongs to the derived classes and the set to the base
class; the steps that change only one of the two are stated exactly. -/
namespace Ncfcc.Apps
open Ncfcc.Library WindowConsumer

/-- The counter equals the number of Interests waiting for Data or a timeout. -/
def WindowConsumer.InFlightExact (state : WindowConsumer) : Prop :=
  state.inFlight = state.base.seqTimeouts.size

def Consumer.answers (consumer : Consumer) (data : Data) : Prop :=
  consumer.active = true ∧ data.sequenceNumber % word ∈ consumer.seqTimeouts.keys

namespace WindowClass

/-- Steps that change the counter and the outstanding set alike. Data must answer an
outstanding Interest, unless there is none; at its window cap `FullyDistributed`
counts no Data. A sent number must not be outstanding already, and the 32-bit
counter must have room. -/
def Counted (kind : WindowClass) (state : WindowConsumer) (occurrence : Occurrence) : Prop :=
  match occurrence.event with
  | .onData data =>
    if kind = fullyDistributed ∧ 150 ≤ state.window then ¬ state.base.answers data
    else state.base.answers data ∨ state.base.seqTimeouts.size = 0
  | .sendPacket _ =>
    ∀ seq, state.base.nextSeq.1 = some seq →
      seq ∉ state.base.seqTimeouts.keys ∧ state.inFlight + 1 < word
  | _ => True

theorem onTimeout_inFlight (kind : WindowClass) (now : Time) (seq : Nat) (state : WindowConsumer) :
    (kind.virtual.onTimeout now seq state).inFlight = state.inFlight - 1 := by
  cases kind with
  | consumerWindow =>
    change (ConsumerWindow.onTimeout now seq state).inFlight = _
    unfold ConsumerWindow.onTimeout consumerOnTimeout
    rw [(ConsumerWindow.scheduleNextPacket_same _ _).inFlight,withBase_inFlight,
      ConsumerWindow.resetWindow_inFlight]
    rfl
  | fullyDistributed =>
    change (FullyDistributed.onTimeout now seq state).inFlight = _
    unfold FullyDistributed.onTimeout consumerOnTimeout
    rw [(FullyDistributed.scheduleNextPacket_same _ _).inFlight,withBase_inFlight,
      (FullyDistributed.scheduleNextPacket_same _ _).inFlight,FullyDistributed.reduceWindow_inFlight]
    rfl

theorem onTimeout_seqTimeouts (kind : WindowClass) (now : Time) (seq : Nat) (state : WindowConsumer) :
    (kind.virtual.onTimeout now seq state).base.seqTimeouts = state.base.seqTimeouts := by
  have same := Consumer.seqTimeouts_of_sequencing (kind.lawful.timeout now seq state)
  simpa [Consumer.timedOut] using same

private theorem onRsr_inFlight (kind : WindowClass) (now : Time) (name : Name) (state : WindowConsumer) :
    (kind.virtual.onRsr now name state).inFlight = state.inFlight := by
  cases kind with
  | consumerWindow =>
    exact (consumerOnRsr_same _ ConsumerWindow.scheduleNextPacket_same now name state).inFlight
  | fullyDistributed =>
    have same := consumerOnRsr_same _ FullyDistributed.scheduleNextPacket_same now name state
    change (FullyDistributed.onRsr now name state).inFlight = _
    unfold FullyDistributed.onRsr
    dsimp only
    split <;> exact same.inFlight

private theorem onData_seqTimeouts (kind : WindowClass) (now : Time) (data : Data) (state : WindowConsumer) :
    (kind.virtual.onData now data state).base.seqTimeouts = (state.base.onData now data).seqTimeouts := by
  have same := Consumer.seqTimeouts_of_sequencing (kind.lawful.data now data state)
  simpa using same

private theorem onData_inFlight (kind : WindowClass) (now : Time) (data : Data) (state : WindowConsumer) :
    (kind.virtual.onData now data state).inFlight =
      if kind = fullyDistributed ∧ 150 ≤ state.window then state.inFlight else state.inFlight - 1 := by
  cases kind with
  | consumerWindow =>
    rw [if_neg (by simp)]
    exact (ConsumerWindow.scheduleNextPacket_same _ _).inFlight
  | fullyDistributed =>
    change (FullyDistributed.onData now data state).inFlight = _
    unfold FullyDistributed.onData
    dsimp only
    rw [withBase_window]
    by_cases below : state.window < 150
    · rw [if_pos below,if_neg (by omega)]
      exact (FullyDistributed.scheduleNextPacket_same _ _).inFlight
    · rw [if_neg below,if_pos ⟨rfl,by omega⟩]
      rfl

end WindowClass

theorem Consumer.onData_size (consumer : Consumer) (now : Time) (data : Data) :
    (consumer.answers data → (consumer.onData now data).seqTimeouts.size + 1 = consumer.seqTimeouts.size) ∧
      (¬ consumer.answers data → (consumer.onData now data).seqTimeouts.size = consumer.seqTimeouts.size) := by
  unfold Consumer.onData Consumer.answers
  cases active : consumer.active with
  | false => simp
  | true =>
    simp only [if_true,true_and,TimedSet.size_erase]
    constructor
    · intro present
      have positive : 0 < consumer.seqTimeouts.keys.length := List.length_pos_of_mem present
      rw [TimedSet.size_keys] at positive
      rw [if_pos present]
      omega
    · intro absent
      rw [if_neg absent]

namespace WindowClass

private theorem onData_exact (kind : WindowClass) (now : Time) (data : Data) (state : WindowConsumer)
    (exact : state.InFlightExact) :
    (kind.virtual.onData now data state).InFlightExact ↔ kind.Counted state ⟨now,.onData data⟩ := by
  unfold InFlightExact at exact
  simp only [InFlightExact,Counted,onData_inFlight,onData_seqTimeouts]
  obtain ⟨answered,ignored⟩ := state.base.onData_size now data
  by_cases answers : state.base.answers data
  · have size := answered answers
    simp only [answers,not_true_eq_false,true_or]
    split
    · simp only [iff_false]
      omega
    · simp only [iff_true]
      omega
  · have size := ignored answers
    simp only [answers,not_false_eq_true,false_or]
    split
    · simp only [iff_true]
      omega
    · omega

theorem fire_nextSeq (kind : WindowClass) (uid : Nat) (state : WindowConsumer) :
    (kind.virtual.fire uid state).base.nextSeq.1 = state.base.nextSeq.1 := by
  simp only [Virtual.fire,virtual_base,virtual_withBase,withBase_base,Consumer.nextSeq]
  split
  · cases state.base.retxSeqs.min <;> dsimp only <;> split <;> (try split) <;> rfl
  · rfl

private theorem sendPacket_exact (kind : WindowClass) (now : Time) (uid : Nat) (state : WindowConsumer)
    (exact : state.InFlightExact) :
    (kind.virtual.sendPacket now (kind.virtual.fire uid state)).InFlightExact ↔
      kind.Counted state ⟨now,.sendPacket uid⟩ := by
  unfold InFlightExact at exact
  have chosen := kind.fire_nextSeq uid state
  have kept := Consumer.nextSeq_seqTimeouts (kind.virtual.fire uid state).base
  have fired : (kind.virtual.fire uid state).base.seqTimeouts = state.base.seqTimeouts := by
    simp [Virtual.fire]
  have count : (kind.virtual.fire uid state).inFlight = state.inFlight := by
    simp [Virtual.fire]
  rw [fired] at kept
  unfold Virtual.sendPacket
  rw [virtual_base]
  simp only [Counted,← chosen]
  generalize (kind.virtual.fire uid state).base.nextSeq = next at kept
  obtain ⟨choice,consumer⟩ := next
  cases choice with
  | none =>
    simp only [virtual_withBase,InFlightExact,withBase_inFlight,withBase_base,count]
    simp only at kept
    simp [kept,exact]
  | some seq =>
    simp only at kept
    simp only [virtual_withBase,virtual_willSendOutInterest,InFlightExact]
    rw [(kind.scheduleNextPacket_same _ _).inFlight,
      Consumer.seqTimeouts_of_sequencing (kind.scheduleNextPacket_same _ _).sequencing]
    simp only [virtual_base,withBase_inFlight,withBase_base,Consumer.transmit,
      WindowConsumer.willSendOutInterest,Consumer.willSendOutInterest,TimedSet.size_insert,kept,count,
      Option.some.injEq,forall_eq']
    have room : 0 < word := by decide
    have small := Nat.mod_lt (state.inFlight + 1) room
    by_cases present : seq ∈ state.base.seqTimeouts.keys
    · simp only [present,if_true,not_true_eq_false,false_and,iff_false,← exact]
      by_cases fits : state.inFlight + 1 < word
      · rw [Nat.mod_eq_of_lt fits]
        omega
      · by_cases full : state.inFlight + 1 = word
        · rw [full,Nat.mod_self]
          unfold word at full
          omega
        · omega
    · simp only [present,if_false,not_false_eq_true,true_and,← exact]
      constructor
      · intro same
        omega
      · intro fits
        exact Nat.mod_eq_of_lt fits

private theorem expire_exact (kind : WindowClass) (now rto : Time) (fuel : Nat) (state : WindowConsumer)
    (exact : state.InFlightExact) : (kind.virtual.expire now rto fuel state).InFlightExact := by
  induction fuel generalizing state with
  | zero => exact exact
  | succ fuel ih =>
    unfold Virtual.expire
    split
    · exact exact
    · rename_i seq found
      apply ih
      unfold InFlightExact at exact ⊢
      rw [onTimeout_inFlight,onTimeout_seqTimeouts]
      simp only [virtual_base,virtual_withBase,withBase_inFlight,withBase_base,Consumer.eraseTimeout,
        TimedSet.size_erase]
      have present : seq ∈ state.base.seqTimeouts.keys := by
        simp only [virtual_base,Consumer.expired] at found
        split at found
        · cases found
        · rename_i first time front
          split at found
          · cases found
            exact (TimedSet.mem_keys _ _).mpr ⟨time,TimedSet.front_mem _ _ front⟩
          · cases found
      rw [if_pos present,exact]

/-- One step from an exact state: the counter stays exact exactly if the step is counted. -/
theorem step_exact (kind : WindowClass) (state : WindowConsumer) (occurrence : Occurrence)
    (exact : state.InFlightExact) :
    (kind.virtual.step state occurrence).InFlightExact ↔ kind.Counted state occurrence := by
  obtain ⟨now,event⟩ := occurrence
  cases event with
  | startApplication =>
    simp only [Virtual.step,Virtual.startApplication,Counted,iff_true]
    unfold InFlightExact at exact ⊢
    rw [(kind.scheduleNextPacket_same _ _).inFlight,
      Consumer.seqTimeouts_of_sequencing (kind.scheduleNextPacket_same _ _).sequencing]
    simpa using exact
  | stopApplication =>
    simp only [Virtual.step,Virtual.stopApplication,Counted,iff_true]
    unfold InFlightExact at exact ⊢
    simpa [Consumer.removeSend] using exact
  | sendPacket uid => exact sendPacket_exact kind now uid state exact
  | onData data => exact onData_exact kind now data state exact
  | onRsr name =>
    simp only [Virtual.step,Counted,iff_true]
    have kept := Consumer.seqTimeouts_of_sequencing (kind.lawful.rsr now name state)
    simp only [virtual_base] at kept
    unfold InFlightExact at exact ⊢
    rw [onRsr_inFlight,kept,exact]
  | checkRetxTimeout =>
    simp only [Virtual.step,Virtual.checkRetxTimeout,Counted,iff_true]
    have expired := expire_exact kind now state.base.rtt.retransmitTimeout
      state.base.seqTimeouts.size state exact
    unfold InFlightExact at expired ⊢
    simpa using expired

/-- In a run from a new consumer the counter is exact in every state reached exactly
when every step of the run is counted. -/
theorem inFlight_exact_iff (kind : WindowClass) (startSeq seqMax : Nat) (retxTimer : Time)
    (rtt : RttMeanDeviation) (window : Nat) (flag : Bool) (occurrences : List Occurrence) :
    Along kind.virtual.step InFlightExact
        (kind.configured (Consumer.initial startSeq seqMax retxTimer rtt) window flag) occurrences ↔
      Steps kind.virtual.step kind.Counted
        (kind.configured (Consumer.initial startSeq seqMax retxTimer rtt) window flag) occurrences := by
  have always : Steps kind.virtual.step (fun _ _ => True)
      (kind.configured (Consumer.initial startSeq seqMax retxTimer rtt) window flag) occurrences :=
    fun _ _ _ => trivial
  refine along_iff_steps ?_ ?_ always
  · intro state occurrence exact _
    exact kind.step_exact state occurrence exact
  · simp [InFlightExact,Consumer.initial]

def duplicateData : List Occurrence :=
  [⟨0,.startApplication⟩,⟨0,.sendPacket 0⟩,⟨0,.sendPacket 1⟩,⟨1,.onData ⟨0,2⟩⟩,⟨2,.onData ⟨0,2⟩⟩]

/-- After a duplicate Data neither consumer counts the Interest still outstanding. -/
theorem duplicateData_not_exact :
    (¬ Along consumerWindow.virtual.step InFlightExact
      (consumerWindow.configured (Consumer.initial 0 maxWord (second / 20) (.initial .ticks)) 10 true)
      duplicateData) ∧
    ¬ Along fullyDistributed.virtual.step InFlightExact
      (fullyDistributed.configured (Consumer.initial 0 maxWord (second / 20) (.initial .ticks)) 10 true)
      duplicateData := by
  constructor
  · intro always
    have last := always duplicateData List.prefix_rfl
    unfold InFlightExact at last
    revert last
    decide
  · intro always
    have last := always duplicateData List.prefix_rfl
    unfold InFlightExact at last
    revert last
    decide

end WindowClass

end Ncfcc.Apps
