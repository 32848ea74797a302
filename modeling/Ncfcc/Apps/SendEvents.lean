import Ncfcc.Apps.CongestionWindow
import Ncfcc.Apps.InFlight

/-! Pending `SendPacket` events of the window consumers. The window is tested when an
event is scheduled and not when it fires, and the branch for a full window leaves
a pending event alone (`ConsumerWindow`) or adds another (`FullyDistributed`). -/
namespace Ncfcc.Apps
open Ncfcc.Library WindowConsumer

namespace Consumer

def pendingSends (consumer : Consumer) : List ScheduledEvent := consumer.simulator.sends

/-- `m_sendEvent` names every pending `SendPacket` event. -/
def Named (consumer : Consumer) : Prop :=
  ∀ event ∈ consumer.pendingSends, consumer.sendEvent = some event.uid

private theorem named_length (consumer : Consumer) (named : consumer.Named) :
    consumer.pendingSends.length ≤ 1 := by
  have distinct := consumer.simulator.distinct
  unfold Named pendingSends at *
  generalize consumer.simulator.sends = sends at *
  cases sends with
  | nil => simp
  | cons first rest =>
    cases rest with
    | nil => simp
    | cons second rest =>
      have same := (named first (by simp)).symm.trans (named second (by simp))
      simp [Option.some.inj same] at distinct

theorem removeSend_pendingSends (consumer : Consumer) :
    consumer.removeSend.pendingSends = [] ↔ consumer.Named := by
  simp only [removeSend,pendingSends,Simulator.remove_sends,List.filter_eq_nil_iff,Named]
  constructor
  · intro none event member
    have kept := none event member
    simp only [ne_eq,decide_not,Bool.not_eq_true',decide_eq_false_iff_not,Classical.not_not] at kept
    exact kept.symm
  · intro named event member
    simp [named event member]

private theorem scheduleSend_pendingSends (consumer : Consumer) (due : Time) :
    (consumer.scheduleSend due).pendingSends =
      consumer.pendingSends ++ [⟨consumer.simulator.nextUid,due⟩] := rfl

private theorem scheduleSend_named (consumer : Consumer) (due : Time) :
    (consumer.scheduleSend due).Named ↔ consumer.pendingSends = [] := by
  constructor
  · intro named
    by_contra some
    obtain ⟨event,member⟩ := List.exists_mem_of_ne_nil _ some
    have same := named event (by rw [scheduleSend_pendingSends]; exact List.mem_append_left _ member)
    have bound := consumer.simulator.fresh event member
    simp only [scheduleSend,Option.some.injEq] at same
    omega
  · intro none event member
    rw [scheduleSend_pendingSends,none,List.nil_append,List.mem_singleton] at member
    rw [member]
    rfl

private theorem removeSend_of_expired (consumer : Consumer) (expired : consumer.sendRunning = false) :
    consumer.removeSend = consumer := by
  have kept : consumer.simulator.sends.filter (fun event => some event.uid ≠ consumer.sendEvent) =
      consumer.simulator.sends := by
    apply List.filter_eq_self.mpr
    intro event member
    simp only [sendRunning,Simulator.isRunning,List.any_eq_false,decide_eq_true_eq] at expired
    simpa using expired event member
  simp only [removeSend,Simulator.remove,kept]

structure SameSends (first second : Consumer) : Prop where
  sendEvent : first.sendEvent = second.sendEvent
  pendingSends : first.pendingSends = second.pendingSends

theorem SameSends.named {first second : Consumer} (same : SameSends first second) :
    first.Named ↔ second.Named := by
  rw [Named,Named,same.sendEvent,same.pendingSends]

theorem onData_sends (consumer : Consumer) (now : Time) (data : Data) :
    SameSends (consumer.onData now data) consumer := by
  unfold onData
  split <;> exact ⟨rfl,rfl⟩

private theorem nextSeq_sends (consumer : Consumer) : SameSends consumer.nextSeq.2 consumer := by
  unfold nextSeq
  split
  · dsimp only
    cases consumer.retxSeqs.min <;> dsimp only <;> split <;> (try split) <;> exact ⟨rfl,rfl⟩
  · exact ⟨rfl,rfl⟩

end Consumer

/-- Only a pending `SendPacket` event can fire. -/
def Legal (state : WindowConsumer) (occurrence : Occurrence) : Prop :=
  match occurrence.event with
  | .sendPacket uid => ∃ event ∈ state.base.pendingSends, event.uid = uid
  | _ => True

instance (state : WindowConsumer) (occurrence : Occurrence) : Decidable (Legal state occurrence) :=
  match occurrence with
  | ⟨_,.sendPacket uid⟩ => inferInstanceAs (Decidable (∃ event ∈ state.base.pendingSends, event.uid = uid))
  | ⟨_,.startApplication⟩ | ⟨_,.stopApplication⟩ | ⟨_,.onData _⟩ | ⟨_,.onRsr _⟩ | ⟨_,.checkRetxTimeout⟩ =>
    inferInstanceAs (Decidable True)

namespace WindowConsumer

/-- The condition of the middle branch of `ScheduleNextPacket`. -/
def Full (state : WindowConsumer) : Prop := state.window ≠ 0 ∧ state.window ≤ state.inFlight

instance (state : WindowConsumer) : Decidable state.Full := inferInstanceAs (Decidable (_ ∧ _))

theorem scheduleNextPacket_full (full : Time → WindowConsumer → WindowConsumer) (now : Time)
    (state : WindowConsumer) (filled : state.Full) :
    scheduleNextPacket full now state = full now state := by
  unfold scheduleNextPacket
  rw [if_neg filled.1,if_pos filled.2]

private theorem scheduleNextPacket_open (full : Time → WindowConsumer → WindowConsumer) (now : Time)
    (state : WindowConsumer) (unfilled : ¬ state.Full) :
    ∃ due, scheduleNextPacket full now state = state.withBase (state.base.removeSend.scheduleSend due) := by
  unfold scheduleNextPacket
  by_cases zero : state.window = 0
  · exact ⟨_,if_pos zero⟩
  · have room : ¬ state.inFlight ≥ state.window := fun filled => unfilled ⟨zero,filled⟩
    rw [if_neg zero,if_neg room]
    refine ⟨now,?_⟩
    dsimp only
    split
    · rfl
    · rename_i expired
      rw [Consumer.removeSend_of_expired _ (by simpa using expired)]

theorem SameWindow.full {first second : WindowConsumer} (same : SameWindow first second) :
    first.Full ↔ second.Full := by
  rw [Full,Full,same.window,same.inFlight]

/-- An event may be pending only while the window is zero or has room. -/
def Room (state : WindowConsumer) : Prop :=
  state.base.Named ∧ (state.base.pendingSends ≠ [] → ¬ state.Full)

theorem withBase_full (state : WindowConsumer) (base : Consumer) :
    (state.withBase base).Full ↔ state.Full := Iff.rfl

private theorem scheduleNextPacket_room (full : Time → WindowConsumer → WindowConsumer) (now : Time)
    (state : WindowConsumer) (unfilled : ¬ state.Full) (named : state.base.Named) :
    (scheduleNextPacket full now state).Room := by
  obtain ⟨due,scheduled⟩ := scheduleNextPacket_open full now state unfilled
  rw [scheduled]
  refine ⟨?_,fun _ filled => unfilled ((withBase_full _ _).mp filled)⟩
  rw [withBase_base,Consumer.scheduleSend_named,Consumer.removeSend_pendingSends]
  exact named

end WindowConsumer

namespace ConsumerWindow

theorem scheduleNextPacket_room (now : Time) (state : WindowConsumer) (named : state.base.Named)
    (idle : state.Full → state.base.pendingSends = []) : (scheduleNextPacket now state).Room := by
  by_cases filled : state.Full
  · have kept : scheduleNextPacket now state = state :=
      WindowConsumer.scheduleNextPacket_full _ now state filled
    rw [kept]
    exact ⟨named,fun pending => absurd (idle filled) pending⟩
  · exact WindowConsumer.scheduleNextPacket_room _ now state filled named

end ConsumerWindow

namespace FullyDistributed

theorem scheduleNextPacket_room (now : Time) (state : WindowConsumer) (named : state.base.Named)
    (unfilled : ¬ state.Full) : (scheduleNextPacket now state).Room :=
  WindowConsumer.scheduleNextPacket_room _ now state unfilled named

private theorem scheduleNextPacket_pendingSends (now : Time) (state : WindowConsumer) :
    (scheduleNextPacket now state).base.pendingSends ≠ [] := by
  by_cases filled : state.Full
  · rw [show scheduleNextPacket now state = _ from
      WindowConsumer.scheduleNextPacket_full _ now state filled]
    simp [Consumer.scheduleSend_pendingSends]
  · obtain ⟨due,scheduled⟩ := scheduleNextPacket_open (fun now state =>
      state.withBase (state.base.scheduleSend (now + min second state.base.rtt.retransmitTimeout)))
      now state filled
    rw [show scheduleNextPacket now state = _ from scheduled]
    simp [Consumer.scheduleSend_pendingSends]

/-- Only the branch for a full window schedules without removing the pending event. -/
theorem scheduleNextPacket_named (now : Time) (state : WindowConsumer) :
    (scheduleNextPacket now state).base.Named ↔
      state.base.Named ∧ (state.Full → state.base.pendingSends = []) := by
  by_cases filled : state.Full
  · rw [show scheduleNextPacket now state = _ from
      WindowConsumer.scheduleNextPacket_full _ now state filled,withBase_base,Consumer.scheduleSend_named]
    constructor
    · intro none
      exact ⟨fun event member => absurd member (by simp [none]),fun _ => none⟩
    · rintro ⟨-,none⟩
      exact none filled
  · obtain ⟨due,scheduled⟩ := scheduleNextPacket_open (fun now state =>
      state.withBase (state.base.scheduleSend (now + min second state.base.rtt.retransmitTimeout)))
      now state filled
    rw [show scheduleNextPacket now state = _ from scheduled,withBase_base,
      Consumer.scheduleSend_named,Consumer.removeSend_pendingSends]
    simp [filled]

/-- The first timeout of a check finds the window full, the window being kept. -/
def TimeoutFull (state : WindowConsumer) : Prop :=
  state.setInitialWindowOnTimeout = false ∧ state.window ≠ 0 ∧ state.window ≤ state.inFlight - 1

theorem reduceWindow_full (state : WindowConsumer) :
    (reduceWindow (landed state)).Full ↔ TimeoutFull state := by
  unfold Full TimeoutFull
  rw [reduceWindow_window,reduceWindow_inFlight]
  cases flag : state.setInitialWindowOnTimeout <;> simp [landed,flag]

/-- `OnTimeout` schedules twice, so that a full window always leaves two events. -/
theorem onTimeout_named (now : Time) (seq : Nat) (state : WindowConsumer) :
    (onTimeout now seq state).base.Named ↔ state.base.Named ∧ ¬ TimeoutFull state := by
  unfold onTimeout consumerOnTimeout
  have pending := scheduleNextPacket_pendingSends now (reduceWindow (landed state))
  have full := (scheduleNextPacket_same now (reduceWindow (landed state))).full
  have first := scheduleNextPacket_named now (reduceWindow (landed state))
  have base : (landed state).base = state.base := rfl
  have kept : Consumer.SameSends
      ((scheduleNextPacket now (reduceWindow (landed state))).base.timedOut now seq)
      (scheduleNextPacket now (reduceWindow (landed state))).base := ⟨rfl,rfl⟩
  rw [reduceWindow_base,base,reduceWindow_full] at first
  rw [scheduleNextPacket_named,withBase_full,full,reduceWindow_full,withBase_base,kept.pendingSends,
    kept.named,first]
  constructor
  · rintro ⟨⟨named,-⟩,second⟩
    exact ⟨named,fun filled => pending (second filled)⟩
  · rintro ⟨named,unfilled⟩
    exact ⟨⟨named,fun filled => absurd filled unfilled⟩,fun filled => absurd filled unfilled⟩

theorem onTimeout_timeoutFull (now : Time) (seq : Nat) (state : WindowConsumer)
    (unfilled : ¬ TimeoutFull state) : ¬ TimeoutFull (onTimeout now seq state) := by
  have count : (onTimeout now seq state).inFlight = state.inFlight - 1 :=
    WindowClass.fullyDistributed.onTimeout_inFlight now seq state
  have flag : (onTimeout now seq state).setInitialWindowOnTimeout = state.setInitialWindowOnTimeout :=
    call_setInitialWindowOnTimeout state (.onTimeout now seq)
  rintro ⟨kept,positive,filled⟩
  rw [flag] at kept
  have window : (onTimeout now seq state).window = state.window := by
    unfold onTimeout consumerOnTimeout
    rw [(scheduleNextPacket_same _ _).window,withBase_window,(scheduleNextPacket_same _ _).window,
      reduceWindow_window]
    simp [landed,kept]
  rw [window] at positive filled
  rw [count] at filled
  exact unfilled ⟨kept,positive,by omega⟩

private theorem expire_named (now rto : Time) (fuel : Nat) (state : WindowConsumer) :
    (WindowClass.fullyDistributed.virtual.expire now rto fuel state).base.Named ↔
      state.base.Named ∧ (fuel ≠ 0 → (state.base.expired now rto).isSome → ¬ TimeoutFull state) := by
  induction fuel generalizing state with
  | zero => simp [Virtual.expire]
  | succ fuel ih =>
    unfold Virtual.expire
    rw [WindowClass.virtual_base]
    cases found : state.base.expired now rto with
    | none => simp
    | some seq =>
      simp only [Option.isSome_some,ne_eq,Nat.add_eq_zero_iff,one_ne_zero,and_false,not_false_eq_true,
        forall_const]
      have after := onTimeout_named now seq (state.withBase (state.base.eraseTimeout seq))
      have next := onTimeout_timeoutFull now seq (state.withBase (state.base.eraseTimeout seq))
      rw [WindowClass.virtual_withBase]
      change (WindowClass.fullyDistributed.virtual.expire now rto fuel
        (onTimeout now seq (state.withBase (state.base.eraseTimeout seq)))).base.Named ↔ _
      rw [ih,after]
      constructor
      · rintro ⟨both,-⟩
        exact both
      · intro both
        exact ⟨both,fun _ _ => next both.2⟩

/-- The branch for a full window is not reached while a `SendPacket` is pending. -/
def Unqueued (state : WindowConsumer) (occurrence : Occurrence) : Prop :=
  match occurrence.event with
  | .startApplication => state.Full → state.base.pendingSends = []
  | .onData _ => state.window < 150 → state.window + 1 ≤ state.inFlight - 1 → state.base.pendingSends = []
  | .onRsr name => name = Name.rsr → state.Full → state.base.pendingSends = []
  | .checkRetxTimeout =>
    (state.base.expired occurrence.now state.base.rtt.retransmitTimeout).isSome → ¬ TimeoutFull state
  | .sendPacket _ | .stopApplication => True

instance (state : WindowConsumer) : Decidable (TimeoutFull state) := inferInstanceAs (Decidable (_ ∧ _))

instance (state : WindowConsumer) (occurrence : Occurrence) : Decidable (Unqueued state occurrence) :=
  match occurrence with
  | ⟨_,.startApplication⟩ | ⟨_,.onData _⟩ | ⟨_,.onRsr _⟩ | ⟨_,.checkRetxTimeout⟩ =>
    inferInstanceAs (Decidable (_ → _))
  | ⟨_,.sendPacket _⟩ | ⟨_,.stopApplication⟩ => inferInstanceAs (Decidable True)

end FullyDistributed

namespace WindowClass

theorem fire_pendingSends (kind : WindowClass) (uid : Nat) (state : WindowConsumer)
    (named : state.base.Named) (legal : ∃ event ∈ state.base.pendingSends, event.uid = uid) :
    (kind.virtual.fire uid state).base.pendingSends = [] := by
  obtain ⟨fired,pending,rfl⟩ := legal
  simp only [Virtual.fire,virtual_base,virtual_withBase,withBase_base,Consumer.pendingSends,
    Simulator.remove_sends,List.filter_eq_nil_iff]
  intro event member
  have same := (named event member).symm.trans (named fired pending)
  simp [same]

/-- `SendPacket` either sends nothing and schedules nothing, or ends in
`ScheduleNextPacket` with the pending sends it started with. -/
theorem sendPacket_cases (kind : WindowClass) (now : Time) (state : WindowConsumer) :
    (state.base.nextSeq.1 = none ∧ ∃ base, Consumer.SameSends base state.base ∧
        kind.virtual.sendPacket now state = state.withBase base) ∨
      ∃ seq base, state.base.nextSeq.1 = some seq ∧ Consumer.SameSends base state.base ∧
        kind.virtual.sendPacket now state = kind.virtual.scheduleNextPacket now
          { state with inFlight := (state.inFlight + 1) % word, base } := by
  have kept := Consumer.nextSeq_sends state.base
  unfold Virtual.sendPacket
  rw [virtual_base]
  generalize state.base.nextSeq = next at kept
  obtain ⟨choice,consumer⟩ := next
  cases choice with
  | none =>
    left
    exact ⟨rfl,consumer,kept,virtual_withBase _ _ _⟩
  | some seq =>
    right
    refine ⟨seq,(consumer.willSendOutInterest now seq).transmit seq,rfl,⟨kept.1,kept.2⟩,?_⟩
    simp only [virtual_withBase,virtual_willSendOutInterest,virtual_base]
    rfl

end WindowClass

namespace FullyDistributed

private theorem onData_named (now : Time) (data : Data) (state : WindowConsumer)
    (named : state.base.Named) :
    (onData now data state).base.Named ↔ Unqueued state ⟨now,.onData data⟩ := by
  have kept := state.base.onData_sends now data
  unfold onData
  dsimp only
  rw [withBase_window]
  by_cases below : state.window < 150
  · rw [if_pos below,scheduleNextPacket_named]
    simp only [landed,withBase_base,Full,withBase_inFlight,kept.named,kept.pendingSends,named,true_and,
      Unqueued,below,forall_const,and_imp]
    simp
  · rw [if_neg below]
    simp only [withBase_base,kept.named,named,Unqueued,below,false_implies]

private theorem sendPacket_named (now : Time) (uid : Nat) (state : WindowConsumer)
    (named : state.base.Named) (legal : ∃ event ∈ state.base.pendingSends, event.uid = uid) :
    (WindowClass.fullyDistributed.virtual.sendPacket now
      (WindowClass.fullyDistributed.virtual.fire uid state)).base.Named := by
  have idle := WindowClass.fullyDistributed.fire_pendingSends uid state named legal
  rcases WindowClass.fullyDistributed.sendPacket_cases now
      (WindowClass.fullyDistributed.virtual.fire uid state) with
    ⟨-,base,same,done⟩ | ⟨seq,base,-,same,done⟩
  · rw [done,withBase_base,same.named]
    intro event member
    simp [idle] at member
  · rw [done]
    have none : base.pendingSends = [] := same.pendingSends.trans idle
    refine (scheduleNextPacket_named _ _).mpr ⟨?_,fun _ => none⟩
    intro event member
    rw [none] at member
    cases member

/-- One possible step leaves at most the named event pending exactly if it does not
reach the branch for a full window with an event pending. -/
theorem step_named (state : WindowConsumer) (occurrence : Occurrence) (named : state.base.Named)
    (legal : Legal state occurrence) :
    (WindowClass.fullyDistributed.virtual.step state occurrence).base.Named ↔ Unqueued state occurrence := by
  obtain ⟨now,event⟩ := occurrence
  cases event with
  | startApplication =>
    have kept : Consumer.SameSends { state.base with active := true } state.base := ⟨rfl,rfl⟩
    change (scheduleNextPacket now (state.withBase { state.base with active := true })).base.Named ↔ _
    rw [scheduleNextPacket_named,withBase_base,kept.named,kept.pendingSends,withBase_full]
    simp [Unqueued,named]
  | stopApplication =>
    have kept : Consumer.SameSends { state.base.removeSend with active := false } state.base.removeSend :=
      ⟨rfl,rfl⟩
    change ({ state.base.removeSend with active := false } : Consumer).Named ↔ True
    rw [kept.named,iff_true]
    intro event member
    rw [state.base.removeSend_pendingSends.mpr named] at member
    cases member
  | sendPacket uid => exact iff_of_true (sendPacket_named now uid state named legal) trivial
  | onData data => exact onData_named now data state named
  | onRsr name =>
    change (onRsr now name state).base.Named ↔ (name = Name.rsr → state.Full → _)
    unfold onRsr consumerOnRsr
    by_cases rsr : name = Name.rsr
    · simp only [rsr,if_true,forall_const]
      rw [scheduleNextPacket_named]
      simp [named]
    · simp [rsr,named]
  | checkRetxTimeout =>
    have kept : Consumer.SameSends (WindowClass.fullyDistributed.virtual.checkRetxTimeout now state).base
        (WindowClass.fullyDistributed.virtual.expire now state.base.rtt.retransmitTimeout
          state.base.seqTimeouts.size state).base := ⟨rfl,rfl⟩
    change (WindowClass.fullyDistributed.virtual.checkRetxTimeout now state).base.Named ↔ _
    rw [kept.named,expire_named]
    simp only [named,true_and,Unqueued]
    constructor
    · intro unfilled found
      refine unfilled ?_ found
      intro empty
      have none : state.base.seqTimeouts.front = none := by
        rw [TimedSet.front_none]
        exact List.eq_nil_of_length_eq_zero empty
      simp [Consumer.expired,none] at found
    · intro unfilled _ found
      exact unfilled found

/-- At most one `SendPacket` event is pending, `m_sendEvent` names it, and stopping
the application leaves none. -/
structure SingleSend (state : WindowConsumer) : Prop where
  atMostOne : state.base.pendingSends.length ≤ 1
  named : state.base.Named
  stopped : (WindowClass.fullyDistributed.virtual.stopApplication state).base.pendingSends = []

private theorem singleSend_iff (state : WindowConsumer) : SingleSend state ↔ state.base.Named := by
  constructor
  · exact SingleSend.named
  · intro named
    exact ⟨state.base.named_length named,named,state.base.removeSend_pendingSends.mpr named⟩

/-- In a run from a new consumer at most the named `SendPacket` event is pending in
every state reached exactly when the branch for a full window is never reached
while an event is pending. -/
theorem singleSend_along_iff (startSeq seqMax : Nat) (retxTimer : Time) (rtt : RttMeanDeviation)
    (window : Nat) (flag : Bool) (occurrences : List Occurrence)
    (legal : Steps WindowClass.fullyDistributed.virtual.step Legal
      (WindowClass.fullyDistributed.configured (Consumer.initial startSeq seqMax retxTimer rtt) window flag)
      occurrences) :
    Along WindowClass.fullyDistributed.virtual.step SingleSend
        (WindowClass.fullyDistributed.configured (Consumer.initial startSeq seqMax retxTimer rtt) window flag)
        occurrences ↔
      Steps WindowClass.fullyDistributed.virtual.step Unqueued
        (WindowClass.fullyDistributed.configured (Consumer.initial startSeq seqMax retxTimer rtt) window flag)
        occurrences := by
  refine along_iff_steps ?_ ?_ legal
  · intro state occurrence single possible
    rw [singleSend_iff] at single ⊢
    exact step_named state occurrence single possible
  · rw [singleSend_iff]
    intro event member
    cases member

/-- With room in the window every new event replaces the pending one. -/
theorem singleSend_roomyWindow :
    Along WindowClass.fullyDistributed.virtual.step SingleSend
      (WindowClass.fullyDistributed.configured (Consumer.initial 0 maxWord (second / 20) (.initial .ticks)) 2 true)
      [⟨0,.startApplication⟩,⟨0,.sendPacket 0⟩,⟨0,.onData ⟨0,2⟩⟩,⟨0,.sendPacket 2⟩,⟨0,.stopApplication⟩] :=
  (singleSend_along_iff 0 maxWord (second / 20) (.initial .ticks) 2 true _ (by decide)).mpr (by decide)

def fullWindowRsr : List Occurrence :=
  [⟨0,.startApplication⟩,⟨0,.sendPacket 0⟩,⟨second / 2,.onRsr Name.rsr⟩]

/-- Two events are pending, and stopping the application leaves the older one. -/
theorem fullWindowRsr_not_singleSend :
    Steps WindowClass.fullyDistributed.virtual.step Legal
        (WindowClass.fullyDistributed.configured (Consumer.initial 0 maxWord (second / 20) (.initial .ticks)) 1 true)
        fullWindowRsr ∧
      ¬ Along WindowClass.fullyDistributed.virtual.step SingleSend
        (WindowClass.fullyDistributed.configured (Consumer.initial 0 maxWord (second / 20) (.initial .ticks)) 1 true)
        fullWindowRsr := by
  refine ⟨by decide,?_⟩
  intro always
  have last := (always fullWindowRsr List.prefix_rfl).atMostOne
  revert last
  decide

end FullyDistributed

end Ncfcc.Apps
