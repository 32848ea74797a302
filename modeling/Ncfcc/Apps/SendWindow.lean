import Ncfcc.Apps.Retransmission
import Ncfcc.Apps.SendEvents

/-! Sends against the window. A pending `SendPacket` sends whatever the window is
when it fires, so the window is kept exactly while no event is left pending
beside a full window. -/
namespace Ncfcc.Apps
open Ncfcc.Library WindowConsumer

namespace ConsumerWindow

def timeoutWindow (state : WindowConsumer) : Nat :=
  if state.setInitialWindowOnTimeout then state.initialWindow else state.window

/-- No handler finds the window full, and returns, while a `SendPacket` is pending
that was scheduled under a zero or a larger window. -/
def Unblocked (state : WindowConsumer) (occurrence : Occurrence) : Prop :=
  match occurrence.event with
  | .onData _ => (state.window + 1) % word ≠ 0 → (state.window + 1) % word ≤ state.inFlight - 1 →
      state.base.pendingSends = []
  | .checkRetxTimeout =>
    let late := (state.base.overdue occurrence.now state.base.rtt.retransmitTimeout).length
    state.setInitialWindowOnTimeout = true → late ≠ 0 → state.initialWindow ≠ 0 →
      state.initialWindow ≤ state.inFlight - late → state.base.pendingSends = []
  | _ => True

/-- The window is full once `late` timeouts have been handled. -/
def FinallyFull (state : WindowConsumer) (late : Nat) : Prop :=
  timeoutWindow state ≠ 0 ∧ timeoutWindow state ≤ state.inFlight - late

theorem onTimeout_members (now : Time) (seq : Nat) (state : WindowConsumer) :
    (onTimeout now seq state).window = timeoutWindow state ∧
      (onTimeout now seq state).inFlight = state.inFlight - 1 ∧
      timeoutWindow (onTimeout now seq state) = timeoutWindow state := by
  have same := scheduleNextPacket_same now ((resetWindow (landed state)).withBase
    ((resetWindow (landed state)).base.timedOut now seq))
  have window : (onTimeout now seq state).window = timeoutWindow state := by
    refine same.window.trans ?_
    unfold resetWindow timeoutWindow
    cases flag : state.setInitialWindowOnTimeout <;> simp [landed,flag]
  refine ⟨window,WindowClass.consumerWindow.onTimeout_inFlight now seq state,?_⟩
  have flag : (onTimeout now seq state).setInitialWindowOnTimeout = state.setInitialWindowOnTimeout := by
    refine same.setInitialWindowOnTimeout.trans ?_
    unfold resetWindow
    split <;> rfl
  have initial : (onTimeout now seq state).initialWindow = state.initialWindow := by
    refine same.initialWindow.trans ?_
    unfold resetWindow
    split <;> rfl
  unfold timeoutWindow at window ⊢
  rw [flag,initial,window]
  split <;> rfl

/-- What the loop needs before a round: with nothing overdue the state must have
room itself, else no event may be pending if the last timeout leaves the window full. -/
private def Settling (late : Nat) (state : WindowConsumer) : Prop :=
  state.base.Named ∧ (late = 0 → state.Room) ∧ (FinallyFull state late → late ≠ 0 → state.base.pendingSends = [])

private theorem onTimeout_settling (now : Time) (seq late : Nat) (state : WindowConsumer)
    (settling : Settling (late + 1) state) : Settling late (onTimeout now seq state) := by
  obtain ⟨named,-,idle⟩ := settling
  obtain ⟨window,count,kept⟩ := onTimeout_members now seq state
  have filled : (onTimeout now seq state).Full ↔ timeoutWindow state ≠ 0 ∧
      timeoutWindow state ≤ state.inFlight - 1 := by
    unfold Full
    rw [window,count]
  have base : ((resetWindow (landed state)).base.timedOut now seq).SameSends state.base := by
    rw [resetWindow_base]
    exact ⟨rfl,rfl⟩
  have same := (scheduleNextPacket_same now ((resetWindow (landed state)).withBase
    ((resetWindow (landed state)).base.timedOut now seq))).full
  by_cases full : (onTimeout now seq state).Full
  · have unchanged : onTimeout now seq state = (resetWindow (landed state)).withBase
        ((resetWindow (landed state)).base.timedOut now seq) :=
      scheduleNextPacket_full (fun _ state => state) now _ (same.mp full)
    have pending : (onTimeout now seq state).base.pendingSends = state.base.pendingSends := by
      rw [unchanged]
      exact base.pendingSends
    have stillNamed : (onTimeout now seq state).base.Named := by
      rw [unchanged]
      exact base.named.mpr named
    refine ⟨stillNamed,?_,?_⟩
    · intro last
      refine ⟨stillNamed,fun some => absurd ?_ some⟩
      rw [pending]
      refine idle ?_ (by omega)
      rw [last]
      exact filled.mp full
    · intro finally' _
      rw [pending]
      refine idle ?_ (by omega)
      unfold FinallyFull at finally' ⊢
      rw [kept,count] at finally'
      exact ⟨finally'.1,by omega⟩
  · have room : (onTimeout now seq state).Room :=
      scheduleNextPacket_room now _ (base.named.mpr named) (fun filled => absurd (same.mpr filled) full)
    refine ⟨room.1,fun _ => room,?_⟩
    intro finally' _
    unfold FinallyFull at finally'
    rw [kept,count] at finally'
    exact absurd (filled.mpr ⟨finally'.1,by omega⟩) full

private theorem expire_settling (now rto : Time) (fuel : Nat) (state : WindowConsumer)
    (enough : (state.base.overdue now rto).length ≤ fuel)
    (settling : Settling (state.base.overdue now rto).length state) :
    (WindowClass.consumerWindow.virtual.expire now rto fuel state).Room := by
  induction fuel generalizing state with
  | zero => exact settling.2.1 (Nat.le_zero.mp enough)
  | succ fuel ih =>
    unfold Virtual.expire
    rw [WindowClass.virtual_base]
    cases found : state.base.expired now rto with
    | none =>
      refine settling.2.1 ?_
      rw [state.base.overdue_of_expired_none now rto found]
      rfl
    | some seq =>
      obtain ⟨time,-,-,overdue⟩ := state.base.overdue_of_expired now rto seq found
      have timeouts := WindowClass.consumerWindow.onTimeout_seqTimeouts now seq
        (state.withBase (state.base.eraseTimeout seq))
      have fewer := Consumer.overdue_congr _ _ timeouts now rto
      rw [overdue,List.length_cons] at settling enough
      refine ih (WindowClass.consumerWindow.virtual.onTimeout now seq
        (state.withBase (state.base.eraseTimeout seq))) ?_ ?_
      · rw [fewer,withBase_base]
        omega
      · rw [fewer,withBase_base]
        exact onTimeout_settling now seq _ (state.withBase (state.base.eraseTimeout seq)) settling

private theorem onData_room (now : Time) (data : Data) (state : WindowConsumer) (room : state.Room)
    (unblocked : Unblocked state ⟨now,.onData data⟩) : (onData now data state).Room := by
  have kept := state.base.onData_sends now data
  refine scheduleNextPacket_room now _ (kept.named.mpr room.1) ?_
  rintro ⟨positive,filled⟩
  refine kept.pendingSends.trans ?_
  exact unblocked positive filled

end ConsumerWindow

namespace FullyDistributed

/-- The branch for a full window, which schedules a `SendPacket`, is not reached
except by a reduce-send-rate message, which then sets the window to zero. -/
def Unblocked (state : WindowConsumer) (occurrence : Occurrence) : Prop :=
  match occurrence.event with
  | .startApplication => ¬ state.Full
  | .onData _ => state.window < 150 → state.inFlight - 1 < state.window + 1
  | .sendPacket _ => state.base.nextSeq.1.isSome → state.window ≠ 0 →
      (state.inFlight + 1) % word < state.window
  | .checkRetxTimeout =>
    (state.base.expired occurrence.now state.base.rtt.retransmitTimeout).isSome → ¬ TimeoutFull state
  | .onRsr _ | .stopApplication => True

private theorem onData_room (now : Time) (data : Data) (state : WindowConsumer) (room : state.Room)
    (unblocked : Unblocked state ⟨now,.onData data⟩) : (onData now data state).Room := by
  have kept := state.base.onData_sends now data
  obtain ⟨named,idle⟩ := room
  unfold onData
  dsimp only
  rw [withBase_window]
  by_cases below : state.window < 150
  · rw [if_pos below]
    refine scheduleNextPacket_room now _ (kept.named.mpr named) ?_
    rintro ⟨-,filled⟩
    have room := unblocked below
    simp only [landed,withBase_inFlight] at filled
    omega
  · rw [if_neg below]
    exact ⟨kept.named.mpr named,fun pending => idle (kept.pendingSends ▸ pending)⟩

private theorem onTimeout_room (now : Time) (seq : Nat) (state : WindowConsumer) (named : state.base.Named)
    (unfilled : ¬ TimeoutFull state) : (onTimeout now seq state).Room := by
  have window := (scheduleNextPacket_same now (reduceWindow (landed state))).full
  have first : (scheduleNextPacket now (reduceWindow (landed state))).Room :=
    scheduleNextPacket_room now _ (by rw [reduceWindow_base]; exact named)
      (fun filled => unfilled ((reduceWindow_full state).mp filled))
  unfold onTimeout consumerOnTimeout
  refine scheduleNextPacket_room now _ first.1 ?_
  rw [withBase_full,window,reduceWindow_full]
  exact unfilled

private theorem expire_room (now rto : Time) (fuel : Nat) (state : WindowConsumer) (room : state.Room)
    (unfilled : (state.base.expired now rto).isSome → ¬ TimeoutFull state) :
    (WindowClass.fullyDistributed.virtual.expire now rto fuel state).Room := by
  induction fuel generalizing state with
  | zero => exact room
  | succ fuel ih =>
    unfold Virtual.expire
    rw [WindowClass.virtual_base]
    cases found : state.base.expired now rto with
    | none => exact room
    | some seq =>
      have opened : ¬ TimeoutFull (state.withBase (state.base.eraseTimeout seq)) :=
        unfilled (by rw [found]; rfl)
      refine ih (onTimeout now seq (state.withBase (state.base.eraseTimeout seq))) ?_ ?_
      · exact onTimeout_room now seq _ room.1 opened
      · exact fun _ => onTimeout_timeoutFull now seq _ opened

end FullyDistributed

namespace WindowConsumer

private theorem room_withBase (state : WindowConsumer) (base : Consumer) (same : base.SameSends state.base) :
    (state.withBase base).Room ↔ state.Room := by
  unfold Room
  rw [withBase_base,same.named,same.pendingSends,withBase_full]

private theorem room_of_idle (state : WindowConsumer) (idle : state.base.pendingSends = []) : state.Room := by
  refine ⟨?_,fun pending => absurd idle pending⟩
  intro event member
  rw [idle] at member
  cases member

end WindowConsumer

namespace WindowClass

/-- The steps after which no `SendPacket` is pending beside a full window. -/
def Unblocked : WindowClass → WindowConsumer → Occurrence → Prop
  | consumerWindow => ConsumerWindow.Unblocked
  | fullyDistributed => FullyDistributed.Unblocked

instance (kind : WindowClass) (state : WindowConsumer) (occurrence : Occurrence) :
    Decidable (kind.Unblocked state occurrence) :=
  match kind, occurrence with
  | consumerWindow, ⟨_,.onData _⟩ => inferInstanceAs (Decidable (_ → _ → _ = []))
  | consumerWindow, ⟨_,.checkRetxTimeout⟩ => inferInstanceAs (Decidable (_ → _ → _ → _ → _ = []))
  | consumerWindow, ⟨_,.startApplication⟩ | consumerWindow, ⟨_,.stopApplication⟩
  | consumerWindow, ⟨_,.sendPacket _⟩ | consumerWindow, ⟨_,.onRsr _⟩ => inferInstanceAs (Decidable True)
  | fullyDistributed, ⟨_,.startApplication⟩ => inferInstanceAs (Decidable (¬ _))
  | fullyDistributed, ⟨_,.onData _⟩ => inferInstanceAs (Decidable (_ → _ < _))
  | fullyDistributed, ⟨_,.sendPacket _⟩ => inferInstanceAs (Decidable (_ → _ → _ < _))
  | fullyDistributed, ⟨_,.checkRetxTimeout⟩ => inferInstanceAs (Decidable (_ → ¬ _))
  | fullyDistributed, ⟨_,.onRsr _⟩ | fullyDistributed, ⟨_,.stopApplication⟩ => inferInstanceAs (Decidable True)

private theorem start_room (kind : WindowClass) (now : Time) (state : WindowConsumer) (room : state.Room)
    (unblocked : kind.Unblocked state ⟨now,.startApplication⟩) :
    (kind.virtual.startApplication now state).Room := by
  have started : (state.withBase { state.base with active := true }).Room :=
    (state.room_withBase { state.base with active := true } ⟨rfl,rfl⟩).mpr room
  cases kind with
  | consumerWindow =>
    refine ConsumerWindow.scheduleNextPacket_room now _ started.1 ?_
    intro filled
    by_contra pending
    exact started.2 pending filled
  | fullyDistributed => exact FullyDistributed.scheduleNextPacket_room now _ started.1 unblocked

private theorem sendPacket_room (kind : WindowClass) (now : Time) (uid : Nat) (state : WindowConsumer)
    (room : state.Room) (legal : ∃ event ∈ state.base.pendingSends, event.uid = uid)
    (unblocked : kind.Unblocked state ⟨now,.sendPacket uid⟩) :
    (kind.virtual.sendPacket now (kind.virtual.fire uid state)).Room := by
  have idle := kind.fire_pendingSends uid state room.1 legal
  rcases kind.sendPacket_cases now (kind.virtual.fire uid state) with
    ⟨-,base,same,done⟩ | ⟨seq,base,chosen,same,done⟩
  · rw [done]
    exact room_of_idle _ (same.pendingSends.trans idle)
  · rw [done]
    have none : base.pendingSends = [] := same.pendingSends.trans idle
    have started : WindowConsumer.Room { kind.virtual.fire uid state with
        inFlight := ((kind.virtual.fire uid state).inFlight + 1) % word, base } := room_of_idle _ none
    cases kind with
    | consumerWindow => exact ConsumerWindow.scheduleNextPacket_room now _ started.1 (fun _ => none)
    | fullyDistributed =>
      refine FullyDistributed.scheduleNextPacket_room now _ started.1 ?_
      rintro ⟨positive,filled⟩
      rw [fire_nextSeq] at chosen
      have below := unblocked (by rw [chosen]; rfl) positive
      exact absurd below (Nat.not_lt.mpr filled)

private theorem onRsr_room (kind : WindowClass) (now : Time) (name : Name) (state : WindowConsumer)
    (room : state.Room) : (kind.virtual.onRsr now name state).Room := by
  have idle : state.Full → state.base.pendingSends = [] := by
    intro filled
    by_contra pending
    exact room.2 pending filled
  cases kind with
  | consumerWindow =>
    change (if name = Name.rsr then ConsumerWindow.scheduleNextPacket now state else state).Room
    split
    · exact ConsumerWindow.scheduleNextPacket_room now state room.1 idle
    · exact room
  | fullyDistributed =>
    change (FullyDistributed.onRsr now name state).Room
    unfold FullyDistributed.onRsr consumerOnRsr
    by_cases rsr : name = Name.rsr
    · simp only [rsr,if_true]
      refine ⟨(FullyDistributed.scheduleNextPacket_named now state).mpr ⟨room.1,idle⟩,?_⟩
      rintro - ⟨positive,-⟩
      simp at positive
    · simp only [rsr,if_false]
      exact room

/-- One possible step that is not blocked leaves room for what is pending. -/
theorem step_room (kind : WindowClass) (state : WindowConsumer) (occurrence : Occurrence)
    (room : state.Room) (admitted : Legal state occurrence ∧ kind.Unblocked state occurrence) :
    (kind.virtual.step state occurrence).Room := by
  obtain ⟨legal,unblocked⟩ := admitted
  obtain ⟨now,event⟩ := occurrence
  cases event with
  | startApplication => exact start_room kind now state room unblocked
  | stopApplication =>
    refine room_of_idle _ ?_
    simp only [Virtual.step,Virtual.stopApplication,virtual_base,virtual_withBase,withBase_base]
    exact state.base.removeSend_pendingSends.mpr room.1
  | sendPacket uid => exact sendPacket_room kind now uid state room legal unblocked
  | onData data =>
    cases kind with
    | consumerWindow => exact ConsumerWindow.onData_room now data state room unblocked
    | fullyDistributed => exact FullyDistributed.onData_room now data state room unblocked
  | onRsr name => exact onRsr_room kind now name state room
  | checkRetxTimeout =>
    simp only [Virtual.step,Virtual.checkRetxTimeout,virtual_base,virtual_withBase]
    refine (room_withBase _ _ ⟨rfl,rfl⟩).mpr ?_
    cases kind with
    | consumerWindow =>
      refine ConsumerWindow.expire_settling now _ _ state (List.length_filter_le _ _) ⟨room.1,fun _ => room,?_⟩
      intro filled late
      by_contra pending
      by_cases flag : state.setInitialWindowOnTimeout = true
      · simp only [ConsumerWindow.FinallyFull,ConsumerWindow.timeoutWindow,flag,if_true] at filled
        exact pending (unblocked flag late filled.1 filled.2)
      · simp only [ConsumerWindow.FinallyFull,ConsumerWindow.timeoutWindow,flag] at filled
        exact room.2 pending ⟨filled.1,le_trans filled.2 (Nat.sub_le _ _)⟩
    | fullyDistributed => exact FullyDistributed.expire_room now _ _ state room unblocked

def Transmits (kind : WindowClass) (state : WindowConsumer) (occurrence : Occurrence) : Prop :=
  (kind.virtual.step state occurrence).base.transmitted ≠ state.base.transmitted

/-- An Interest is sent only with room in the window, or in the slow mode of a zero
window, so that the counter does not exceed the window because of it. -/
structure SendsWithinWindow (kind : WindowClass) (state : WindowConsumer) (occurrence : Occurrence) : Prop where
  before : kind.Transmits state occurrence → state.inFlight < state.window ∨ state.window = 0
  after : kind.Transmits state occurrence → (kind.virtual.step state occurrence).window ≠ 0 →
    (kind.virtual.step state occurrence).inFlight ≤ (kind.virtual.step state occurrence).window

/-- The same bound for the Interests really outstanding. -/
def OutstandingWithinWindow (kind : WindowClass) (state : WindowConsumer) (occurrence : Occurrence) : Prop :=
  kind.Transmits state occurrence → (kind.virtual.step state occurrence).window ≠ 0 →
    (kind.virtual.step state occurrence).base.seqTimeouts.size ≤ (kind.virtual.step state occurrence).window

private theorem transmits_members (kind : WindowClass) (state : WindowConsumer) (occurrence : Occurrence)
    (sends : kind.Transmits state occurrence) :
    (∃ uid, occurrence.event = .sendPacket uid) ∧
      (kind.virtual.step state occurrence).window = state.window ∧
      (kind.virtual.step state occurrence).inFlight = (state.inFlight + 1) % word := by
  have fired : ∃ uid, occurrence.event = .sendPacket uid := by
    by_contra other
    refine sends ?_
    have quiet := kind.lawful.step_quiet state occurrence (fun uid same => other ⟨uid,same⟩)
    rwa [virtual_base,virtual_base] at quiet
  refine ⟨fired,?_⟩
  obtain ⟨now,event⟩ := occurrence
  obtain ⟨uid,rfl⟩ := fired
  have count : (kind.virtual.fire uid state).inFlight = state.inFlight := by
    simp [Virtual.fire]
  have window : (kind.virtual.fire uid state).window = state.window := by
    simp [Virtual.fire]
  simp only [Virtual.step]
  rcases kind.sendPacket_cases now (kind.virtual.fire uid state) with
    ⟨none,-⟩ | ⟨seq,base,-,-,done⟩
  · refine absurd ?_ sends
    have sent := kind.lawful.send_transmitted now (kind.virtual.fire uid state)
    rw [virtual_base,virtual_base,none,Option.toList_none,List.append_nil] at sent
    exact sent.trans (by simp [Virtual.fire,Consumer.transmitted])
  · have same := kind.scheduleNextPacket_same now { kind.virtual.fire uid state with
      inFlight := ((kind.virtual.fire uid state).inFlight + 1) % word, base }
    rw [done,same.window,same.inFlight]
    exact ⟨window,by rw [count]⟩

private theorem sendsWithinWindow_of_room (kind : WindowClass) (state : WindowConsumer) (occurrence : Occurrence)
    (room : state.Room) (legal : Legal state occurrence) : kind.SendsWithinWindow state occurrence := by
  have opening : kind.Transmits state occurrence → state.inFlight < state.window ∨ state.window = 0 := by
    intro sends
    obtain ⟨⟨uid,fired⟩,-⟩ := kind.transmits_members state occurrence sends
    have pending : state.base.pendingSends ≠ [] := by
      unfold Legal at legal
      rw [fired] at legal
      obtain ⟨event,member,-⟩ := legal
      exact List.ne_nil_of_mem member
    have unfilled := room.2 pending
    unfold Full at unfilled
    omega
  refine ⟨opening,?_⟩
  intro sends positive
  obtain ⟨-,window,count⟩ := kind.transmits_members state occurrence sends
  rw [window] at positive ⊢
  rw [count]
  have small := Nat.mod_le (state.inFlight + 1) word
  rcases opening sends with below | zero
  · omega
  · exact absurd zero positive

/-- In a run from a new consumer in which no step leaves a `SendPacket` pending beside
a full window, no Interest is sent beyond the window; where the counter is also
exact, neither is the number of outstanding Interests taken beyond it. -/
theorem sendsWithinWindow_of_unblocked (kind : WindowClass) (startSeq seqMax : Nat) (retxTimer : Time)
    (rtt : RttMeanDeviation) (window : Nat) (flag : Bool) (occurrences : List Occurrence)
    (legal : Steps kind.virtual.step Legal
      (kind.configured (Consumer.initial startSeq seqMax retxTimer rtt) window flag) occurrences)
    (unblocked : Steps kind.virtual.step kind.Unblocked
      (kind.configured (Consumer.initial startSeq seqMax retxTimer rtt) window flag) occurrences) :
    Steps kind.virtual.step kind.SendsWithinWindow
        (kind.configured (Consumer.initial startSeq seqMax retxTimer rtt) window flag) occurrences ∧
      (Steps kind.virtual.step kind.Counted
          (kind.configured (Consumer.initial startSeq seqMax retxTimer rtt) window flag) occurrences →
        Steps kind.virtual.step kind.OutstandingWithinWindow
          (kind.configured (Consumer.initial startSeq seqMax retxTimer rtt) window flag) occurrences) := by
  have start : (kind.configured (Consumer.initial startSeq seqMax retxTimer rtt) window flag).Room :=
    room_of_idle _ (by rw [configured_base]; rfl)
  have room := along_of_steps (Q := fun state occurrence => Legal state occurrence ∧ kind.Unblocked state occurrence)
    kind.step_room start (fun before occurrence inside => ⟨legal _ _ inside,unblocked _ _ inside⟩)
  have within : Steps kind.virtual.step kind.SendsWithinWindow
      (kind.configured (Consumer.initial startSeq seqMax retxTimer rtt) window flag) occurrences := by
    intro before occurrence inside
    exact kind.sendsWithinWindow_of_room _ occurrence
      (room before ((List.prefix_append _ _).trans inside)) (legal _ _ inside)
  refine ⟨within,?_⟩
  intro counted before occurrence inside sends positive
  have exactly := along_of_steps (fun state occurrence exact counted => (kind.step_exact state occurrence exact).mpr counted)
    (by simp [InFlightExact,Consumer.initial]) counted
  have last := exactly _ inside
  rw [run_concat] at last
  rw [← show _ = _ from last]
  exact (within before occurrence inside).after sends positive

def roomyWindow : List Occurrence :=
  [⟨0,.startApplication⟩,⟨0,.sendPacket 0⟩,⟨1,.onData ⟨0,2⟩⟩,⟨1,.sendPacket 2⟩]

theorem sendsWithinWindow_roomyWindow :
    Steps consumerWindow.virtual.step consumerWindow.SendsWithinWindow
        (consumerWindow.configured (Consumer.initial 0 maxWord (second / 20) (.initial .ticks)) 4 true)
        roomyWindow ∧
      Steps fullyDistributed.virtual.step fullyDistributed.SendsWithinWindow
        (fullyDistributed.configured (Consumer.initial 0 maxWord (second / 20) (.initial .ticks)) 4 true)
        roomyWindow :=
  ⟨(sendsWithinWindow_of_unblocked consumerWindow 0 maxWord (second / 20) (.initial .ticks) 4 true
      roomyWindow (by decide) (by decide)).1,
    (sendsWithinWindow_of_unblocked fullyDistributed 0 maxWord (second / 20) (.initial .ticks) 4 true
      roomyWindow (by decide) (by decide)).1⟩

def probeAfterData : List Occurrence :=
  [⟨0,.startApplication⟩,⟨second / 2,.sendPacket 0⟩,⟨second,.sendPacket 1⟩,⟨second * 6 / 5,.onData ⟨0,2⟩⟩,
    ⟨second * 3 / 2,.sendPacket 2⟩]

def sendAtFullWindow : List Occurrence :=
  [⟨0,.startApplication⟩,⟨0,.sendPacket 0⟩,⟨second,.sendPacket 1⟩]

/-- Both consumers send an Interest at a full window. -/
theorem fullWindow_sends :
    (Steps consumerWindow.virtual.step Legal
        (consumerWindow.configured (Consumer.initial 0 maxWord (second / 20) (.initial .ticks)) 0 true)
        probeAfterData ∧
      ¬ Steps consumerWindow.virtual.step consumerWindow.SendsWithinWindow
        (consumerWindow.configured (Consumer.initial 0 maxWord (second / 20) (.initial .ticks)) 0 true)
        probeAfterData) ∧
    (Steps fullyDistributed.virtual.step Legal
        (fullyDistributed.configured (Consumer.initial 0 maxWord (second / 20) (.initial .ticks)) 1 true)
        sendAtFullWindow ∧
      ¬ Steps fullyDistributed.virtual.step fullyDistributed.SendsWithinWindow
        (fullyDistributed.configured (Consumer.initial 0 maxWord (second / 20) (.initial .ticks)) 1 true)
        sendAtFullWindow) := by
  refine ⟨⟨by decide,?_⟩,by decide,?_⟩
  · intro within
    have last := (within (probeAfterData.take 4) ⟨second * 3 / 2,.sendPacket 2⟩ List.prefix_rfl).before
    unfold Transmits at last
    revert last
    decide
  · intro within
    have last := (within (sendAtFullWindow.take 2) ⟨second,.sendPacket 1⟩ List.prefix_rfl).before
    unfold Transmits at last
    revert last
    decide

end WindowClass

end Ncfcc.Apps
