import Ncfcc.Apps.Consumer

/-! The two window-based consumers, `ConsumerWindow` and `FullyDistributed`. They
share their members (only the second one has `ssthresh`) and two of the three
branches of `ScheduleNextPacket`; every method stands under its own class. -/
namespace Ncfcc.Apps
open Ncfcc.Library

structure WindowConsumer where
  base : Consumer
  initialWindow : Nat
  setInitialWindowOnTimeout : Bool
  ssthresh : Nat
  window : Nat
  inFlight : Nat

namespace WindowConsumer

def withBase (state : WindowConsumer) (base : Consumer) : WindowConsumer := { state with base }

/-- `ScheduleNextPacket` up to what happens when the window is full. -/
def scheduleNextPacket (full : Time → WindowConsumer → WindowConsumer) (now : Time)
    (state : WindowConsumer) : WindowConsumer :=
  if state.window = 0 then
    state.withBase (state.base.removeSend.scheduleSend
      (now + min (second / 2) state.base.rtt.retransmitTimeout))
  else if state.inFlight ≥ state.window then full now state
  else
    let base := if state.base.sendRunning then state.base.removeSend else state.base
    state.withBase (base.scheduleSend now)

/-- Both classes count an Interest as in flight just before it is sent. -/
def willSendOutInterest (state : WindowConsumer) (now : Time) (seq : Nat) : WindowConsumer :=
  { state with
    inFlight := (state.inFlight + 1) % word
    base := state.base.willSendOutInterest now seq }

/-- `if (m_inFlight > 0) m_inFlight--`. -/
def landed (state : WindowConsumer) : WindowConsumer := { state with inFlight := state.inFlight - 1 }

/-- `Consumer::OnRsr`, for the `ScheduleNextPacket` of the derived class. -/
def consumerOnRsr (schedule : Time → WindowConsumer → WindowConsumer) (now : Time) (name : Name)
    (state : WindowConsumer) : WindowConsumer :=
  if name = Name.rsr then schedule now state else state

/-- `Consumer::OnTimeout`, for the `ScheduleNextPacket` of the derived class. -/
def consumerOnTimeout (schedule : Time → WindowConsumer → WindowConsumer) (now : Time) (seq : Nat)
    (state : WindowConsumer) : WindowConsumer :=
  schedule now (state.withBase (state.base.timedOut now seq))

end WindowConsumer

namespace ConsumerWindow
open WindowConsumer

def setWindow (window : Nat) (state : WindowConsumer) : WindowConsumer :=
  { state with initialWindow := window, window }

def scheduleNextPacket : Time → WindowConsumer → WindowConsumer :=
  WindowConsumer.scheduleNextPacket fun _ state => state

def onData (now : Time) (data : Data) (state : WindowConsumer) : WindowConsumer :=
  let received := state.withBase (state.base.onData now data)
  scheduleNextPacket now (landed { received with window := (received.window + 1) % word })

def onRsr : Time → Name → WindowConsumer → WindowConsumer := consumerOnRsr scheduleNextPacket

def resetWindow (state : WindowConsumer) : WindowConsumer :=
  if state.setInitialWindowOnTimeout then { state with window := state.initialWindow } else state

def onTimeout (now : Time) (seq : Nat) (state : WindowConsumer) : WindowConsumer :=
  consumerOnTimeout scheduleNextPacket now seq (resetWindow (landed state))

end ConsumerWindow

namespace FullyDistributed
open WindowConsumer

def setWindow (window : Nat) (state : WindowConsumer) : WindowConsumer :=
  { state with initialWindow := window, window, ssthresh := maxWord }

def scheduleNextPacket : Time → WindowConsumer → WindowConsumer :=
  WindowConsumer.scheduleNextPacket fun now state =>
    state.withBase (state.base.scheduleSend (now + min second state.base.rtt.retransmitTimeout))

def onData (now : Time) (data : Data) (state : WindowConsumer) : WindowConsumer :=
  let received := state.withBase (state.base.onData now data)
  let saved := { received with ssthresh := received.window }
  if saved.window < 150 then
    scheduleNextPacket now (landed { saved with window := saved.window + 1 })
  else { saved with ssthresh := 150 }

/-- The factor `(1/2)` is an integer division, here as in the source. -/
def onRsr (now : Time) (name : Name) (state : WindowConsumer) : WindowConsumer :=
  let state := consumerOnRsr scheduleNextPacket now name state
  if name = Name.rsr then { state with ssthresh := state.window, window := state.window * (1 / 2) }
  else state

/-- The factor `(1/3)` is an integer division too. -/
def reduceWindow (state : WindowConsumer) : WindowConsumer :=
  if state.setInitialWindowOnTimeout then
    { state with ssthresh := state.window, window := state.window * (1 / 3) }
  else state

/-- `ScheduleNextPacket` runs twice, here and at the end of `Consumer::OnTimeout`. -/
def onTimeout (now : Time) (seq : Nat) (state : WindowConsumer) : WindowConsumer :=
  consumerOnTimeout scheduleNextPacket now seq (scheduleNextPacket now (reduceWindow (landed state)))

end FullyDistributed

inductive WindowClass where
  | consumerWindow
  | fullyDistributed
  deriving DecidableEq, Repr

namespace WindowClass
open WindowConsumer

def virtual : WindowClass → Virtual WindowConsumer
  | consumerWindow => ⟨base,withBase,ConsumerWindow.scheduleNextPacket,
      fun now seq state => state.willSendOutInterest now seq,
      ConsumerWindow.onData,ConsumerWindow.onRsr,ConsumerWindow.onTimeout⟩
  | fullyDistributed => ⟨base,withBase,FullyDistributed.scheduleNextPacket,
      fun now seq state => state.willSendOutInterest now seq,
      FullyDistributed.onData,FullyDistributed.onRsr,FullyDistributed.onTimeout⟩

def setWindow : WindowClass → Nat → WindowConsumer → WindowConsumer
  | consumerWindow => ConsumerWindow.setWindow
  | fullyDistributed => FullyDistributed.setWindow

/-- A consumer as constructed, with its `Window` and `InitialWindowOnTimeout` set. -/
def configured (kind : WindowClass) (base : Consumer) (window : Nat) (setInitialWindowOnTimeout : Bool) :
    WindowConsumer :=
  kind.setWindow window ⟨base,0,setInitialWindowOnTimeout,0,0,0⟩

@[simp] theorem virtual_base (kind : WindowClass) (state : WindowConsumer) :
    kind.virtual.base state = state.base := by cases kind <;> rfl

@[simp] theorem virtual_withBase (kind : WindowClass) (state : WindowConsumer) (base : Consumer) :
    kind.virtual.withBase state base = state.withBase base := by cases kind <;> rfl

@[simp] theorem virtual_willSendOutInterest (kind : WindowClass) (now : Time) (seq : Nat)
    (state : WindowConsumer) : kind.virtual.willSendOutInterest now seq state =
      state.willSendOutInterest now seq := by cases kind <;> rfl

@[simp] theorem configured_base (kind : WindowClass) (base : Consumer) (window : Nat) (flag : Bool) :
    (kind.configured base window flag).base = base := by cases kind <;> rfl

@[simp] theorem configured_inFlight (kind : WindowClass) (base : Consumer) (window : Nat) (flag : Bool) :
    (kind.configured base window flag).inFlight = 0 := by cases kind <;> rfl

end WindowClass

/-! What the handlers leave alone. -/

namespace Consumer

@[simp] theorem sequencing_removeSend (consumer : Consumer) :
    consumer.removeSend.sequencing = consumer.sequencing := rfl

@[simp] theorem sequencing_scheduleSend (consumer : Consumer) (due : Time) :
    (consumer.scheduleSend due).sequencing = consumer.sequencing := rfl

/-- What does not read the scheduling part is equal when the rest is. -/
theorem field_of_sequencing {α : Type} (field : Consumer → α)
    (kept : ∀ consumer, field (sequencing consumer) = field consumer) {first second : Consumer}
    (same : first.sequencing = second.sequencing) : field first = field second := by
  rw [← kept first,same,kept]

theorem seqTimeouts_of_sequencing {first second : Consumer}
    (same : first.sequencing = second.sequencing) : first.seqTimeouts = second.seqTimeouts :=
  field_of_sequencing seqTimeouts (fun _ => rfl) same

private theorem sequencing_timedOut (first second : Consumer) (same : first.sequencing = second.sequencing)
    (now : Time) (seq : Nat) :
    (first.timedOut now seq).sequencing = (second.timedOut now seq).sequencing := by
  simp only [sequencing,Consumer.mk.injEq] at same
  simp only [sequencing,timedOut,Consumer.mk.injEq]
  simp [same]

end Consumer

namespace WindowConsumer

@[simp] theorem withBase_base (state : WindowConsumer) (base : Consumer) :
    (state.withBase base).base = base := rfl

@[simp] theorem withBase_window (state : WindowConsumer) (base : Consumer) :
    (state.withBase base).window = state.window := rfl

@[simp] theorem withBase_inFlight (state : WindowConsumer) (base : Consumer) :
    (state.withBase base).inFlight = state.inFlight := rfl

@[simp] theorem withBase_ssthresh (state : WindowConsumer) (base : Consumer) :
    (state.withBase base).ssthresh = state.ssthresh := rfl

@[simp] theorem withBase_setInitialWindowOnTimeout (state : WindowConsumer) (base : Consumer) :
    (state.withBase base).setInitialWindowOnTimeout = state.setInitialWindowOnTimeout := rfl

/-- The members that `ScheduleNextPacket` does not touch. -/
structure SameWindow (first second : WindowConsumer) : Prop where
  sequencing : first.base.sequencing = second.base.sequencing
  initialWindow : first.initialWindow = second.initialWindow
  setInitialWindowOnTimeout : first.setInitialWindowOnTimeout = second.setInitialWindowOnTimeout
  ssthresh : first.ssthresh = second.ssthresh
  window : first.window = second.window
  inFlight : first.inFlight = second.inFlight

theorem SameWindow.rfl (state : WindowConsumer) : SameWindow state state :=
  ⟨Eq.refl _,Eq.refl _,Eq.refl _,Eq.refl _,Eq.refl _,Eq.refl _⟩

theorem SameWindow.rebase (state : WindowConsumer) (base : Consumer)
    (same : base.sequencing = state.base.sequencing) : SameWindow (state.withBase base) state :=
  ⟨same,Eq.refl _,Eq.refl _,Eq.refl _,Eq.refl _,Eq.refl _⟩

private theorem scheduleNextPacket_window (full : Time → WindowConsumer → WindowConsumer)
    (kept : ∀ now state, SameWindow (full now state) state) (now : Time) (state : WindowConsumer) :
    SameWindow (scheduleNextPacket full now state) state := by
  unfold scheduleNextPacket
  split
  · exact SameWindow.rebase _ _ (by simp)
  · split
    · exact kept now state
    · dsimp only
      split <;> exact SameWindow.rebase _ _ (by simp)

theorem consumerOnRsr_same (schedule : Time → WindowConsumer → WindowConsumer)
    (kept : ∀ now state, SameWindow (schedule now state) state) (now : Time) (name : Name)
    (state : WindowConsumer) : SameWindow (consumerOnRsr schedule now name state) state := by
  unfold consumerOnRsr
  split
  · exact kept now state
  · exact SameWindow.rfl state

end WindowConsumer

namespace ConsumerWindow
open WindowConsumer

theorem scheduleNextPacket_same (now : Time) (state : WindowConsumer) :
    SameWindow (scheduleNextPacket now state) state :=
  scheduleNextPacket_window _ (fun _ state => SameWindow.rfl state) now state

@[simp] theorem resetWindow_base (state : WindowConsumer) : (resetWindow state).base = state.base := by
  unfold resetWindow
  split <;> rfl

@[simp] theorem resetWindow_inFlight (state : WindowConsumer) :
    (resetWindow state).inFlight = state.inFlight := by
  unfold resetWindow
  split <;> rfl

end ConsumerWindow

namespace FullyDistributed
open WindowConsumer

theorem scheduleNextPacket_same (now : Time) (state : WindowConsumer) :
    SameWindow (scheduleNextPacket now state) state :=
  scheduleNextPacket_window _ (fun _ state => SameWindow.rebase state _ (by simp)) now state

@[simp] theorem reduceWindow_base (state : WindowConsumer) : (reduceWindow state).base = state.base := by
  unfold reduceWindow
  split <;> rfl

@[simp] theorem reduceWindow_inFlight (state : WindowConsumer) :
    (reduceWindow state).inFlight = state.inFlight := by
  unfold reduceWindow
  split <;> rfl

@[simp] theorem reduceWindow_setInitialWindowOnTimeout (state : WindowConsumer) :
    (reduceWindow state).setInitialWindowOnTimeout = state.setInitialWindowOnTimeout := by
  unfold reduceWindow
  split <;> rfl

theorem reduceWindow_window (state : WindowConsumer) :
    (reduceWindow state).window = if state.setInitialWindowOnTimeout then 0 else state.window := by
  unfold reduceWindow
  split
  · simp
  · rfl

end FullyDistributed

namespace WindowClass
open WindowConsumer

theorem scheduleNextPacket_same (kind : WindowClass) (now : Time) (state : WindowConsumer) :
    SameWindow (kind.virtual.scheduleNextPacket now state) state := by
  cases kind with
  | consumerWindow => exact ConsumerWindow.scheduleNextPacket_same now state
  | fullyDistributed => exact FullyDistributed.scheduleNextPacket_same now state

private theorem consumerWindow_lawful : consumerWindow.virtual.Lawful where
  base_withBase _ _ := rfl
  schedule now state := (ConsumerWindow.scheduleNextPacket_same now state).sequencing
  willSend _ _ _ := rfl
  data now data state := (ConsumerWindow.scheduleNextPacket_same _ _).sequencing
  rsr now name state :=
    (consumerOnRsr_same _ ConsumerWindow.scheduleNextPacket_same now name state).sequencing
  timeout now seq state := by
    change (ConsumerWindow.onTimeout now seq state).base.sequencing = _
    unfold ConsumerWindow.onTimeout consumerOnTimeout
    rw [(ConsumerWindow.scheduleNextPacket_same _ _).sequencing,withBase_base,
      ConsumerWindow.resetWindow_base]
    rfl

private theorem fullyDistributed_lawful : fullyDistributed.virtual.Lawful where
  base_withBase _ _ := rfl
  schedule now state := (FullyDistributed.scheduleNextPacket_same now state).sequencing
  willSend _ _ _ := rfl
  data now data state := by
    change (FullyDistributed.onData now data state).base.sequencing = _
    unfold FullyDistributed.onData
    dsimp only
    split
    · exact (FullyDistributed.scheduleNextPacket_same _ _).sequencing
    · rfl
  rsr now name state := by
    change (FullyDistributed.onRsr now name state).base.sequencing = _
    have same := consumerOnRsr_same _ FullyDistributed.scheduleNextPacket_same now name state
    unfold FullyDistributed.onRsr
    dsimp only
    split <;> exact same.sequencing
  timeout now seq state := by
    change (FullyDistributed.onTimeout now seq state).base.sequencing = _
    unfold FullyDistributed.onTimeout consumerOnTimeout
    rw [(FullyDistributed.scheduleNextPacket_same _ _).sequencing,withBase_base]
    apply Consumer.sequencing_timedOut
    rw [(FullyDistributed.scheduleNextPacket_same _ _).sequencing,FullyDistributed.reduceWindow_base]
    rfl

theorem lawful (kind : WindowClass) : kind.virtual.Lawful := by
  cases kind with
  | consumerWindow => exact consumerWindow_lawful
  | fullyDistributed => exact fullyDistributed_lawful

end WindowClass

end Ncfcc.Apps
