import Ncfcc.Apps.WindowConsumer

/-! The congestion window of `FullyDistributed` against the machine its comments
describe: one more for each Data below the cap, half of it at a reduce-send-rate
message, a third of it at a timeout, and the last window kept as threshold. -/
namespace Ncfcc.Apps.FullyDistributed
open Ncfcc.Library WindowConsumer

inductive Call where
  | onData (now : Time) (data : Data)
  | onRsr (now : Time) (name : Name)
  | onTimeout (now : Time) (seq : Nat)

def call (state : WindowConsumer) : Call → WindowConsumer
  | .onData now data => onData now data state
  | .onRsr now name => onRsr now name state
  | .onTimeout now seq => onTimeout now seq state

/-- The window of the machine that the comments describe. -/
def reference (window : Nat) : Call → Nat
  | .onData _ _ => if window < 150 then window + 1 else window
  | .onRsr _ name => if name = Name.rsr then window / 2 else window
  | .onTimeout _ _ => window / 3

def Call.reduces : Call → Prop
  | .onData _ _ => False
  | .onRsr _ name => name = Name.rsr
  | .onTimeout _ _ => True

/-- The window is the reference window in every state of the run, each reduction
saves the window it reduces, and none takes a window of three or more to zero. -/
structure FollowsReference (initial : WindowConsumer) (calls : List Call) : Prop where
  window : ∀ before, before <+: calls →
    (run call initial before).window = run reference initial.window before
  ssthresh : Steps call (fun state next => next.reduces → (call state next).ssthresh = state.window)
    initial calls
  positive : Steps call (fun state next => next.reduces → 3 ≤ state.window → (call state next).window ≠ 0)
    initial calls

/-- A reduction from a window whose half, or third, is zero anyway. -/
def SmallReduction (state : WindowConsumer) : Call → Prop
  | .onData _ _ => True
  | .onRsr _ name => name = Name.rsr → state.window ≤ 1
  | .onTimeout _ _ => state.window ≤ 2

private theorem onData_window (now : Time) (data : Data) (state : WindowConsumer) :
    (onData now data state).window = if state.window < 150 then state.window + 1 else state.window := by
  unfold onData
  dsimp only
  rw [withBase_window]
  split
  · exact (scheduleNextPacket_same _ _).window
  · rfl

private theorem onRsr_window (now : Time) (name : Name) (state : WindowConsumer) :
    (onRsr now name state).window = if name = Name.rsr then 0 else state.window := by
  unfold onRsr
  dsimp only
  split
  · simp
  · exact (consumerOnRsr_same _ scheduleNextPacket_same now name state).window

private theorem onRsr_ssthresh (now : Time) (name : Name) (state : WindowConsumer) :
    (onRsr now name state).ssthresh = if name = Name.rsr then state.window else state.ssthresh := by
  unfold onRsr
  dsimp only
  split
  · exact (consumerOnRsr_same _ scheduleNextPacket_same now name state).window
  · exact (consumerOnRsr_same _ scheduleNextPacket_same now name state).ssthresh

private theorem onTimeout_members (now : Time) (seq : Nat) (state : WindowConsumer)
    (enabled : state.setInitialWindowOnTimeout = true) :
    (onTimeout now seq state).window = 0 ∧ (onTimeout now seq state).ssthresh = state.window := by
  unfold onTimeout consumerOnTimeout
  have outer := scheduleNextPacket_same now
  constructor
  · rw [(outer _).window,withBase_window,(outer _).window,reduceWindow_window]
    exact if_pos enabled
  · rw [(outer _).ssthresh,withBase_ssthresh,(outer _).ssthresh]
    simp [reduceWindow,landed,enabled]

theorem call_setInitialWindowOnTimeout (state : WindowConsumer) (next : Call) :
    (call state next).setInitialWindowOnTimeout = state.setInitialWindowOnTimeout := by
  cases next with
  | onData now data =>
    simp only [call,onData]
    split
    · exact (scheduleNextPacket_same _ _).setInitialWindowOnTimeout
    · rfl
  | onRsr now name =>
    simp only [call,onRsr]
    split <;> exact (consumerOnRsr_same _ scheduleNextPacket_same now name state).setInitialWindowOnTimeout
  | onTimeout now seq =>
    simp only [call,onTimeout,consumerOnTimeout]
    rw [(scheduleNextPacket_same _ _).setInitialWindowOnTimeout,withBase_setInitialWindowOnTimeout,
      (scheduleNextPacket_same _ _).setInitialWindowOnTimeout,reduceWindow_setInitialWindowOnTimeout]
    rfl

/-- One call agrees with the reference exactly when it is no reduction of a window
that the reference would keep positive. -/
private theorem call_window (state : WindowConsumer) (next : Call)
    (enabled : state.setInitialWindowOnTimeout = true) :
    (call state next).window = reference state.window next ↔ SmallReduction state next := by
  cases next with
  | onData now data => simp [call,reference,SmallReduction,onData_window]
  | onRsr now name =>
    by_cases named : name = Name.rsr
    · simp only [call,reference,SmallReduction,onRsr_window,named,if_true,forall_const]
      omega
    · simp [call,reference,SmallReduction,onRsr_window,named]
  | onTimeout now seq =>
    simp only [call,reference,SmallReduction,(onTimeout_members now seq state enabled).1]
    omega

private theorem call_ssthresh (state : WindowConsumer) (next : Call)
    (enabled : state.setInitialWindowOnTimeout = true) (reduces : next.reduces) :
    (call state next).ssthresh = state.window := by
  cases next with
  | onData now data => exact reduces.elim
  | onRsr now name =>
    have named : name = Name.rsr := reduces
    simp [call,onRsr_ssthresh,named]
  | onTimeout now seq => exact (onTimeout_members now seq state enabled).2

/-- The window follows the comments exactly in the runs whose every reduction meets
a window it may take to zero: both factors are integer divisions equal to zero. -/
theorem followsReference_iff (state : WindowConsumer) (window : Nat) (calls : List Call)
    (enabled : state.setInitialWindowOnTimeout = true) :
    FollowsReference (setWindow window state) calls ↔
      Steps call SmallReduction (setWindow window state) calls := by
  have start : (setWindow window state).setInitialWindowOnTimeout = true := enabled
  have kept : ∀ (state : WindowConsumer) (next : Call), state.setInitialWindowOnTimeout = true →
      (call state next).setInitialWindowOnTimeout = true := by
    intro state next enabled
    rw [call_setInitialWindowOnTimeout,enabled]
  have always : Along call (fun state => state.setInitialWindowOnTimeout = true)
      (setWindow window state) calls :=
    along_of_steps (Q := fun _ _ => True) (fun state next holds _ => kept state next holds) start
      (fun _ _ _ => trivial)
  have windows : (∀ before, before <+: calls → (run call (setWindow window state) before).window =
      run reference (setWindow window state).window before) ↔
        Steps call SmallReduction (setWindow window state) calls :=
    agrees_iff_steps.trans (steps_congr (fun state event holds _ => kept state event holds) call_window start)
  constructor
  · intro follows
    exact windows.mp follows.window
  · intro small
    refine ⟨windows.mpr small,?_,?_⟩
    · exact steps_of_along call_ssthresh always
    · intro before next inside reduces large
      have bound := small before next inside
      cases next with
      | onData now data => exact reduces.elim
      | onRsr now name =>
        have low := bound reduces
        omega
      | onTimeout now seq =>
        have low : (run call (setWindow window state) before).window ≤ 2 := bound
        omega

/-- Reductions of a window of one or two, between which a Data raises it again. -/
theorem followsReference_smallWindow :
    FollowsReference (setWindow 1 (WindowClass.fullyDistributed.configured
        (Consumer.initial 0 maxWord (second / 20) (.initial .ticks)) 10 true))
      [.onRsr 0 Name.rsr,.onData 1 ⟨0,2⟩,.onData 2 ⟨1,2⟩,.onTimeout 3 2] := by
  refine (followsReference_iff _ 1 _ rfl).mpr ?_
  simp [steps_cons,steps_nil,SmallReduction,call,onRsr_window,onData_window,setWindow]

/-- A reduce-send-rate message takes the default window of ten to zero, not five. -/
theorem rsr_zeroes_window :
    ¬ FollowsReference (setWindow 10 (WindowClass.fullyDistributed.configured
        (Consumer.initial 0 maxWord (second / 20) (.initial .ticks)) 10 true))
      [.onRsr 0 Name.rsr] := by
  intro follows
  have agree := follows.window [.onRsr 0 Name.rsr] List.prefix_rfl
  simp [call,reference,onRsr_window,setWindow] at agree

end Ncfcc.Apps.FullyDistributed
