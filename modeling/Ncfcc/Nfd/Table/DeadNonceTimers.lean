import Ncfcc.Library.Scheduler
import Ncfcc.Nfd.Table.NonceRetention

/-! The timers of the Dead Nonce List. Both callbacks schedule themselves again, but `mark`
drops the id of its new event, so that `m_markEvent` names a pending event only until the
first mark. -/
namespace Ncfcc.Nfd.Table
open Ncfcc.Library

inductive NonceTimer where
  | mark
  | adjustCapacity
  deriving DecidableEq

structure TimedNonceList where
  lifetime : Int
  list : DeadNonceList
  markEvent : Option Nat
  adjustCapacityEvent : Option Nat
  scheduler : Scheduler NonceTimer

namespace TimedNonceList

/-- One millisecond, in nanoseconds. -/
def minLifetime : Int := 1000000

def markInterval (timed : TimedNonceList) : Int := timed.lifetime / DeadNonceList.expectedMarkCount

def adjustCapacityInterval (timed : TimedNonceList) : Int := timed.lifetime

/-- No list where the constructor throws. -/
def new (now : Int) (nextId : Nat) (lifetime : Int) : Option TimedNonceList :=
  if lifetime < minLifetime then none
  else
    let first := (Scheduler.initial now nextId).schedule (lifetime / DeadNonceList.expectedMarkCount) NonceTimer.mark
    some
      { lifetime
        list := DeadNonceList.new
        markEvent := some nextId
        adjustCapacityEvent := some first.nextId
        scheduler := first.schedule lifetime .adjustCapacity }

/-- The id that `schedule` returns is not kept. -/
def mark (timed : TimedNonceList) : TimedNonceList :=
  { timed with
    list := timed.list.addMark
    scheduler := timed.scheduler.schedule timed.markInterval .mark }

def adjustCapacity (timed : TimedNonceList) : TimedNonceList :=
  { timed with
    list := timed.list.adjustCapacity
    adjustCapacityEvent := some timed.scheduler.nextId
    scheduler := timed.scheduler.schedule timed.adjustCapacityInterval .adjustCapacity }

inductive Event where
  | add (name : Name) (nonce : UInt32)
  | fire
  deriving DecidableEq

def step (timed : TimedNonceList) : Event → TimedNonceList
  | .add name nonce => { timed with list := timed.list.add name nonce }
  | .fire =>
    match timed.scheduler.next with
    | none => timed
    | some event =>
      let fired := { timed with scheduler := timed.scheduler.fire event }
      match event.callback with
      | .mark => fired.mark
      | .adjustCapacity => fired.adjustCapacity

/-- The destructor: what is still pending is bound to freed memory. -/
def destroy (timed : TimedNonceList) : Scheduler NonceTimer :=
  (timed.scheduler.cancel timed.markEvent).cancel timed.adjustCapacityEvent

def handle (timed : TimedNonceList) : NonceTimer → Option Nat
  | .mark => timed.markEvent
  | .adjustCapacity => timed.adjustCapacityEvent

/-- Each event id names a pending event of its callback, and no other event is pending. -/
def Named (timed : TimedNonceList) : Prop :=
  (∀ timer, ∃ event ∈ timed.scheduler.pending, event.callback = timer ∧ timed.handle timer = some event.id) ∧
    ∀ event ∈ timed.scheduler.pending, timed.handle event.callback = some event.id

/-- No pending event outlives the list. -/
def LeavesNone (timed : TimedNonceList) : Prop := timed.destroy.pending = []

def operation (timed : TimedNonceList) : Event → List DeadNonceList.Operation
  | .add name nonce => [.add name nonce]
  | .fire =>
    match timed.scheduler.next with
    | none => []
    | some event =>
      match event.callback with
      | .mark => [.mark]
      | .adjustCapacity => [.adjustCapacity]

/-- The timed list takes the steps of the list alone. -/
theorem step_list (timed : TimedNonceList) (event : Event) :
    (timed.step event).list = run DeadNonceList.step timed.list (timed.operation event) := by
  cases event with
  | add name nonce => rfl
  | fire =>
    cases first : timed.scheduler.next with
    | none => simp [step,operation,first]
    | some event =>
      cases bound : event.callback <;>
        simp [step,operation,first,bound,mark,adjustCapacity,DeadNonceList.step]

private theorem leavesNone_of_named {timed : TimedNonceList} (named : timed.Named) : timed.LeavesNone := by
  apply List.eq_nil_iff_forall_not_mem.mpr
  intro event inside
  obtain ⟨still,notAdjust⟩ := Scheduler.mem_cancel.mp inside
  obtain ⟨there,notMark⟩ := Scheduler.mem_cancel.mp still
  have kept := named.2 event there
  cases bound : event.callback with
  | mark =>
    rw [bound] at kept
    exact notMark kept.symm
  | adjustCapacity =>
    rw [bound] at kept
    exact notAdjust kept.symm

/-- An event whose id is not kept outlives the list. -/
theorem mark_leaves {timed : TimedNonceList} (notMark : timed.markEvent ≠ some timed.scheduler.nextId)
    (notAdjust : timed.adjustCapacityEvent ≠ some timed.scheduler.nextId) : ¬ timed.mark.LeavesNone := by
  intro none
  have pending : (⟨timed.scheduler.nextId,timed.scheduler.now + timed.markInterval,.mark⟩ : Scheduled NonceTimer) ∈
      timed.mark.destroy.pending := by
    refine Scheduler.mem_cancel.mpr ⟨Scheduler.mem_cancel.mpr ⟨?_,notMark.symm⟩,notAdjust.symm⟩
    exact Scheduler.mem_schedule.mpr (Or.inr rfl)
  rw [none] at pending
  cases pending

/-- Only events that fire touch the timers. -/
theorem run_adds (timed : TimedNonceList) (events : List Event) (none : Event.fire ∉ events) :
    ∃ list, run step timed events = { timed with list } := by
  induction events generalizing timed with
  | nil => exact ⟨timed.list,rfl⟩
  | cons event events ih =>
    cases event with
    | add name nonce =>
      obtain ⟨list,same⟩ := ih (timed.step (.add name nonce)) (fun inside => none (List.mem_cons_of_mem _ inside))
      exact ⟨list,same⟩
    | fire => exact absurd (List.mem_cons_self ..) none

section
variable {now lifetime : Int} {nextId : Nat} {timed : TimedNonceList}

private theorem new_named (built : new now nextId lifetime = some timed) : timed.Named := by
  unfold new at built
  split at built
  · cases built
  · cases built
    refine ⟨?_,?_⟩
    · intro timer
      cases timer <;> simp [Scheduler.schedule,Scheduler.initial,handle]
    · intro event inside
      rcases Scheduler.mem_schedule.mp inside with first | rfl
      · rcases Scheduler.mem_schedule.mp first with none | rfl
        · cases none
        · rfl
      · rfl

private theorem new_ids (built : new now nextId lifetime = some timed) : timed.markEvent = some nextId ∧
    timed.adjustCapacityEvent = some (nextId + 1) ∧ timed.scheduler.nextId = nextId + 2 := by
  unfold new at built
  split at built
  · cases built
  · cases built
    exact ⟨rfl,rfl,rfl⟩

/-- A fifth of a lifetime of a millisecond or more ends before the lifetime. -/
theorem new_next (built : new now nextId lifetime = some timed) :
    timed.scheduler.next = some ⟨nextId,now + lifetime / 5,.mark⟩ := by
  unfold new minLifetime at built
  split at built
  · cases built
  · rename_i long
    cases built
    have earlier : now + lifetime / 5 ≤ now + lifetime := by omega
    simp only [Scheduler.next,Scheduler.schedule,Scheduler.initial,List.nil_append,List.cons_append]
    rw [List.minOn?_cons,List.minOn?_singleton]
    exact congrArg some (minOn_eq_left earlier)

/-- The first event to fire is a mark, and the destructor does not know its successor. -/
theorem fire_leaves (built : new now nextId lifetime = some timed) (list : DeadNonceList) :
    ¬ (step { timed with list } .fire).LeavesNone := by
  have marks : step { timed with list } .fire =
      mark { timed with list, scheduler := timed.scheduler.fire ⟨nextId,now + lifetime / 5,.mark⟩ } := by
    simp only [step,new_next built]
  rw [marks]
  obtain ⟨markId,adjustId,nextIs⟩ := new_ids built
  have afresh : (timed.scheduler.fire ⟨nextId,now + lifetime / 5,.mark⟩).nextId = nextId + 2 := nextIs
  apply mark_leaves
  · simp [markId,afresh]
  · simp [adjustId,afresh]

/-- In every state of a run the event ids name the pending events and the destructor leaves
none of them, exactly when the list is destroyed before a timer has fired. -/
theorem destructor_exact_iff (now : Int) (nextId : Nat) (lifetime : Int) (timed : TimedNonceList)
    (built : new now nextId lifetime = some timed) (events : List Event) :
    Along step (fun state => state.Named ∧ state.LeavesNone) timed events ↔ Event.fire ∉ events := by
  constructor
  · intro always fires
    obtain ⟨before,after,split,none⟩ := List.eq_append_cons_of_mem fires
    obtain ⟨list,same⟩ := run_adds timed before none
    have inside : before ++ [.fire] <+: events := ⟨after,by simp [split]⟩
    have last := (always (before ++ [.fire]) inside).2
    rw [run_concat,same] at last
    exact fire_leaves built list last
  · intro none before inside
    obtain ⟨list,same⟩ := run_adds timed before (fun early => none (inside.subset early))
    rw [same]
    have named : Named { timed with list } := ⟨(new_named built).1,(new_named built).2⟩
    exact ⟨named,leavesNone_of_named named⟩

theorem destructor_exact_default : ∃ timed, new 0 0 DeadNonceList.defaultLifetime = some timed ∧
    (Along step (fun state => state.Named ∧ state.LeavesNone) timed [.add [] 1] ↔
      Event.fire ∉ [Event.add [] 1]) :=
  ⟨_,rfl,destructor_exact_iff 0 0 DeadNonceList.defaultLifetime _ rfl [.add [] 1]⟩

/-- A list with the default lifetime that is destroyed after its first mark. -/
theorem mark_event_dangles : ∃ timed, new 0 0 DeadNonceList.defaultLifetime = some timed ∧
    ¬ Named (run step timed [.fire]) ∧ (run step timed [.fire]).destroy.pending =
      [⟨2,2400000000,.mark⟩] := by
  refine ⟨_,rfl,?_,by decide⟩
  intro named
  obtain ⟨event,inside,-,kept⟩ := named.1 .mark
  revert event
  decide

end

end TimedNonceList

end Ncfcc.Nfd.Table
