import Mathlib.Data.List.Nodup
import Mathlib.Data.Int.Order.Basic

/-! Discrete-event schedulers over an arbitrary type of callbacks. Event ids are increasing
and never used again, so that a handle names one event for ever; events are listed in the
order of their ids, and of the earliest pending events the first one runs next. -/
namespace Ncfcc.Library

/-- Simulation time and delays are signed numbers of nanoseconds. -/
structure Scheduled (α : Type) where
  id : Nat
  due : Int
  callback : α
  deriving DecidableEq

structure Scheduler (α : Type) where
  now : Int
  nextId : Nat
  pending : List (Scheduled α)
  fresh : ∀ event ∈ pending, event.id < nextId
  distinct : (pending.map Scheduled.id).Nodup

namespace Scheduler
variable {α : Type}

def initial (now : Int) (nextId : Nat) : Scheduler α := ⟨now,nextId,[],by simp,List.nodup_nil⟩

/-- The event gets `nextId`, which is the handle returned to the caller. -/
def schedule (scheduler : Scheduler α) (after : Int) (callback : α) : Scheduler α where
  now := scheduler.now
  nextId := scheduler.nextId + 1
  pending := scheduler.pending ++ [⟨scheduler.nextId,scheduler.now + after,callback⟩]
  fresh := by
    intro event inside
    rcases List.mem_append.mp inside with old | new
    · exact Nat.lt_succ_of_lt (scheduler.fresh event old)
    · rw [List.mem_singleton.mp new]
      exact Nat.lt_succ_self _
  distinct := by
    rw [List.map_append,List.nodup_append]
    refine ⟨scheduler.distinct,List.nodup_singleton _,?_⟩
    intro old inside new single
    obtain ⟨event,there,rfl⟩ := List.mem_map.mp inside
    rw [List.mem_singleton.mp single]
    exact Nat.ne_of_lt (scheduler.fresh event there)

/-- Nothing happens for a null handle and for an event that has run or was cancelled. -/
def cancel (scheduler : Scheduler α) (handle : Option Nat) : Scheduler α :=
  { scheduler with
    pending := scheduler.pending.filter fun event => some event.id ≠ handle
    fresh := fun event inside => scheduler.fresh event (List.mem_filter.mp inside).1
    distinct := scheduler.distinct.sublist (List.filter_sublist.map _) }

def next (scheduler : Scheduler α) : Option (Scheduled α) := scheduler.pending.minOn? Scheduled.due

/-- An event leaves the pending ones at its time, before its callback runs. -/
def fire (scheduler : Scheduler α) (event : Scheduled α) : Scheduler α :=
  { scheduler.cancel (some event.id) with now := event.due }

/-- Time passes, but not beyond an event that is due. -/
def advance (scheduler : Scheduler α) (time : Int) : Scheduler α :=
  if scheduler.now ≤ time ∧ ∀ event ∈ scheduler.pending, time ≤ event.due then {scheduler with now := time}
  else scheduler

section
variable {scheduler : Scheduler α} {event other : Scheduled α} {handle : Option Nat}

theorem mem_schedule {after : Int} {callback : α} : event ∈ (scheduler.schedule after callback).pending ↔
    event ∈ scheduler.pending ∨ event = ⟨scheduler.nextId,scheduler.now + after,callback⟩ := by
  simp [schedule]

theorem mem_cancel : event ∈ (scheduler.cancel handle).pending ↔
    event ∈ scheduler.pending ∧ some event.id ≠ handle := by
  simp [cancel]

theorem mem_fire : event ∈ (scheduler.fire other).pending ↔
    event ∈ scheduler.pending ∧ event.id ≠ other.id := by
  simp [fire,cancel]

theorem advance_pending (scheduler : Scheduler α) (time : Int) :
    (scheduler.advance time).pending = scheduler.pending := by
  unfold advance
  split <;> rfl

theorem next_mem (first : scheduler.next = some event) : event ∈ scheduler.pending :=
  List.minOn?_mem first

theorem next_le (first : scheduler.next = some event) (inside : other ∈ scheduler.pending) : event.due ≤ other.due := by
  have least := List.apply_get_minOn?_le_of_mem (f := Scheduled.due) inside
  simp only [show scheduler.pending.minOn? Scheduled.due = some event from first,Option.get_some] at least
  exact least

/-- A handle names at most one pending event. -/
theorem eq_of_id (here : event ∈ scheduler.pending) (there : other ∈ scheduler.pending)
    (same : event.id = other.id) : event = other :=
  List.inj_on_of_nodup_map scheduler.distinct here there same

end

end Scheduler

end Ncfcc.Library
