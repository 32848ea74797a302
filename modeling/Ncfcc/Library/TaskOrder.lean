import Ncfcc.Library.Scheduler

/-! Callbacks of one kind that are all scheduled with the same delay run in the order in which
they were scheduled, whatever other callbacks do. -/
namespace Ncfcc.Library.Scheduler
variable {α : Type}

/-- Of the events that are due first the one that was scheduled first is run. -/
theorem next_split {scheduler : Scheduler α} {event : Scheduled α} (first : scheduler.next = some event) :
    ∃ front back, scheduler.pending = front ++ event :: back ∧ ∀ other ∈ front, event.due < other.due := by
  unfold next at first
  generalize scheduler.pending = pending at first
  induction pending with
  | nil => cases first
  | cons head tail ih =>
    rw [List.minOn?_cons,Option.some.injEq] at first
    cases least : tail.minOn? Scheduled.due with
    | none =>
      rw [least] at first
      exact ⟨[],tail,congrArg (· :: tail) first,fun _ none => absurd none List.not_mem_nil⟩
    | some smallest =>
      rw [least,Option.elim_some,minOn] at first
      split at first
      · exact ⟨[],tail,congrArg (· :: tail) first,fun _ none => absurd none List.not_mem_nil⟩
      · rename_i less
        rw [first] at less least
        obtain ⟨front,back,split,later⟩ := ih least
        exact ⟨head :: front,back,congrArg (head :: ·) split,List.forall_mem_cons.mpr ⟨lt_of_not_ge less,later⟩⟩

theorem next_of_pending {scheduler : Scheduler α} (some_pending : scheduler.pending ≠ []) :
    ∃ event, scheduler.next = some event :=
  Option.isSome_iff_exists.mp (List.isSome_minOn?_iff.mpr some_pending)

/-- The event that runs leaves the others as they are. -/
theorem pending_fire {scheduler : Scheduler α} {event : Scheduled α} {front back : List (Scheduled α)}
    (split : scheduler.pending = front ++ event :: back) : (scheduler.fire event).pending = front ++ back := by
  have distinct := scheduler.distinct
  rw [split,List.map_append,List.map_cons,List.nodup_middle,List.nodup_cons,List.mem_append,not_or] at distinct
  have others : ∀ part : List (Scheduled α), event.id ∉ part.map Scheduled.id →
      part.filter (fun other => some other.id ≠ some event.id) = part := by
    intro part missing
    refine List.filter_eq_self.mpr fun other inside => decide_eq_true fun same => missing ?_
    rw [← Option.some.inj same]
    exact List.mem_map_of_mem inside
  change scheduler.pending.filter (fun other => some other.id ≠ some event.id) = _
  rw [split,List.filter_append,List.filter_cons_of_neg (by simp),others front distinct.1.1,others back distinct.1.2]

section
variable (isKind : α → Bool)

/-- The pending events of a kind, in the order in which they were scheduled. -/
def pendingOf (scheduler : Scheduler α) : List (Scheduled α) := scheduler.pending.filter fun event => isKind event.callback

def waiting (scheduler : Scheduler α) : List α := (scheduler.pendingOf isKind).map Scheduled.callback

/-- No event is overdue, and those of the kind were scheduled with the same delay. -/
structure InOrder (delay : Int) (scheduler : Scheduler α) : Prop where
  ahead : ∀ event ∈ scheduler.pending, scheduler.now ≤ event.due
  soon : ∀ event ∈ scheduler.pending, isKind event.callback = true → event.due ≤ scheduler.now + delay
  sorted : (scheduler.pendingOf isKind).Pairwise fun first second => first.due ≤ second.due
  numbered : (scheduler.pendingOf isKind).Pairwise fun first second => first.id < second.id

variable {isKind} {scheduler : Scheduler α} {delay : Int} {event : Scheduled α} {callback : α}

theorem mem_pendingOf : event ∈ scheduler.pendingOf isKind ↔ event ∈ scheduler.pending ∧ isKind event.callback = true :=
  List.mem_filter

theorem pendingOf_schedule (after : Int) (kind : isKind callback = true) :
    (scheduler.schedule after callback).pendingOf isKind =
      scheduler.pendingOf isKind ++ [⟨scheduler.nextId,scheduler.now + after,callback⟩] := by
  simp [pendingOf,schedule,List.filter_append,kind]

theorem pendingOf_schedule_other (after : Int) (other : isKind callback = false) :
    (scheduler.schedule after callback).pendingOf isKind = scheduler.pendingOf isKind := by
  simp [pendingOf,schedule,List.filter_append,other]

/-- An order of the events of the kind is kept where the new one comes last in it. -/
theorem pairwise_schedule {order : Scheduled α → Scheduled α → Prop} {after : Int}
    (ordered : (scheduler.pendingOf isKind).Pairwise order)
    (last : ∀ event ∈ scheduler.pendingOf isKind, isKind callback = true →
      order event ⟨scheduler.nextId,scheduler.now + after,callback⟩) :
    ((scheduler.schedule after callback).pendingOf isKind).Pairwise order := by
  cases kind : isKind callback with
  | false =>
    rw [pendingOf_schedule_other after kind]
    exact ordered
  | true =>
    rw [pendingOf_schedule after kind,List.pairwise_append]
    refine ⟨ordered,List.pairwise_singleton _ _,?_⟩
    intro event inside new single
    rw [List.mem_singleton.mp single]
    exact last event inside kind

theorem pendingOf_cancel (handle : Option Nat) :
    (scheduler.cancel handle).pendingOf isKind = (scheduler.pendingOf isKind).filter fun event => some event.id ≠ handle := by
  unfold pendingOf cancel
  rw [List.filter_filter,List.filter_filter]
  exact List.filter_congr fun event _ => Bool.and_comm _ _

theorem advance_nextId (scheduler : Scheduler α) (time : Int) : (scheduler.advance time).nextId = scheduler.nextId := by
  unfold Scheduler.advance
  split <;> rfl

theorem pendingOf_advance (time : Int) : (scheduler.advance time).pendingOf isKind = scheduler.pendingOf isKind := by
  rw [pendingOf,advance_pending,pendingOf]

theorem pendingOf_fire_other (inside : event ∈ scheduler.pending) (other : isKind event.callback = false) :
    (scheduler.fire event).pendingOf isKind = scheduler.pendingOf isKind := by
  obtain ⟨front,back,split⟩ := List.append_of_mem inside
  rw [pendingOf,pendingOf,pending_fire split,split,List.filter_append,List.filter_append,
    List.filter_cons_of_neg (by simp [other])]

/-- Of the events of the kind the one that was scheduled first runs first. -/
theorem InOrder.pendingOf_fire (ordered : scheduler.InOrder isKind delay) (first : scheduler.next = some event)
    (kind : isKind event.callback = true) :
    scheduler.pendingOf isKind = event :: (scheduler.fire event).pendingOf isKind := by
  obtain ⟨front,back,split,later⟩ := next_split first
  have none : front.filter (fun other => isKind other.callback) = [] := by
    refine List.filter_eq_nil_iff.mpr fun other inside same => ?_
    have sorted := ordered.sorted
    rw [pendingOf,split,List.filter_append,List.filter_cons,if_pos kind] at sorted
    have before := (List.pairwise_append.mp sorted).2.2 other (List.mem_filter.mpr ⟨inside,same⟩) event List.mem_cons_self
    exact absurd before (not_le.mpr (later other inside))
  rw [pendingOf,pendingOf,pending_fire split,split,List.filter_append,List.filter_append,none,
    List.filter_cons,if_pos kind,List.nil_append,List.nil_append]

theorem inOrder_initial (now : Int) (nextId : Nat) : (initial now nextId).InOrder isKind delay :=
  ⟨fun _ none => absurd none List.not_mem_nil,fun _ none => absurd none List.not_mem_nil,List.Pairwise.nil,List.Pairwise.nil⟩

theorem InOrder.schedule (ordered : scheduler.InOrder isKind delay) {after : Int} (positive : 0 ≤ after)
    (same : isKind callback = true → after = delay) : (scheduler.schedule after callback).InOrder isKind delay := by
  refine ⟨?_,?_,?_,?_⟩
  · intro event inside
    rcases mem_schedule.mp inside with old | rfl
    · exact ordered.ahead event old
    · exact Int.le_add_of_nonneg_right positive
  · intro event inside kind
    rcases mem_schedule.mp inside with old | rfl
    · exact ordered.soon event old kind
    · exact le_of_eq (congrArg (scheduler.now + ·) (same kind))
  · refine pairwise_schedule ordered.sorted fun event inside kind => ?_
    obtain ⟨pending,kind'⟩ := mem_pendingOf.mp inside
    rw [same kind]
    exact ordered.soon event pending kind'
  · exact pairwise_schedule ordered.numbered fun event inside _ => scheduler.fresh event (mem_pendingOf.mp inside).1

theorem InOrder.cancel (ordered : scheduler.InOrder isKind delay) (handle : Option Nat) :
    (scheduler.cancel handle).InOrder isKind delay := by
  refine ⟨?_,?_,?_,?_⟩
  · intro event inside
    exact ordered.ahead event (mem_cancel.mp inside).1
  · intro event inside
    exact ordered.soon event (mem_cancel.mp inside).1
  · rw [pendingOf_cancel]
    exact ordered.sorted.sublist List.filter_sublist
  · rw [pendingOf_cancel]
    exact ordered.numbered.sublist List.filter_sublist

theorem InOrder.advance (ordered : scheduler.InOrder isKind delay) (time : Int) :
    (scheduler.advance time).InOrder isKind delay := by
  unfold Scheduler.advance
  split
  · rename_i passed
    refine ⟨passed.2,?_,ordered.sorted,ordered.numbered⟩
    intro event inside kind
    exact Int.le_trans (ordered.soon event inside kind) (Int.add_le_add_right passed.1 delay)
  · exact ordered

theorem InOrder.fire (ordered : scheduler.InOrder isKind delay) (first : scheduler.next = some event) :
    (scheduler.fire event).InOrder isKind delay := by
  have cancelled := ordered.cancel (some event.id)
  refine ⟨?_,?_,cancelled.sorted,cancelled.numbered⟩
  · intro other inside
    exact next_le first (mem_fire.mp inside).1
  · intro other inside kind
    have now := ordered.ahead event (next_mem first)
    exact Int.le_trans (cancelled.soon other inside kind) (Int.add_le_add_right now delay)

end

end Ncfcc.Library.Scheduler
