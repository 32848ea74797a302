import Ncfcc.Nfd.Table.MeasurementsTimers

/-! How long measurements entries live. A history kept beside the tables remembers when each
entry was made, the times its lifetime was extended to and when it was removed. -/
namespace Ncfcc.Nfd.Table.Tables
open Ncfcc.Library NameTree

/-- The times that extensions asked for while the entry was there, with the creation and the
removal of the entry. -/
structure History where
  created : Nat → Option Int
  extended : Nat → List Int
  removed : Nat → Option Int

namespace History

def initial : History := ⟨fun _ => none,fun _ => [],fun _ => none⟩

/-- The latest time that an entry is to live until. -/
def deadline (history : History) (entry : Nat) : Option Int :=
  (history.created entry).map fun time => (history.extended entry).foldl max (time + initialLifetime)

def record (history : History) (operation : Operation) (before after : Nat → Bool) (now later : Int) :
    History where
  created entry := if ¬ before entry ∧ after entry then some now else history.created entry
  extended entry :=
    match operation with
    | .extendLifetime called lifetime =>
      if called = entry ∧ before entry then history.extended entry ++ [now + lifetime] else history.extended entry
    | _ => history.extended entry
  removed entry := if before entry ∧ ¬ after entry then some later else history.removed entry

section
variable {history : History} {operation : Operation} {before after : Nat → Bool} {now later : Int} {entry : Nat}

private theorem record_created (old : before entry ∨ ¬ after entry) :
    (history.record operation before after now later).created entry = history.created entry := by
  refine if_neg ?_
  rintro ⟨absent,present⟩
  exact old.elim absent fun missing => missing present

private theorem record_created_new (absent : ¬ before entry) (present : after entry) :
    (history.record operation before after now later).created entry = some now := if_pos ⟨absent,present⟩

private theorem record_removed_gone (present : before entry) (absent : ¬ after entry) :
    (history.record operation before after now later).removed entry = some later := if_pos ⟨present,absent⟩

private theorem record_removed (kept : before entry → after entry) :
    (history.record operation before after now later).removed entry = history.removed entry :=
  if_neg fun both => both.2 (kept both.1)

private theorem record_extended (other : ∀ lifetime, operation = .extendLifetime entry lifetime → ¬ before entry) :
    (history.record operation before after now later).extended entry = history.extended entry := by
  cases operation with
  | extendLifetime called lifetime =>
    refine if_neg ?_
    rintro ⟨rfl,present⟩
    exact other lifetime rfl present
  | _ => rfl

private theorem record_deadline (old : before entry ∨ ¬ after entry)
    (other : ∀ lifetime, operation = .extendLifetime entry lifetime → ¬ before entry) :
    (history.record operation before after now later).deadline entry = history.deadline entry := by
  unfold deadline
  rw [record_created old,record_extended other]

private theorem record_deadline_extended {lifetime : Int} (present : before entry) :
    (history.record (.extendLifetime entry lifetime) before after now later).deadline entry =
      (history.deadline entry).map fun time => max time (now + lifetime) := by
  have appended : (history.record (.extendLifetime entry lifetime) before after now later).extended entry =
      history.extended entry ++ [now + lifetime] := if_pos ⟨rfl,present⟩
  unfold deadline
  rw [record_created (Or.inl present),appended,Option.map_map]
  congr 1
  funext time
  exact List.foldl_concat ..

/-- The present entries are those made and not removed; numbers from this one on are not
given out yet. -/
structure Follows (history : History) (present : Nat → Prop) (number : Nat) : Prop where
  given : ∀ entry, (history.created entry).isSome → entry < number
  unborn : ∀ entry, history.created entry = none → history.extended entry = [] ∧ history.removed entry = none
  present : ∀ entry, present entry ↔ (history.created entry).isSome ∧ history.removed entry = none

theorem Follows.record {present remaining : Nat → Prop} {number following : Nat} (follows : history.Follows present number)
    (was : ∀ entry, before entry ↔ present entry) (is : ∀ entry, after entry ↔ remaining entry)
    (fresh : ∀ entry, remaining entry → present entry ∨ number ≤ entry)
    (bound : ∀ entry, remaining entry → entry < following) (grown : number ≤ following) :
    (history.record operation before after now later).Follows remaining following := by
  have unmade : ∀ entry, (history.record operation before after now later).created entry = none →
      history.created entry = none := by
    intro entry none
    by_contra made
    have old : before entry ∨ ¬ after entry := by
      by_contra new
      obtain ⟨absent,there⟩ := not_or.mp new
      rw [record_created_new absent (not_not.mp there)] at none
      cases none
    rw [record_created old] at none
    exact made none
  refine ⟨?_,?_,?_⟩
  · intro entry made
    by_cases old : before entry ∨ ¬ after entry
    · rw [record_created old] at made
      exact (follows.given entry made).trans_le grown
    · exact bound entry ((is entry).mp (not_not.mp (not_or.mp old).2))
  · intro entry none
    obtain ⟨extended,removed⟩ := follows.unborn entry (unmade entry none)
    have absent : ¬ before entry := by
      intro there
      have made := ((follows.present entry).mp ((was entry).mp there)).1
      rw [unmade entry none] at made
      cases made
    rw [record_extended fun _ _ => absent,record_removed fun there => absurd there absent]
    exact ⟨extended,removed⟩
  · intro entry
    rw [← is]
    by_cases there : before entry
    · rw [record_created (Or.inl there)]
      by_cases stays : after entry
      · rw [record_removed fun _ => stays]
        exact iff_of_true stays ((follows.present entry).mp ((was entry).mp there))
      · refine iff_of_false stays ?_
        rintro ⟨-,kept⟩
        rw [record_removed_gone there stays] at kept
        cases kept
    · rw [record_removed fun present => absurd present there]
      by_cases new : after entry
      · have late : history.created entry = none := by
          rw [Option.eq_none_iff_forall_ne_some]
          intro time made
          have early := follows.given entry (Option.isSome_of_eq_some made)
          have absent := (was entry).not.mp there
          exact absurd ((fresh entry ((is entry).mp new)).resolve_left absent) (not_le.mpr early)
        rw [record_created_new there new]
        exact iff_of_true new ⟨rfl,(follows.unborn entry late).2⟩
      · rw [record_created (Or.inr new)]
        exact iff_of_false new fun made => there ((was entry).mpr ((follows.present entry).mpr made))

end

end History

namespace Timers

private theorem create_expiry (timers : Timers) (id number : Nat) :
    (timers.create id number).expiry number = timers.scheduler.now + initialLifetime := Function.update_self ..

private theorem extend_expiry (timers : Timers) (entry : Nat) (lifetime : Int) :
    (timers.extend entry lifetime).expiry entry = timers.scheduler.now + lifetime := Function.update_self ..

private theorem create_present {timers : Timers} {id : Nat} (free : timers.measurementsEntry id = none) (number entry : Nat) :
    (timers.create id number).Present entry ↔ timers.Present entry ∨ entry = number := by
  constructor
  · rintro ⟨node,held⟩
    change Function.update timers.measurementsEntry id (some number) node = some entry at held
    by_cases same : node = id
    · rw [same,Function.update_self] at held
      exact Or.inr (Option.some.inj held).symm
    · rw [Function.update_of_ne same] at held
      exact Or.inl ⟨node,held⟩
  · rintro (⟨node,held⟩ | rfl)
    · have apart : node ≠ id := by
        rintro rfl
        rw [free] at held
        cases held
      exact ⟨node,(Function.update_of_ne apart _ _).trans held⟩
    · exact ⟨id,Function.update_self ..⟩

private theorem clean_present {timers : Timers} {event : Scheduled Nat} {id : Option Nat}
    (here : ∀ node, timers.measurementsEntry node = some event.callback ↔ id = some node) (entry : Nat) :
    (timers.clean event id).Present entry ↔ timers.Present entry ∧ entry ≠ event.callback := by
  cases id with
  | none =>
    refine ⟨?_,fun both => both.1⟩
    rintro ⟨node,held⟩
    refine ⟨⟨node,held⟩,?_⟩
    rintro rfl
    exact absurd ((here node).mp held) nofun
  | some id =>
    have held := (here id).mpr rfl
    constructor
    · rintro ⟨node,left⟩
      change Function.update timers.measurementsEntry id none node = some entry at left
      by_cases same : node = id
      · rw [same,Function.update_self] at left
        cases left
      · rw [Function.update_of_ne same] at left
        refine ⟨⟨node,left⟩,?_⟩
        rintro rfl
        exact same (Option.some.inj ((here node).mp left)).symm
    · rintro ⟨⟨node,there⟩,apart⟩
      have different : node ≠ id := by
        rintro rfl
        exact apart (Option.some.inj (there.symm.trans held))
      exact ⟨node,(Function.update_of_ne different _ _).trans there⟩

structure Lives (timers : Timers) (history : History) (number : Nat) : Prop where
  follows : history.Follows timers.Present number
  deadline : ∀ entry, timers.Present entry → history.deadline entry = some (timers.expiry entry)
  timer : ∀ entry, timers.Present entry → ∃ event ∈ timers.scheduler.pending,
    event.callback = entry ∧ timers.cleanupEvent entry = some event.id ∧ event.due = timers.expiry entry
  pending : ∀ event ∈ timers.scheduler.pending, timers.Present event.callback ∧
    timers.cleanupEvent event.callback = some event.id
  ahead : ∀ event ∈ timers.scheduler.pending, timers.scheduler.now ≤ event.due
  removed : ∀ entry time, history.removed entry = some time →
    history.deadline entry = some time ∧ time ≤ timers.scheduler.now

section
variable {timers : Timers} {history : History} {number following : Nat} {operation : Operation} {before after : Nat → Bool}

theorem Lives.due_eq_expiry (lives : Lives timers history number) {event : Scheduled Nat}
    (inside : event ∈ timers.scheduler.pending) : event.due = timers.expiry event.callback := by
  obtain ⟨there,handle⟩ := lives.pending event inside
  obtain ⟨other,pending,-,known,due⟩ := lives.timer event.callback there
  rw [handle] at known
  cases Scheduler.eq_of_id inside pending (Option.some.inj known)
  exact due

theorem Lives.now_le_expiry (lives : Lives timers history number) {entry : Nat} (there : timers.Present entry) :
    timers.scheduler.now ≤ timers.expiry entry := by
  obtain ⟨event,inside,-,-,due⟩ := lives.timer entry there
  rw [← due]
  exact lives.ahead event inside

theorem Lives.kept (lives : Lives timers history number) (was : ∀ entry, before entry ↔ timers.Present entry)
    (is : ∀ entry, after entry ↔ timers.Present entry) (bound : ∀ entry, timers.Present entry → entry < following)
    (grown : number ≤ following) (short : ∀ entry lifetime, operation = .extendLifetime entry lifetime →
      timers.Present entry → timers.scheduler.now + lifetime ≤ timers.expiry entry) (later : Int) :
    Lives timers (history.record operation before after timers.scheduler.now later) following := by
  have stays : ∀ entry, before entry ↔ after entry := fun entry => (was entry).trans (is entry).symm
  have deadline : ∀ entry, (history.record operation before after timers.scheduler.now later).deadline entry =
      history.deadline entry := by
    intro entry
    by_cases called : ∃ lifetime, operation = .extendLifetime entry lifetime ∧ before entry
    · obtain ⟨lifetime,rfl,there⟩ := called
      have present := (was entry).mp there
      rw [History.record_deadline_extended there,lives.deadline entry present,Option.map_some]
      exact congrArg some (max_eq_left (short entry lifetime rfl present))
    · refine History.record_deadline ?_ fun lifetime same there => called ⟨lifetime,same,there⟩
      rw [stays]
      exact em _
  refine ⟨lives.follows.record was is (fun _ => Or.inl) bound grown,?_,lives.timer,lives.pending,lives.ahead,?_⟩
  · intro entry there
    rw [deadline]
    exact lives.deadline entry there
  · intro entry time gone
    rw [History.record_removed (stays entry).mp] at gone
    rw [deadline]
    exact lives.removed entry time gone

theorem Lives.created {id : Nat} (lives : Lives timers history number)
    (was : ∀ entry, before entry ↔ timers.Present entry)
    (is : ∀ entry, after entry ↔ (timers.create id number).Present entry)
    (bound : ∀ entry, (timers.create id number).Present entry → entry < following) (grown : number ≤ following)
    (free : timers.measurementsEntry id = none)
    (other : ∀ entry lifetime, operation ≠ .extendLifetime entry lifetime) (later : Int) :
    Lives (timers.create id number) (history.record operation before after timers.scheduler.now later) following := by
  have present := create_present free number
  have unmade : history.created number = none := by
    rw [Option.eq_none_iff_forall_ne_some]
    intro time made
    exact Nat.lt_irrefl _ (lives.follows.given number (Option.isSome_of_eq_some made))
  have absent : ¬ timers.Present number := by
    intro there
    have made := ((lives.follows.present number).mp there).1
    rw [unmade] at made
    cases made
  have different : ∀ entry, timers.Present entry → entry ≠ number := by
    rintro entry there rfl
    exact absent there
  have deadline : ∀ entry, entry ≠ number →
      (history.record operation before after timers.scheduler.now later).deadline entry = history.deadline entry := by
    intro entry apart
    refine History.record_deadline ?_ fun lifetime same => absurd same (other entry lifetime)
    rw [was,is,present]
    exact (em _).imp_right fun missing there => there.elim missing apart
  refine ⟨lives.follows.record was is ?_ bound grown,?_,?_,?_,?_,?_⟩
  · intro entry there
    exact ((present entry).mp there).imp_right fun same => same.ge
  · intro entry there
    by_cases same : entry = number
    · rw [same]
      unfold History.deadline
      rw [History.record_created_new ((was number).not.mpr absent) ((is number).mpr ((present number).mpr (Or.inr rfl))),
        History.record_extended fun lifetime same => absurd same (other number lifetime),
        (lives.follows.unborn number unmade).1]
      exact congrArg some (create_expiry timers id number).symm
    · rw [deadline entry same,lives.deadline entry (((present entry).mp there).resolve_right same)]
      exact congrArg some (Function.update_of_ne same _ _).symm
  · intro entry there
    by_cases same : entry = number
    · rw [same]
      exact ⟨_,Scheduler.mem_schedule.mpr (Or.inr rfl),rfl,Function.update_self ..,(create_expiry timers id number).symm⟩
    · obtain ⟨event,inside,called,handle,due⟩ := lives.timer entry (((present entry).mp there).resolve_right same)
      refine ⟨event,Scheduler.mem_schedule.mpr (Or.inl inside),called,?_,?_⟩
      · exact (Function.update_of_ne same _ _).trans handle
      · exact due.trans (Function.update_of_ne same _ _).symm
  · intro event inside
    rcases Scheduler.mem_schedule.mp inside with old | rfl
    · obtain ⟨there,handle⟩ := lives.pending event old
      refine ⟨(present _).mpr (Or.inl there),?_⟩
      exact (Function.update_of_ne (different _ there) _ _).trans handle
    · exact ⟨(present number).mpr (Or.inr rfl),Function.update_self ..⟩
  · intro event inside
    rcases Scheduler.mem_schedule.mp inside with old | rfl
    · exact lives.ahead event old
    · exact le_add_of_nonneg_right (by decide)
  · intro entry time gone
    have stays : before entry → after entry := fun there =>
      (is entry).mpr ((present entry).mpr (Or.inl ((was entry).mp there)))
    rw [History.record_removed stays] at gone
    have apart : entry ≠ number := by
      rintro rfl
      rw [(lives.follows.unborn entry unmade).2] at gone
      cases gone
    rw [deadline entry apart]
    exact lives.removed entry time gone

theorem Lives.extended {entry : Nat} {lifetime : Int} (lives : Lives timers history number)
    (was : ∀ entry, before entry ↔ timers.Present entry) (is : ∀ entry, after entry ↔ timers.Present entry)
    (bound : ∀ entry, timers.Present entry → entry < following) (grown : number ≤ following)
    (there : timers.Present entry) (longer : timers.expiry entry < timers.scheduler.now + lifetime) (later : Int) :
    Lives (timers.extend entry lifetime)
      (history.record (.extendLifetime entry lifetime) before after timers.scheduler.now later) following := by
  have stays : ∀ other, before other ↔ after other := fun other => (was other).trans (is other).symm
  have deadline : ∀ other, other ≠ entry → (history.record (.extendLifetime entry lifetime) before after
      timers.scheduler.now later).deadline other = history.deadline other := by
    intro other apart
    refine History.record_deadline ?_ ?_
    · rw [stays]
      exact em _
    · rintro _ ⟨rfl,rfl⟩
      exact absurd rfl apart
  -- the cancelled event was the only one of the entry
  have left : ∀ event ∈ timers.scheduler.pending, some event.id ≠ timers.cleanupEvent entry → event.callback ≠ entry := by
    rintro event inside kept rfl
    exact kept (lives.pending event inside).2.symm
  refine ⟨lives.follows.record was is (fun _ => Or.inl) bound grown,?_,?_,?_,?_,?_⟩
  · intro other present
    by_cases same : other = entry
    · rw [same,History.record_deadline_extended ((was entry).mpr there),lives.deadline entry there,Option.map_some,max_eq_right longer.le]
      exact congrArg some (extend_expiry timers entry lifetime).symm
    · rw [deadline other same,lives.deadline other present]
      exact congrArg some (Function.update_of_ne same _ _).symm
  · intro other present
    by_cases same : other = entry
    · rw [same]
      exact ⟨_,Scheduler.mem_schedule.mpr (Or.inr rfl),rfl,Function.update_self ..,(extend_expiry timers entry lifetime).symm⟩
    · obtain ⟨event,inside,rfl,handle,due⟩ := lives.timer other present
      have kept : some event.id ≠ timers.cleanupEvent entry := by
        intro equal
        obtain ⟨timer,pending,called,known,-⟩ := lives.timer entry there
        rw [← equal] at known
        cases Scheduler.eq_of_id inside pending (Option.some.inj known)
        exact same called
      refine ⟨event,Scheduler.mem_schedule.mpr (Or.inl (Scheduler.mem_cancel.mpr ⟨inside,kept⟩)),rfl,?_,?_⟩
      · exact (Function.update_of_ne same _ _).trans handle
      · exact due.trans (Function.update_of_ne same _ _).symm
  · intro event inside
    rcases Scheduler.mem_schedule.mp inside with old | rfl
    · obtain ⟨pending,kept⟩ := Scheduler.mem_cancel.mp old
      obtain ⟨present,handle⟩ := lives.pending event pending
      exact ⟨present,(Function.update_of_ne (left event pending kept) _ _).trans handle⟩
    · exact ⟨there,Function.update_self ..⟩
  · intro event inside
    rcases Scheduler.mem_schedule.mp inside with old | rfl
    · exact lives.ahead event (Scheduler.mem_cancel.mp old).1
    · exact (lives.now_le_expiry there).trans longer.le
  · intro other time gone
    rw [History.record_removed (stays other).mp] at gone
    have apart : other ≠ entry := by
      rintro rfl
      rw [((lives.follows.present other).mp there).2] at gone
      cases gone
    rw [deadline other apart]
    exact lives.removed other time gone

theorem Lives.cleaned {event : Scheduled Nat} {id : Option Nat} (lives : Lives timers history number)
    (was : ∀ entry, before entry ↔ timers.Present entry)
    (is : ∀ entry, after entry ↔ (timers.clean event id).Present entry)
    (bound : ∀ entry, (timers.clean event id).Present entry → entry < following) (grown : number ≤ following)
    (first : timers.scheduler.next = some event)
    (here : ∀ node, timers.measurementsEntry node = some event.callback ↔ id = some node) (now : Int) :
    Lives (timers.clean event id)
      (history.record .cleanup before after now (timers.clean event id).scheduler.now) following := by
  have inside := Scheduler.next_mem first
  have present := clean_present here
  have deadline : ∀ entry, (history.record .cleanup before after now (timers.clean event id).scheduler.now).deadline entry =
      history.deadline entry := by
    intro entry
    refine History.record_deadline ?_ nofun
    rw [was,is,present]
    exact (em _).imp_right fun missing there => missing there.1
  refine ⟨lives.follows.record was is ?_ bound grown,?_,?_,?_,?_,?_⟩
  · intro entry there
    exact Or.inl ((present entry).mp there).1
  · intro entry there
    rw [deadline]
    exact lives.deadline entry ((present entry).mp there).1
  · intro entry there
    obtain ⟨was,apart⟩ := (present entry).mp there
    obtain ⟨timer,pending,rfl,handle,due⟩ := lives.timer entry was
    refine ⟨timer,Scheduler.mem_fire.mpr ⟨pending,?_⟩,rfl,handle,due⟩
    intro same
    cases Scheduler.eq_of_id pending inside same
    exact apart rfl
  · intro other left
    obtain ⟨pending,apart⟩ := Scheduler.mem_fire.mp left
    obtain ⟨there,handle⟩ := lives.pending other pending
    refine ⟨(present _).mpr ⟨there,?_⟩,handle⟩
    intro same
    rw [same,(lives.pending event inside).2] at handle
    exact apart (Option.some.inj handle).symm
  · intro other left
    exact Scheduler.next_le first (Scheduler.mem_fire.mp left).1
  · intro entry time gone
    rw [deadline]
    by_cases same : entry = event.callback
    · have there := (lives.pending event inside).1
      have absent : ¬ after event.callback := by
        rw [is,present]
        exact fun stays => stays.2 rfl
      rw [same,History.record_removed_gone ((was _).mpr there) absent] at gone
      cases gone
      rw [same,lives.deadline _ there,← lives.due_eq_expiry inside]
      exact ⟨rfl,le_refl event.due⟩
    · have stays : before entry → after entry := fun there =>
        (is entry).mpr ((present entry).mpr ⟨(was entry).mp there,same⟩)
      rw [History.record_removed stays] at gone
      obtain ⟨known,early⟩ := lives.removed entry time gone
      exact ⟨known,early.trans (lives.ahead event inside)⟩

theorem Lives.advanced (lives : Lives timers history number) (time : Int) :
    Lives {timers with scheduler := timers.scheduler.advance time} history number := by
  have passed : timers.scheduler.now ≤ (timers.scheduler.advance time).now ∧
      ∀ event ∈ timers.scheduler.pending, (timers.scheduler.advance time).now ≤ event.due := by
    unfold Scheduler.advance
    split
    · rename_i allowed
      exact allowed
    · exact ⟨le_refl _,lives.ahead⟩
  have pending := timers.scheduler.advance_pending time
  refine ⟨lives.follows,lives.deadline,?_,?_,?_,?_⟩
  · intro entry there
    obtain ⟨event,inside,rest⟩ := lives.timer entry there
    exact ⟨event,pending ▸ inside,rest⟩
  · intro event inside
    exact lives.pending event (pending ▸ inside)
  · intro event inside
    exact passed.2 event (pending ▸ inside)
  · intro entry removal gone
    obtain ⟨known,early⟩ := lives.removed entry removal gone
    exact ⟨known,early.trans passed.1⟩

/-- Every way in which the timers change keeps the lifetimes. -/
theorem Lives.step {later : Timers} (lives : Lives timers history number)
    (change : timers.Changes number operation later) (was : ∀ entry, before entry ↔ timers.Present entry)
    (is : ∀ entry, after entry ↔ later.Present entry) (bound : ∀ entry, later.Present entry → entry < following)
    (grown : number ≤ following) :
    Lives later (history.record operation before after timers.scheduler.now later.scheduler.now) following := by
  cases change with
  | kept operation short => exact lives.kept was is bound grown short _
  | created operation id free other => exact lives.created was is bound grown free other _
  | extended entry lifetime present longer => exact lives.extended was is bound grown present longer _
  | cleaned event id next here => exact lives.cleaned was is bound grown next here _
  | advanced time =>
    have short : ∀ entry lifetime, Operation.advance time = .extendLifetime entry lifetime → timers.Present entry →
        timers.scheduler.now + lifetime ≤ timers.expiry entry := by
      intro entry lifetime same
      cases same
    exact (lives.kept was is bound grown short _).advanced time

end

end Timers

section
variable {hashComponent : Component → UInt64}
  {longestMatch : NameTree → Name → (NameTree.Entry → Bool) → Option Nat} {tables next : Tables} {operation : Operation}

/-- Numbers are given out upwards, and the entries are counted. -/
theorem step_counted (numbered : tables.view.Numbered) (counted : tables.view.Counted .measurements)
    (taken : tables.step hashComponent longestMatch operation = some next) :
    next.view.Numbered ∧ tables.nextNumber ≤ next.nextNumber ∧ next.view.Counted .measurements := by
  refine step_invariant
    (I := fun view => view.Numbered ∧ tables.nextNumber ≤ view.nextNumber ∧ view.Counted .measurements)
    (fun _ holds => holds.1) ?_ (fun _ _ _ _ => trivial) longestMatch ?_ ⟨numbered,le_refl _,counted⟩
    (tables.allows_true hashComponent operation) taken
  · rintro view after ⟨numbered,bound,counted⟩ move
    have shift := move.shifts numbered.linked
    refine ⟨numbered.shifts shift,?_,counted.shifts numbered shift⟩
    cases shift with
    | grown tree grows => exact bound
    | attached tree kind id interest entry grows stored takes => exact bound.trans (Nat.le_succ _)
    | detached kind number id held below => exact bound
  · rintro id ⟨name,-,-,free⟩
    have prunes := View.lost_prunes numbered.linked free
    refine ⟨numbered.of_prunes prunes rfl,le_refl _,?_⟩
    unfold View.Counted View.held
    rw [prunes.carried]
    exact counted

def observe (hashComponent : Component → UInt64) (longestMatch : NameTree → Name → (NameTree.Entry → Bool) → Option Nat)
    (state : Tables × History) (operation : Operation) : Option (Tables × History) :=
  (state.1.step hashComponent longestMatch operation).map fun next =>
    (next,state.2.record operation (fun entry => (state.1.measurementsNode entry).isSome)
      (fun entry => (next.measurementsNode entry).isSome) state.1.scheduler.now next.scheduler.now)

/-- An entry is there until its deadline and is removed then. While it is there it has one
pending cleanup event, and once it is gone its lifetime cannot be extended. -/
structure LivesToDeadline (tables : Tables) (history : History) : Prop where
  present : ∀ entry, tables.Present entry ↔ (history.created entry).isSome ∧ history.removed entry = none
  before : ∀ entry deadline, history.deadline entry = some deadline → tables.scheduler.now < deadline → tables.Present entry
  after : ∀ entry deadline, history.deadline entry = some deadline → deadline < tables.scheduler.now → ¬ tables.Present entry
  removed : ∀ entry time, history.removed entry = some time → history.deadline entry = some time
  event : ∀ entry, tables.Present entry → ∃ event ∈ tables.scheduler.pending, event.callback = entry ∧
    tables.cleanupEvent entry = some event.id ∧ history.deadline entry = some event.due ∧
    ∀ other ∈ tables.scheduler.pending, other.callback = entry → other = event
  dangling : ∀ event ∈ tables.scheduler.pending, tables.Present event.callback
  size : tables.measurementsNItems = {entry | tables.Present entry}.ncard
  gone : ∀ entry lifetime, ¬ tables.Present entry → tables.extendLifetime entry lifetime = tables

private theorem livesToDeadline {history : History} (numbered : tables.view.Numbered) (counted : tables.view.Counted .measurements)
    (lives : tables.timers.Lives history tables.nextNumber) : tables.LivesToDeadline history := by
  have present := present_iff numbered
  refine ⟨?_,?_,?_,?_,?_,?_,?_,?_⟩
  · intro entry
    rw [present]
    exact lives.follows.present entry
  · intro entry deadline known early
    rw [present,lives.follows.present]
    obtain ⟨time,made,-⟩ := Option.map_eq_some_iff.mp known
    refine ⟨Option.isSome_of_eq_some made,?_⟩
    rw [Option.eq_none_iff_forall_ne_some]
    intro removal gone
    obtain ⟨same,past⟩ := lives.removed entry removal gone
    rw [known] at same
    cases same
    exact absurd early (not_lt.mpr past)
  · intro entry deadline known late there
    have same := lives.deadline entry ((present entry).mp there)
    rw [known] at same
    cases same
    exact absurd late (not_lt.mpr (lives.now_le_expiry ((present entry).mp there)))
  · intro entry time gone
    exact (lives.removed entry time gone).1
  · intro entry there
    obtain ⟨event,inside,called,handle,due⟩ := lives.timer entry ((present entry).mp there)
    refine ⟨event,inside,called,handle,?_,?_⟩
    · rw [due]
      exact lives.deadline entry ((present entry).mp there)
    · rintro other pending rfl
      have known := (lives.pending other pending).2
      rw [show tables.timers.cleanupEvent other.callback = _ from handle] at known
      exact Scheduler.eq_of_id pending inside (Option.some.inj known).symm
  · intro event inside
    exact (present _).mpr (lives.pending event inside).1
  · refine counted.trans ((numbered.ncard_held .measurements).trans ?_)
    congr 1
    ext entry
    exact (exists_congr fun id => Option.mem_toList).trans (present entry).symm
  · intro entry lifetime absent
    unfold extendLifetime
    rw [Option.not_isSome_iff_eq_none.mp absent]

end

section
variable (hashComponent : Component → UInt64) (longestMatch : NameTree → Name → (NameTree.Entry → Bool) → Option Nat)

private theorem new_lives (nBuckets : Nat) (now : Int) (defaultStrategy : Strategy) :
    (new hashComponent nBuckets now defaultStrategy).timers.Lives .initial 1 := by
  have bare : ∀ entry, ¬ (new hashComponent nBuckets now defaultStrategy).timers.Present entry := by
    rintro entry ⟨id,held⟩
    have other : Kind.strategyChoice ≠ .measurements := nofun
    have linked : (NameTree.initial nBuckets).Linked := (View.initial_numbered nBuckets).linked
    have none : ((NameTree.initial nBuckets).carried id).measurementsEntry = none := rfl
    rw [← (lookup_grows hashComponent linked []).1.carried,← attach_measurementsEntry _ 0 0 other id] at none
    cases none.symm.trans held
  refine ⟨⟨nofun,fun _ _ => ⟨rfl,rfl⟩,?_⟩,?_,?_,nofun,nofun,nofun⟩
  · intro entry
    exact iff_of_false (bare entry) nofun
  · intro entry there
    exact absurd there (bare entry)
  · intro entry there
    exact absurd there (bare entry)

private theorem along_livesToDeadline (nBuckets : Nat) (now : Int) (defaultStrategy : Strategy)
    (operations : List Operation) :
    Along (attempt (observe hashComponent longestMatch))
      (fun state => ∀ tables history, state = some (tables,history) → tables.LivesToDeadline history)
      (some (new hashComponent nBuckets now defaultStrategy,.initial)) operations := by
  rintro before - tables history reached
  have kept : tables.view.Numbered ∧ tables.view.Counted .measurements ∧ tables.timers.Lives history tables.nextNumber := by
    refine attempt_invariant (P := fun state : Tables × History => state.1.view.Numbered ∧
      state.1.view.Counted .measurements ∧ state.1.timers.Lives state.2 state.1.nextNumber) ?_ ?_ reached
    · rintro ⟨tables,history⟩ operation _ ⟨numbered,counted,lives⟩ taken
      obtain ⟨next,stepped,rfl⟩ := Option.map_eq_some_iff.mp taken
      obtain ⟨later,grown,exact⟩ := step_counted numbered counted stepped
      refine ⟨later,exact,lives.step (step_changes longestMatch numbered stepped) (present_iff numbered)
        (present_iff later) ?_ grown⟩
      rintro entry ⟨id,held⟩
      exact later.given .measurements id entry (Option.mem_toList.mpr held)
    · exact ⟨new_numbered hashComponent nBuckets now defaultStrategy,
        new_counted hashComponent nBuckets now defaultStrategy .measurements,
        new_lives hashComponent nBuckets now defaultStrategy⟩
  exact livesToDeadline kept.1 kept.2.1 kept.2.2

private theorem run_observe (tables : Tables) (history : History) (operations : List Operation) :
    (run (attempt (observe hashComponent longestMatch)) (some (tables,history)) operations).map Prod.fst =
      run (attempt (step hashComponent longestMatch)) (some tables) operations := by
  induction operations generalizing tables history with
  | nil => rfl
  | cons operation operations ih =>
    rw [run_cons,run_cons]
    change (run _ (observe hashComponent longestMatch (tables,history) operation) _).map Prod.fst =
      run _ (tables.step hashComponent longestMatch operation) _
    unfold observe
    cases tables.step hashComponent longestMatch operation with
    | none => rw [Option.map_none,run_attempt_none,run_attempt_none,Option.map_none]
    | some next => exact ih next _

/-- In every state of every run with safe resizes of the tables that share the name tree the entries live
to their deadlines, and no search meets a deleted entry. -/
theorem measurements_live_to_deadline (nBuckets : Nat) (positive : 0 < nBuckets) (now : Int) (defaultStrategy : Strategy)
    (operations : List Operation)
    (safe : RunsSafely hashComponent longestMatch (new hashComponent nBuckets now defaultStrategy) operations) :
    Along (attempt (observe hashComponent longestMatch))
      (fun state => ∀ tables history, state = some (tables,history) → tables.LivesToDeadline history ∧ tables.ChainsStored)
      (some (new hashComponent nBuckets now defaultStrategy,.initial)) operations := by
  intro before inside tables history reached
  have there : run (attempt (step hashComponent longestMatch)) (some (new hashComponent nBuckets now defaultStrategy)) before =
      some tables := by
    rw [← run_observe hashComponent longestMatch _ .initial,reached]
    rfl
  exact ⟨along_livesToDeadline hashComponent longestMatch nBuckets now defaultStrategy operations before inside tables
      history reached,(safe.settled positive before inside tables there).chainsStored⟩

end

/-- The measurements of `/A` are made, kept longer and cleaned up. -/
theorem measurements_live_to_deadline_extended :
    Along (attempt (observe CityHash.cityHash64 fun tree => tree.findLongestPrefixMatch CityHash.cityHash64))
      (fun state => ∀ tables history, state = some (tables,history) → tables.LivesToDeadline history ∧ tables.ChainsStored)
      (some (new CityHash.cityHash64 16 0 ⟨[[8,1,0x53]],0⟩,.initial))
      [.measurementsGet [[8,1,0x41]],.extendLifetime 1 6000000000,.cleanup] :=
  measurements_live_to_deadline CityHash.cityHash64 _ 16 (by decide) 0 ⟨[[8,1,0x53]],0⟩ _ (by decide +kernel)

/-- The resize puts the node of `/A` where its hash does not belong, so that the cleanup deletes it and
leaves it in its chain, and what is looked up in that bucket next meets it. -/
theorem cleanup_leaves_freed_node :
    ¬ Along (attempt (observe CityHash.cityHash64 fun tree => tree.findLongestPrefixMatch CityHash.cityHash64))
      (fun state => ∀ tables history, state = some (tables,history) → tables.LivesToDeadline history ∧ tables.ChainsStored)
      (some (new CityHash.cityHash64 3 0 ⟨[[8,1,0x53]],0⟩,.initial))
      [.measurementsGet [[8,1,0x41]],.cleanup,.measurementsGet [[8,1,0x49]]] := by
  intro always
  have reached : ∃ tables history, run (attempt (observe CityHash.cityHash64 fun tree => tree.findLongestPrefixMatch
      CityHash.cityHash64)) (some (new CityHash.cityHash64 3 0 ⟨[[8,1,0x53]],0⟩,.initial))
      [.measurementsGet [[8,1,0x41]],.cleanup] = some (tables,history) ∧ ¬ tables.ChainsStored :=
    ⟨_,_,rfl,by decide +kernel⟩
  obtain ⟨tables,history,there,freed⟩ := reached
  exact freed (always _ (by simp) tables history there).2

/-- A later and shorter extension changes nothing. -/
example : (run (attempt (observe CityHash.cityHash64 fun _ _ _ => none))
      (some (new CityHash.cityHash64 16 0 ⟨[[8,1,0x53]],0⟩,.initial))
      [.measurementsGet [[8,1,0x41]],.extendLifetime 1 6000000000,.extendLifetime 1 5000000000,.cleanup]).map
      (fun state => (state.2.deadline 1,state.2.removed 1)) = some (some 6000000000,some 6000000000) := by
  decide +kernel

end Ncfcc.Nfd.Table.Tables
