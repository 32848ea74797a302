import Ncfcc.Nfd.Fw.NccStrategy

/-! The timers that propagate Interests in the NCC strategy. There is one for a PIT entry, and
it is the one stored, as long as an Interest that is forwarded afresh finds no pending one. -/
namespace Ncfcc.Nfd.Fw
open Ncfcc.Library Ncfcc.Nfd.Table
open Ncfcc.Cs (FreshData Time)

namespace Forwarder

structure Ages (before after : Forwarder) : Prop where
  length : before.entries.length ≤ after.entries.length
  inPit : ∀ entry < before.entries.length, after.entries[entry]?.any PitEntry.inPit →
    before.entries[entry]?.any PitEntry.inPit

section
variable {satisfied : Nat → Prop} {before middle after : Forwarder}

theorem Ages.refl (forwarder : Forwarder) : forwarder.Ages forwarder := ⟨Nat.le_refl _,fun _ _ => id⟩

theorem Ages.of_entries (same : after.entries = before.entries) : before.Ages after := by
  refine ⟨same ▸ Nat.le_refl _,?_⟩
  rw [same]
  exact fun _ _ => id

theorem Ages.trans (first : before.Ages middle) (second : middle.Ages after) : before.Ages after :=
  ⟨first.length.trans second.length,fun entry inside alive =>
    first.inPit entry inside (second.inPit entry (inside.trans_le first.length) alive)⟩

private theorem modify_ages (forwarder : Forwarder) (entry : Nat) {change : PitEntry → PitEntry}
    (kept : ∀ found, (change found).inPit = true → found.inPit = true) : forwarder.Ages (forwarder.modify entry change) := by
  refine ⟨(List.length_modify ..).ge,?_⟩
  intro other _ alive
  by_cases same : other = entry
  · rw [same,modify_same,Option.any_map] at alive
    obtain ⟨found,there,still⟩ := (Option.any_eq_true _ _).mp alive
    rw [same,there]
    exact kept found still
  · rw [modify_other same] at alive
    exact alive

theorem Change.ages (change : Change satisfied before after) : before.Ages after := by
  cases change with
  | surroundings now faceTable deadNonceList => exact Ages.of_entries rfl
  | timers entry change keeps => exact modify_ages before entry keeps.inPit
  | pitInsert interest free =>
    refine ⟨by simp,?_⟩
    intro entry inside alive
    change (before.entries ++ [.new interest])[entry]?.any PitEntry.inPit = true at alive
    rw [List.getElem?_append_left inside] at alive
    exact alive
  | inRecord entry inFace interest found there name selectors => exact modify_ages before entry fun _ => id
  | sendInterest entry outFace interest found picked there scope member name selectors =>
    have kept : ∀ old, (PitEntry.insertOrUpdateOutRecord outFace interest before.now old).inPit = true → old.inPit = true :=
      fun _ => id
    exact (modify_ages before entry kept).trans (Ages.of_entries rfl)
  | sendData outFace data scope => exact Ages.of_entries rfl
  | csInsert data isUnsolicited => exact Ages.of_entries rfl
  | satisfy entry inFace allowed => exact modify_ages before entry fun _ => id

theorem Changes.ages (changes : Changes satisfied before after) : before.Ages after := by
  refine changes.invariant (P := before.Ages) ?_ (Ages.refl before)
  intro first second ages change
  exact ages.trans change.ages

theorem entryForStrategy_entry {inFace : Face} {interest : Interest} {cached : Option FreshData} {entry : Nat}
    (reached : before.entryForStrategy inFace interest cached = some entry)
    (received : before.onIncomingInterest inFace interest cached (fun _ => []) = some after) :
    after.now = before.now ∧ after.faceTable = before.faceTable ∧ ∃ found, after.entries[entry]? = some found ∧
      ∀ old, before.entries[entry]? = some old → found.outRecords = old.outRecords := by
  unfold entryForStrategy at reached
  cases scope : violatesLocalhost inFace interest.name with
  | true =>
    rw [scope] at reached
    cases reached
  | false =>
    obtain ⟨place,inserted,made,stays,clock,faces⟩ : ∃ place inserted, before.pitInsert interest = (place,inserted) ∧
        (∀ old, before.entries[place]? = some old → inserted.entries[place]? = some old) ∧
        inserted.now = before.now ∧ inserted.faceTable = before.faceTable := by
      rcases pitInsert_cases interest before with ⟨place,found,there,-,made⟩ | ⟨-,made⟩
      · exact ⟨place,before,made,fun _ => id,rfl,rfl⟩
      · refine ⟨_,_,made,?_,rfl,rfl⟩
        intro old there
        rw [List.getElem?_eq_none (Nat.le_refl _)] at there
        cases there
    rw [scope,made] at reached
    obtain ⟨found,there,rest⟩ := Option.bind_eq_some_iff.mp reached
    rw [onIncomingInterest_eq cached _ scope made there] at received
    split at rest
    · cases rest
    · rename_i single
      rw [if_neg single] at received
      split at rest
      · cases rest
      · rename_i missed
        cases rest
        have miss : (inserted.cancelUnsatisfyAndStragglerTimer entry).onContentStoreMiss inFace entry interest (fun _ => []) =
            some after := by
          unfold proceed at received
          split at received
          · rename_i empty
            cases cached with
            | none => exact received
            | some data =>
              rw [empty] at missed
              exact absurd rfl missed
          · exact received
        obtain ⟨waiting,set,dispatched⟩ := Option.bind_eq_some_iff.mp miss
        cases dispatched
        obtain ⟨recorded,here,later⟩ := Option.bind_eq_some_iff.mp set
        obtain ⟨last,-,same⟩ := Option.bind_eq_some_iff.mp later
        cases same
        have whole : ∃ changed, recorded = changed ∧ changed.outRecords = found.outRecords := by
          unfold cancelUnsatisfyAndStragglerTimer at here
          rw [modify_same,modify_same,there] at here
          cases here
          exact ⟨_,rfl,rfl⟩
        obtain ⟨_,rfl,kept⟩ := whole
        refine ⟨clock,faces,{ recorded with unsatisfyTimer := some last.expiry },?_,?_⟩
        · rw [modify_same,here]
          rfl
        · intro old was
          rw [stays old was] at there
          cases there
          exact kept

end

end Forwarder

namespace NccForwarder

section
variable (state : NccForwarder) (entry : Nat)

def Alive : Prop := state.forwarder.entries[entry]?.any PitEntry.inPit

def Propagates (event : Scheduled NccTimer) : Prop := ∃ fibEntry, event.callback = .doPropagate entry fibEntry

def Quiet : Prop := ∀ event ∈ state.scheduler.pending, ¬ Propagates entry event

/-- A PIT entry has at most one pending event to propagate its Interest, which is the one
stored, and whose assertion holds when it runs. -/
structure OneTimer : Prop where
  stored : ∀ entry, state.Alive entry → ∀ event ∈ state.scheduler.pending, Propagates entry event →
    ∃ info, state.pitEntryInfo entry = some info ∧ info.propagateTimer = some event.id
  one : ∀ entry, state.Alive entry → ∀ first ∈ state.scheduler.pending, ∀ second ∈ state.scheduler.pending,
    Propagates entry first → Propagates entry second → first = second
  asserted : ∀ entry event, state.Alive entry → state.scheduler.next = some event → Propagates entry event →
    (state.pitEntryInfo entry).isSome

/-- An Interest that the strategy forwards afresh finds no pending event. -/
def ForwardsQuietly : Event → Prop
  | .incomingInterest inFace interest cached fibEntry _ =>
    ∀ entry, state.forwarder.entryForStrategy inFace interest cached = some entry → state.getNextHops fibEntry ≠ [] →
      (∀ found, state.forwarder.entries[entry]? = some found → ¬ found.hasUnexpiredOutRecords state.forwarder.now) →
      state.Quiet entry
  | _ => True

structure Stored : Prop where
  made : ∀ entry, ∀ event ∈ state.scheduler.pending, Propagates entry event → entry < state.forwarder.entries.length
  stored : ∀ entry, state.Alive entry → ∀ event ∈ state.scheduler.pending, Propagates entry event →
    ∃ info, state.pitEntryInfo entry = some info ∧ info.propagateTimer = some event.id

structure Ready : Prop where
  stored : state.Stored
  quiet : state.Quiet entry
  info : (state.pitEntryInfo entry).isSome
  made : entry < state.forwarder.entries.length

end

section
variable {state next : NccForwarder} {entry : Nat}

theorem Stored.oneTimer (stored : state.Stored) : state.OneTimer := by
  refine ⟨stored.stored,?_,?_⟩
  · intro entry alive first inside second there propagates also
    obtain ⟨info,known,handle⟩ := stored.stored entry alive first inside propagates
    obtain ⟨same,again,other⟩ := stored.stored entry alive second there also
    cases known.symm.trans again
    exact Scheduler.eq_of_id inside there (Option.some.inj (handle.symm.trans other))
  · intro entry event alive due propagates
    obtain ⟨info,known,-⟩ := stored.stored entry alive event (Scheduler.next_mem due) propagates
    exact Option.isSome_of_eq_some known

/-- Nothing but events that propagate matters, and of these the ones stored. -/
theorem Stored.less (stored : state.Stored) (ages : state.forwarder.Ages next.forwarder)
    (pending : ∀ entry, ∀ event ∈ next.scheduler.pending, Propagates entry event → event ∈ state.scheduler.pending)
    (kept : ∀ entry, ∀ event ∈ next.scheduler.pending, ∀ info, state.pitEntryInfo entry = some info →
      info.propagateTimer = some event.id →
      ∃ later, next.pitEntryInfo entry = some later ∧ later.propagateTimer = some event.id) : next.Stored := by
  constructor
  · intro entry event inside propagates
    exact (stored.made entry event (pending entry event inside propagates) propagates).trans_le ages.length
  · intro entry alive event inside propagates
    have before := pending entry event inside propagates
    have made := stored.made entry event before propagates
    obtain ⟨info,known,handle⟩ := stored.stored entry (ages.inPit entry made alive) event before propagates
    exact kept entry event inside info known handle

theorem Stored.of_forwarder (stored : state.Stored) {forwarder : Forwarder} (ages : state.forwarder.Ages forwarder) :
    ({state with forwarder} : NccForwarder).Stored :=
  stored.less ages (fun _ _ inside _ => inside) fun _ _ _ info known handle => ⟨info,known,handle⟩

theorem Ready.of_forwarder (ready : state.Ready entry) {forwarder : Forwarder} (ages : state.forwarder.Ages forwarder) :
    ({state with forwarder} : NccForwarder).Ready entry :=
  ⟨ready.stored.of_forwarder ages,ready.quiet,ready.info,ready.made.trans_le ages.length⟩

theorem sendInterest_forwarder {face : Face} (sent : state.sendInterest entry face = some next) :
    ∃ forwarder, state.forwarder.Ages forwarder ∧ next = {state with forwarder} := by
  obtain ⟨forwarder,made,rfl⟩ := Option.map_eq_some_iff.mp sent
  have changes : Forwarder.Changes (fun _ => True) state.forwarder forwarder := Forwarder.onOutgoingInterest_changes made
  exact ⟨forwarder,changes.ages,rfl⟩

theorem Ready.sendInterest {face : Face} (ready : state.Ready entry) (sent : state.sendInterest entry face = some next) :
    next.Ready entry := by
  obtain ⟨forwarder,ages,rfl⟩ := sendInterest_forwarder sent
  exact ready.of_forwarder ages

theorem Stored.getOrCreatePitEntryInfo (stored : state.Stored) (entry : Nat) :
    (state.getOrCreatePitEntryInfo entry).Stored := by
  refine stored.less (Forwarder.Ages.refl _) (fun _ _ inside _ => inside) ?_
  intro other event inside info known handle
  refine ⟨info,?_,handle⟩
  change Function.update state.pitEntryInfo entry _ other = some info
  by_cases same : other = entry
  · rw [same] at known ⊢
    rw [Function.update_self,known]
    rfl
  · rw [Function.update_of_ne same]
    exact known

private theorem modifyInfo_kept {change : PitEntryInfo → PitEntryInfo} (kept : ∀ info, (change info).propagateTimer = info.propagateTimer)
    {other : Nat} {handle : Option Nat} {info : PitEntryInfo} (known : state.pitEntryInfo other = some info)
    (timer : info.propagateTimer = handle) : ∃ later, (state.modifyInfo entry change).pitEntryInfo other = some later ∧
      later.propagateTimer = handle := by
  change ∃ later, Function.update state.pitEntryInfo entry _ other = some later ∧ _
  by_cases same : other = entry
  · rw [same] at known ⊢
    rw [Function.update_self,known]
    exact ⟨change info,rfl,(kept info).trans timer⟩
  · rw [Function.update_of_ne same]
    exact ⟨info,known,timer⟩

theorem modifyInfo_isSome {change : PitEntryInfo → PitEntryInfo} (there : (state.pitEntryInfo entry).isSome) :
    ((state.modifyInfo entry change).pitEntryInfo entry).isSome := by
  change (Function.update state.pitEntryInfo entry _ entry).isSome
  rw [Function.update_self,Option.isSome_map]
  exact there

theorem Ready.modifyInfo {change : PitEntryInfo → PitEntryInfo} (ready : state.Ready entry)
    (kept : ∀ info, (change info).propagateTimer = info.propagateTimer) : (state.modifyInfo entry change).Ready entry := by
  refine ⟨?_,ready.quiet,modifyInfo_isSome ready.info,ready.made⟩
  refine ready.stored.less (Forwarder.Ages.refl _) (fun _ _ inside _ => inside) ?_
  intro other event inside info known handle
  exact modifyInfo_kept kept known handle

theorem Ready.setBestFaceTimeout (ready : state.Ready entry) (after : Int) :
    (state.setBestFaceTimeout entry after).Ready entry := by
  have old : ∀ other, ∀ event ∈ (state.setBestFaceTimeout entry after).scheduler.pending, Propagates other event →
      event ∈ state.scheduler.pending := by
    rintro other event inside ⟨fibEntry,called⟩
    rcases Scheduler.mem_schedule.mp inside with before | rfl
    · exact before
    · cases called
  refine ⟨?_,?_,modifyInfo_isSome ready.info,ready.made⟩
  · refine ready.stored.less (Forwarder.Ages.refl _) old ?_
    intro other event inside info known handle
    have same : ∀ info : PitEntryInfo,
        ({info with bestFaceTimeout := some state.scheduler.nextId} : PitEntryInfo).propagateTimer = info.propagateTimer :=
      fun _ => rfl
    exact modifyInfo_kept same known handle
  · intro event inside propagates
    exact ready.quiet event (old entry event inside propagates) propagates

/-- The new event is stored, and is the only one of the entry. -/
theorem Ready.setPropagateTimer (ready : state.Ready entry) (fibEntry : Nat) (after : Int) :
    (state.setPropagateTimer entry fibEntry after).Stored := by
  obtain ⟨info,there⟩ := Option.isSome_iff_exists.mp ready.info
  constructor
  · rintro other event inside ⟨fib,called⟩
    rcases Scheduler.mem_schedule.mp inside with before | rfl
    · exact ready.stored.made other event before ⟨fib,called⟩
    · cases called
      exact ready.made
  · rintro other alive event inside ⟨fib,called⟩
    change ∃ later, Function.update state.pitEntryInfo entry _ other = some later ∧ _
    rcases Scheduler.mem_schedule.mp inside with before | rfl
    · have apart : other ≠ entry := by
        rintro rfl
        exact ready.quiet event before ⟨fib,called⟩
      rw [Function.update_of_ne apart]
      exact ready.stored.stored other alive event before ⟨fib,called⟩
    · cases called
      rw [Function.update_self,there]
      exact ⟨_,rfl,rfl⟩

/-- Changed information whose timer is cancelled is not that of a pending event. -/
theorem cancelled_kept {other number : Nat} {info found : PitEntryInfo} {after : Option PitEntryInfo}
    (there : state.pitEntryInfo entry = some info) (left : some number ≠ info.propagateTimer)
    (known : state.pitEntryInfo other = some found) (handle : found.propagateTimer = some number) :
    ∃ later, Function.update state.pitEntryInfo entry after other = some later ∧ later.propagateTimer = some number := by
  have apart : other ≠ entry := by
    rintro rfl
    cases there.symm.trans known
    exact left handle.symm
  exact ⟨found,(Function.update_of_ne apart _ _).trans known,handle⟩

theorem Stored.destroyInfo (stored : state.Stored) (entry : Nat) : (state.destroyInfo entry).Stored := by
  unfold NccForwarder.destroyInfo
  cases there : state.pitEntryInfo entry with
  | none => exact stored
  | some info =>
    refine stored.less (Forwarder.Ages.refl _) ?_ ?_
    · intro other event inside _
      exact (Scheduler.mem_cancel.mp (Scheduler.mem_cancel.mp inside).1).1
    · intro other event inside found known handle
      exact cancelled_kept there (Scheduler.mem_cancel.mp inside).2 known handle

theorem Stored.beforeSatisfyInterest (stored : state.Stored) (entry : Nat) (inNamespace : Name → Bool) :
    (state.beforeSatisfyInterest entry inNamespace).Stored := by
  unfold NccForwarder.beforeSatisfyInterest
  split
  · exact stored
  · split
    · exact stored
    · cases there : state.pitEntryInfo entry with
      | none => exact stored
      | some info =>
        refine stored.less (Forwarder.Ages.refl _) ?_ ?_
        · intro other event inside _
          exact (Scheduler.mem_cancel.mp inside).1
        · intro other event inside found known handle
          exact cancelled_kept there (Scheduler.mem_cancel.mp inside).2 known handle

theorem beforeSatisfyInterest_forwarder (state : NccForwarder) (entry : Nat) (inNamespace : Name → Bool) :
    (state.beforeSatisfyInterest entry inNamespace).forwarder = state.forwarder := by
  unfold NccForwarder.beforeSatisfyInterest
  split
  · rfl
  · split
    · rfl
    · split <;> rfl

theorem Ready.sendToFirst {nexthops : List Face} {measured : MeasurementsEntryInfo} {deferFirst deferRange : Int}
    {nUpstreams : UInt64} (ready : state.Ready entry)
    (sent : state.sendToFirst entry nexthops measured = some (deferFirst,deferRange,nUpstreams,next)) : next.Ready entry := by
  unfold NccForwarder.sendToFirst at sent
  split at sent
  · obtain ⟨told,first,same⟩ := Option.map_eq_some_iff.mp sent
    cases same
    exact (ready.sendInterest first).setBestFaceTimeout _
  · split at sent
    · obtain ⟨told,first,same⟩ := Option.map_eq_some_iff.mp sent
      cases same
      exact ready.sendInterest first
    · cases sent
      exact ready

theorem Stored.afterReceiveInterest {fibEntry : Nat} {measured : MeasurementsEntryInfo} (stored : state.Stored)
    (quiet : state.getNextHops fibEntry ≠ [] → ∀ found, state.forwarder.entries[entry]? = some found →
      ¬ found.hasUnexpiredOutRecords state.forwarder.now → state.Quiet entry)
    (received : state.afterReceiveInterest entry fibEntry measured = some next) : next.Stored := by
  unfold NccForwarder.afterReceiveInterest at received
  dsimp only at received
  split at received
  · obtain ⟨forwarder,rejected,same⟩ := Option.bind_eq_some_iff.mp received
    cases same
    have changes : Forwarder.Changes (fun _ => True) state.forwarder forwarder := Forwarder.onInterestReject_changes rejected
    exact stored.of_forwarder changes.ages
  · rename_i some
    obtain ⟨found,there,rest⟩ := Option.bind_eq_some_iff.mp received
    have created := stored.getOrCreatePitEntryInfo entry
    split at rest
    · cases rest
      exact created
    · rename_i expired
      obtain ⟨⟨deferFirst,deferRange,nUpstreams,told⟩,sent,last⟩ := Option.bind_eq_some_iff.mp rest
      cases last
      have nonempty : state.getNextHops fibEntry ≠ [] := fun empty => some (List.isEmpty_iff.mpr empty)
      have inside : entry < state.forwarder.entries.length := (List.getElem?_eq_some_iff.mp there).1
      have info : ((state.getOrCreatePitEntryInfo entry).pitEntryInfo entry).isSome := by
        change (Function.update state.pitEntryInfo entry _ entry).isSome
        rw [Function.update_self]
        rfl
      have ready : (state.getOrCreatePitEntryInfo entry).Ready entry :=
        ⟨created,quiet nonempty found there expired,info,inside⟩
      refine Ready.setPropagateTimer (Ready.modifyInfo (ready.sendToFirst sent) ?_) fibEntry _
      exact fun _ => rfl

theorem Ready.propagate {fibEntry : Nat} {nexthops : List Face} {measured : MeasurementsEntryInfo} {draw : Int}
    (ready : state.Ready entry) (propagated : state.propagate entry fibEntry nexthops measured draw = some next) :
    next.Stored := by
  unfold NccForwarder.propagate at propagated
  obtain ⟨info,-,rest⟩ := Option.bind_eq_some_iff.mp propagated
  obtain ⟨told,previous,later⟩ := Option.bind_eq_some_iff.mp rest
  have again : told.Ready entry := by
    unfold sendToPrevious at previous
    split at previous
    · exact ready.sendInterest previous
    · cases previous
      exact ready
  unfold sendToNext at later
  split at later
  · obtain ⟨sent,forwarded,rfl⟩ := Option.map_eq_some_iff.mp later
    exact (again.sendInterest forwarded).setPropagateTimer fibEntry _
  · cases later
    exact again.stored

/-- With the event that runs, the entry has none left. -/
theorem Stored.doPropagate {event : Scheduled NccTimer} {fibEntry : Nat} {measured : MeasurementsEntryInfo} {draw : Int}
    (stored : state.Stored) (first : state.scheduler.next = some event) (called : event.callback = .doPropagate entry fibEntry)
    (ran : state.onTimer event measured draw = some next) : next.Stored := by
  have inside := Scheduler.next_mem first
  have fired : ({state with scheduler := state.scheduler.fire event,forwarder := {state.forwarder with now := event.due}} :
      NccForwarder).Stored := by
    refine stored.less (Forwarder.Ages.of_entries rfl) ?_ ?_
    · intro other later there _
      exact (Scheduler.mem_fire.mp there).1
    · exact fun _ _ _ info known handle => ⟨info,known,handle⟩
  unfold onTimer at ran
  rw [called] at ran
  dsimp only at ran
  unfold NccForwarder.doPropagate at ran
  split at ran
  · rename_i alive
    split at ran
    · cases ran
      exact fired
    · refine Ready.propagate ⟨fired,?_,?_,stored.made entry event inside ⟨fibEntry,called⟩⟩ ran
      · intro other left propagates
        obtain ⟨pending,apart⟩ := Scheduler.mem_fire.mp left
        exact apart (congrArg Scheduled.id
          (stored.oneTimer.one entry alive other pending event inside propagates ⟨fibEntry,called⟩))
      · obtain ⟨info,known,-⟩ := stored.stored entry alive event inside ⟨fibEntry,called⟩
        exact Option.isSome_of_eq_some known
  · cases ran
    exact fired

theorem Stored.onTimer {event : Scheduled NccTimer} {measured : MeasurementsEntryInfo} {draw : Int} (stored : state.Stored)
    (first : state.scheduler.next = some event) (ran : state.onTimer event measured draw = some next) : next.Stored := by
  cases called : event.callback with
  | doPropagate entry fibEntry => exact stored.doPropagate first called ran
  | timeoutOnBestFace entry =>
    unfold NccForwarder.onTimer at ran
    rw [called] at ran
    cases ran
    refine stored.less (Forwarder.Ages.of_entries rfl) ?_ ?_
    · intro other later there _
      exact (Scheduler.mem_fire.mp there).1
    · exact fun _ _ _ info known handle => ⟨info,known,handle⟩

theorem Stored.onIncomingInterest {inFace : Face} {interest : Interest} {cached : Option FreshData} {fibEntry : Nat}
    {measured : MeasurementsEntryInfo} (stored : state.Stored)
    (quiet : state.ForwardsQuietly (.incomingInterest inFace interest cached fibEntry measured))
    (received : state.onIncomingInterest inFace interest cached fibEntry measured = some next) : next.Stored := by
  unfold NccForwarder.onIncomingInterest at received
  obtain ⟨forwarder,piped,rest⟩ := Option.bind_eq_some_iff.mp received
  have changes : Forwarder.Changes (fun _ => True) state.forwarder forwarder := Forwarder.onIncomingInterest_changes piped
  have aged := stored.of_forwarder changes.ages
  cases reached : state.forwarder.entryForStrategy inFace interest cached with
  | none =>
    rw [reached] at rest
    cases rest
    exact aged
  | some entry =>
    rw [reached] at rest
    refine aged.afterReceiveInterest ?_ rest
    intro nonempty found there expired
    obtain ⟨clock,-,same,here,kept⟩ := Forwarder.entryForStrategy_entry reached piped
    refine quiet entry reached nonempty ?_
    intro old was
    cases here.symm.trans there
    unfold PitEntry.hasUnexpiredOutRecords at expired ⊢
    rw [← kept old was,← clock]
    exact expired

theorem Stored.tell (stored : state.Stored) (entries : List Nat) (inNamespace : Name → Bool) :
    (entries.foldl (fun state entry => state.beforeSatisfyInterest entry inNamespace) state).Stored ∧
      (entries.foldl (fun state entry => state.beforeSatisfyInterest entry inNamespace) state).forwarder = state.forwarder := by
  induction entries generalizing state with
  | nil => exact ⟨stored,rfl⟩
  | cons entry rest ih =>
    obtain ⟨told,same⟩ := ih (stored.beforeSatisfyInterest entry inNamespace)
    exact ⟨told,same.trans (beforeSatisfyInterest_forwarder state entry inNamespace)⟩

theorem Stored.destroyAll (stored : state.Stored) (entries : List Nat) :
    (entries.foldl (fun state entry => state.destroyInfo entry) state).Stored := by
  induction entries generalizing state with
  | nil => exact stored
  | cons entry rest ih => exact ih (stored.destroyInfo entry)

theorem Stored.onIncomingData {matchesData : Interest → FreshData → Bool} {inFace : Face} {data : FreshData}
    {toNcc : Nat → Bool} {inNamespace : Name → Bool} {strategy : Strategy} (stored : state.Stored)
    (received : state.onIncomingData matchesData inFace data toNcc inNamespace strategy = some next) : next.Stored := by
  unfold NccForwarder.onIncomingData at received
  obtain ⟨forwarder,piped,same⟩ := Option.bind_eq_some_iff.mp received
  cases same
  obtain ⟨told,same⟩ := stored.tell (List.filter toNcc (if violatesLocalhost inFace data.name then []
    else state.forwarder.findAllDataMatches matchesData data)) inNamespace
  refine told.of_forwarder ?_
  rw [same]
  exact (Forwarder.onIncomingData_changes piped).ages

theorem Stored.onOther {matchesData : Interest → FreshData → Bool} {event : Fw.Event} (stored : state.Stored)
    (stepped : state.onOther matchesData event = some next) : next.Stored := by
  unfold NccForwarder.onOther at stepped
  obtain ⟨forwarder,piped,rest⟩ := Option.bind_eq_some_iff.mp stepped
  have aged := stored.of_forwarder (Forwarder.step_changes _ piped).ages
  split at rest
  · cases rest
    exact aged.destroyInfo _
  · cases rest
    exact aged.destroyInfo _
  · cases rest
    exact aged

theorem Stored.step {matchesData : Interest → FreshData → Bool} {event : Event} (stored : state.Stored)
    (quiet : state.ForwardsQuietly event) (stepped : state.step matchesData event = some next) : next.Stored := by
  cases event with
  | advance time =>
    cases stepped
    refine stored.less (Forwarder.Ages.of_entries rfl) ?_ ?_
    · intro entry event inside _
      exact state.scheduler.advance_pending time ▸ inside
    · exact fun _ _ _ info known handle => ⟨info,known,handle⟩
  | incomingInterest inFace interest cached fibEntry measured => exact stored.onIncomingInterest quiet stepped
  | incomingData inFace data toNcc inNamespace strategy => exact stored.onIncomingData stepped
  | timer measured draw =>
    unfold NccForwarder.step at stepped
    cases due : state.scheduler.next with
    | none =>
      rw [due] at stepped
      cases stepped
      exact stored
    | some event =>
      rw [due] at stepped
      exact stored.onTimer due stepped
  | other event => exact stored.onOther stepped
  | insertFibEntry nexthops =>
    cases stepped
    exact ⟨stored.made,stored.stored⟩
  | setNextHops fibEntry nexthops =>
    cases stepped
    exact ⟨stored.made,stored.stored⟩
  | eraseFibEntry fibEntry =>
    cases stepped
    exact ⟨stored.made,stored.stored⟩
  | changeStrategy entries =>
    cases stepped
    exact stored.destroyAll entries

end

/-- In a run in which no Interest is forwarded afresh while an event to propagate it is pending,
every PIT entry has at most one such event, which is the one stored. -/
theorem oneTimer_of_forwardsQuietly (matchesData : Interest → FreshData → Bool) (events : List Event)
    (quietly : Steps (attempt (step matchesData))
      (fun state event => ∀ current, state = some current → current.ForwardsQuietly event) (some new) events) :
    Along (attempt (step matchesData)) (fun state => ∀ current, state = some current → current.OneTimer) (some new)
      events := by
  have always : Along (attempt (step matchesData)) (fun state => ∀ current, state = some current → current.Stored)
      (some new) events := by
    refine along_of_steps ?_ ?_ quietly
    · intro state event holds quiet after reached
      obtain ⟨current,here,stepped⟩ := Option.bind_eq_some_iff.mp reached
      exact (holds current here).step (quiet current here) stepped
    · intro current here
      cases here
      exact ⟨nofun,nofun⟩
  intro before inside current here
  exact (always before inside current here).oneTimer

instance (entry : Nat) (event : Scheduled NccTimer) : Decidable (Propagates entry event) :=
  match same : event.callback with
  | .doPropagate other fibEntry =>
    decidable_of_iff (other = entry) ⟨fun equal => ⟨fibEntry,equal ▸ same⟩,fun ⟨_,called⟩ =>
      (NccTimer.doPropagate.inj (same.symm.trans called)).1⟩
  | .timeoutOnBestFace _ => isFalse fun ⟨_,called⟩ => NccTimer.noConfusion (same.symm.trans called)

instance (state : NccForwarder) (entry : Nat) : Decidable (state.Quiet entry) :=
  inferInstanceAs (Decidable (∀ event ∈ _, ¬ _))

instance (state : NccForwarder) : (event : Event) → Decidable (state.ForwardsQuietly event)
  | .incomingInterest inFace interest cached fibEntry _ =>
    inferInstanceAs (Decidable (∀ entry ∈ state.forwarder.entryForStrategy inFace interest cached,
      state.getNextHops fibEntry ≠ [] → (∀ found ∈ state.forwarder.entries[entry]?,
        ¬ found.hasUnexpiredOutRecords state.forwarder.now) → state.Quiet entry))
  | .advance _ | .incomingData .. | .timer .. | .other _ | .insertFibEntry _ | .setNextHops .. | .eraseFibEntry _
  | .changeStrategy _ => inferInstanceAs (Decidable True)

instance (state : Option NccForwarder) (event : Event) :
    Decidable (∀ current, state = some current → current.ForwardsQuietly event) :=
  inferInstanceAs (Decidable (∀ current ∈ state, current.ForwardsQuietly event))

/-- An Interest for `/A` from a face that is also the only next hop. -/
def loopedRequest (nonce : UInt32) : Event :=
  .incomingInterest ⟨1,false⟩ ⟨[[8,1,0x41]],Selectors.none,nonce,4000⟩ none 0 ⟨none,none,8192⟩

def requestedLater : List Event :=
  [.other (.addFace ⟨1,false⟩),.insertFibEntry [⟨1,false⟩],loopedRequest 1,.timer ⟨none,none,8192⟩ 0,loopedRequest 2]

theorem oneTimer_requestedLater :
    Along (attempt (step fun _ _ => false)) (fun state => ∀ current, state = some current → current.OneTimer) (some new)
      requestedLater ∧
    ((run (attempt (step fun _ _ => false)) (some new) requestedLater).map fun state => state.scheduler.pending) =
      some [⟨1,8000000,.doPropagate 0 0⟩] :=
  ⟨oneTimer_of_forwardsQuietly _ requestedLater (by decide +kernel),by decide +kernel⟩

def requestedTwice : List Event :=
  [.other (.addFace ⟨1,false⟩),.insertFibEntry [⟨1,false⟩],loopedRequest 1,loopedRequest 2]

/-- Two events are pending for the entry. After a change of strategy the first one is left, and
its assertion fails. -/
theorem requestedTwice_two_timers :
    ¬ Along (attempt (step fun _ _ => false)) (fun state => ∀ current, state = some current → current.OneTimer) (some new)
      requestedTwice ∧
    (run (attempt (step fun _ _ => false)) (some new) (requestedTwice ++ [.changeStrategy [0]])).isSome ∧
    run (attempt (step fun _ _ => false)) (some new) (requestedTwice ++ [.changeStrategy [0],.timer ⟨none,none,8192⟩ 0]) =
      none := by
  refine ⟨?_,by decide +kernel,?_⟩
  · intro always
    have last := always requestedTwice List.prefix_rfl
    have facts : ((run (attempt (step fun _ _ => false)) (some new) requestedTwice).map fun state =>
        (state.forwarder.entries[0]?.any PitEntry.inPit,state.scheduler.pending)) =
        some (true,[⟨0,4000000,.doPropagate 0 0⟩,⟨1,4000000,.doPropagate 0 0⟩]) := by
      decide +kernel
    obtain ⟨state,reached,same⟩ := Option.map_eq_some_iff.mp facts
    obtain ⟨alive,pending⟩ := Prod.mk.inj same
    have equal := (last state reached).one 0 alive ⟨0,4000000,.doPropagate 0 0⟩ (by rw [pending]; simp)
      ⟨1,4000000,.doPropagate 0 0⟩ (by rw [pending]; simp) ⟨0,rfl⟩ ⟨0,rfl⟩
    cases equal
  · have failed : (run (attempt (step fun _ _ => false)) (some new)
        (requestedTwice ++ [.changeStrategy [0],.timer ⟨none,none,8192⟩ 0])).isNone := by
      decide +kernel
    exact Option.isNone_iff_eq_none.mp failed

end NccForwarder

end Ncfcc.Nfd.Fw
