import Ncfcc.Nfd.Fw.LoopDetection
import Ncfcc.Nfd.Fw.NccMeasurements

/-! The numbers that the NCC strategy computes with: the count of upstreams, the predictions and
the interval for the next draw. A change of strategy may leave an event for a PIT entry whose
information is made anew, without an interval. -/
namespace Ncfcc.Nfd.Fw
open Ncfcc.Library Ncfcc.Nfd.Table
open Ncfcc.Cs (FreshData Time)

/-! Predictions. -/

def MeasurementsEntryInfo.InRange (info : MeasurementsEntryInfo) : Prop :=
  minPrediction ≤ info.prediction ∧ info.prediction ≤ maxPrediction

namespace MeasurementsEntryInfo

private theorem new_inRange : new.InRange := by simp [InRange,new,initialPrediction,minPrediction,maxPrediction]

section
variable {info : MeasurementsEntryInfo}

theorem InRange.lock (inRange : info.InRange) (exist : Face → Bool) : (info.lock exist).InRange := inRange

theorem InRange.replaceBestFace (inRange : info.InRange) (exist : Face → Bool) :
    (info.replaceBestFace exist).InRange := by
  unfold MeasurementsEntryInfo.replaceBestFace
  split
  · exact inRange
  · exact inRange

theorem InRange.adjustPredictDown (inRange : info.InRange) : info.adjustPredictDown.InRange := by
  obtain ⟨low,high⟩ := inRange
  have part : info.prediction >>> (7 : Nat) = info.prediction / 128 := Int.shiftRight_eq_div_pow _ 7
  unfold MeasurementsEntryInfo.adjustPredictDown InRange minPrediction maxPrediction at *
  dsimp only
  omega

theorem InRange.adjustPredictUp (inRange : info.InRange) : info.adjustPredictUp.InRange := by
  obtain ⟨low,high⟩ := inRange
  have part : info.prediction >>> (3 : Nat) = info.prediction / 8 := Int.shiftRight_eq_div_pow _ 3
  unfold MeasurementsEntryInfo.adjustPredictUp InRange minPrediction maxPrediction at *
  dsimp only
  omega

theorem InRange.updateBestFace (inRange : info.InRange) (exist : Face → Bool) (face : Face) :
    (info.updateBestFace exist face).InRange := by
  unfold MeasurementsEntryInfo.updateBestFace
  split
  · exact inRange
  · split
    · exact inRange.adjustPredictDown
    · exact inRange

end

end MeasurementsEntryInfo

namespace NccMeasurements
open MeasurementsEntryInfo (InRange)

def InRange (measurements : NccMeasurements) : Prop :=
  ∀ name info, measurements name = some info → info.InRange

section
variable {measurements : NccMeasurements}

theorem InRange.setInfo (inRange : measurements.InRange) (name : Name) {info : MeasurementsEntryInfo}
    (inside : info.InRange) : (measurements.setInfo name info).InRange := by
  intro other found there
  unfold NccMeasurements.setInfo at there
  by_cases same : other = name
  · rw [same,Function.update_self] at there
    cases there
    exact inside
  · rw [Function.update_of_ne same] at there
    exact inRange other found there

theorem InRange.getInfoReversed (inRange : measurements.InRange) (inNamespace : Name → Bool) (reversed : List Component) :
    (NccMeasurements.getInfoReversed inNamespace reversed measurements).1.InRange ∧
      (NccMeasurements.getInfoReversed inNamespace reversed measurements).2.InRange := by
  induction reversed generalizing measurements with
  | nil =>
    unfold NccMeasurements.getInfoReversed
    split
    · rename_i info there
      exact ⟨inRange _ info there,inRange⟩
    · exact ⟨MeasurementsEntryInfo.new_inRange,inRange.setInfo [] MeasurementsEntryInfo.new_inRange⟩
  | cons last parent ih =>
    unfold NccMeasurements.getInfoReversed
    split
    · rename_i info there
      exact ⟨inRange _ info there,inRange⟩
    · have made := inRange.setInfo (last :: parent).reverse MeasurementsEntryInfo.new_inRange
      dsimp only
      split
      · obtain ⟨inherited,further⟩ := ih made
        exact ⟨inherited,further.setInfo _ inherited⟩
      · exact ⟨MeasurementsEntryInfo.new_inRange,made⟩

theorem InRange.updateLevels (inRange : measurements.InRange) (around : Surroundings)
    {change : MeasurementsEntryInfo → MeasurementsEntryInfo} (kept : ∀ info, info.InRange → (change info).InRange)
    (levels : Nat) (name : Name) : (measurements.updateLevels around change levels name).InRange := by
  induction levels generalizing measurements name with
  | zero => exact inRange
  | succ levels ih =>
    unfold NccMeasurements.updateLevels
    split
    · obtain ⟨inside,further⟩ := inRange.getInfoReversed around.inNamespace name.reverse
      have changed := further.setInfo name (kept _ inside)
      dsimp only
      split
      · exact changed
      · exact ih changed _
    · exact inRange

end

end NccMeasurements

/-! PIT entries that are finalized. -/

namespace Forwarder

section
variable {forwarder after : Forwarder} {entry : Nat}

private theorem onInterestFinalize_gone {isSatisfied : Bool} {dataFreshnessPeriod : Int}
    (finalized : forwarder.onInterestFinalize entry isSatisfied dataFreshnessPeriod = some after) :
    after.entries[entry]?.any PitEntry.inPit = false := by
  unfold onInterestFinalize pitErase at finalized
  dsimp only at finalized
  split at finalized
  · cases finalized
  · rename_i found there
    split at finalized
    · cases finalized
      rw [modify_same,there]
      rfl
    · cases finalized

/-- A timer that finalizes a PIT entry erases it. -/
theorem step_gone {matchesData : Interest → FreshData → Bool} {now : Time} {event : Event}
    (stepped : forwarder.step matchesData (now,event) = some after)
    (timer : (∃ strategy, event = .unsatisfyTimer entry strategy) ∨ event = .stragglerTimer entry) :
    after.entries[entry]?.any PitEntry.inPit = false := by
  rcases timer with ⟨strategy,rfl⟩ | rfl
  · obtain ⟨found,-,rest⟩ := Option.bind_eq_some_iff.mp stepped
    split at rest
    · obtain ⟨told,-,finalized⟩ := Option.bind_eq_some_iff.mp rest
      exact onInterestFinalize_gone finalized
    · cases rest
  · obtain ⟨found,-,rest⟩ := Option.bind_eq_some_iff.mp stepped
    obtain ⟨timer,-,last⟩ := Option.bind_eq_some_iff.mp rest
    split at last
    · exact onInterestFinalize_gone last
    · cases last

end

end Forwarder

/-! The count of upstreams. -/

namespace NccForwarder

section
variable (state : NccForwarder) (entry : Nat)

def bestUpstream (nexthops : List Face) (measured : MeasurementsEntryInfo) : Option Face :=
  measured.getBestFace.filter fun face => face ∈ nexthops && state.canForwardTo entry face

def previousUpstream (nexthops : List Face) (measured : MeasurementsEntryInfo) : Option Face :=
  measured.previousFace.filter fun face => face ∈ nexthops && state.canForwardTo entry face

/-- How often the count of upstreams is decremented; the previous face counts after the best one
was sent to. -/
def decrements (nexthops : List Face) (measured : MeasurementsEntryInfo) : Option Nat :=
  (state.sendToFirst entry nexthops measured).map fun (_,_,_,sent) =>
    (state.bestUpstream entry nexthops measured).toList.length +
      (sent.previousUpstream entry nexthops measured).toList.length

def countsUpstreams : Event → Option (Nat × Nat)
  | .incomingInterest inFace interest cached fibEntry measured => do
    let entry ← state.forwardsAfresh inFace interest cached fibEntry
    let forwarder ← state.forwarder.onIncomingInterest inFace interest cached fun _ => []
    let nexthops := state.getNextHops fibEntry
    let decrements ← (({state with forwarder} : NccForwarder).getOrCreatePitEntryInfo entry).decrements entry nexthops measured
    return (nexthops.length,decrements)
  | _ => none

def ValidIds : Prop := ∀ fibEntry, ∀ face ∈ state.getNextHops fibEntry, face ∈ state.forwarder.faceTable

def NoUnderflow (event : Event) : Prop :=
  ∀ count decrements, state.countsUpstreams event = some (count,decrements) → decrements ≤ count

end

section
variable {state next : NccForwarder} {entry : Nat}

/-- With its new out-record a face is no upstream any more. -/
theorem sendInterest_recorded {face : Face} (valid : face ∈ state.forwarder.faceTable)
    (eligible : state.canForwardTo entry face) (sent : state.sendInterest entry face = some next) :
    next.canForwardTo entry face = false := by
  obtain ⟨forwarder,made,rfl⟩ := Option.map_eq_some_iff.mp sent
  obtain ⟨found,there,forwardable⟩ := (Option.any_eq_true _ _).mp eligible
  have scope : found.violatesScope face = false := by
    unfold PitEntry.canForwardTo at forwardable
    simpa using (Bool.and_eq_true_iff.mp forwardable).2
  unfold Forwarder.onOutgoingInterest at made
  rw [if_neg (not_not_intro valid)] at made
  obtain ⟨same,here,rest⟩ := Option.bind_eq_some_iff.mp made
  cases there.symm.trans here
  rw [if_neg (by simp [scope])] at rest
  obtain ⟨picked,-,last⟩ := Option.bind_eq_some_iff.mp rest
  cases last
  have unexpired : state.forwarder.now ≤ (FaceRecord.updated face picked.interest state.forwarder.now).expiry := by
    apply Int.le_add_of_nonneg_right
    unfold Ncfcc.Cs.milliSeconds defaultInterestLifetime
    split
    · decide
    · omega
  have recorded : (found.insertOrUpdateOutRecord face picked.interest state.forwarder.now).outRecords.any
      (fun record => record.face = face ∧ state.forwarder.now ≤ record.expiry) = true :=
    List.any_eq_true.mpr ⟨_,insertOrUpdateOutRecord_self face picked.interest state.forwarder.now found,
      decide_eq_true ⟨rfl,unexpired⟩⟩
  change ((state.forwarder.modify entry _).entries[entry]?).any _ = false
  rw [Forwarder.modify_same,there]
  change PitEntry.canForwardTo (found.insertOrUpdateOutRecord face picked.interest state.forwarder.now) face
    state.forwarder.now = false
  unfold PitEntry.canForwardTo
  rw [recorded]
  rfl

/-- The best face that was sent to and the previous face that still can be are two next hops. -/
theorem decrements_le {nexthops : List Face} {measured : MeasurementsEntryInfo} {decrements : Nat} (upstreams : nexthops ≠ [])
    (valid : ∀ face ∈ nexthops, face ∈ state.forwarder.faceTable)
    (counted : state.decrements entry nexthops measured = some decrements) : decrements ≤ nexthops.length := by
  have nonempty := List.length_pos_iff.mpr upstreams
  have single : ∀ face? : Option Face, face?.toList.length ≤ 1 := fun face? => by cases face? <;> simp
  unfold NccForwarder.decrements at counted
  obtain ⟨⟨deferFirst,deferRange,nUpstreams,sent⟩,first,rfl⟩ := Option.map_eq_some_iff.mp counted
  dsimp only
  cases best : state.bestUpstream entry nexthops measured with
  | none =>
    have previous := single (sent.previousUpstream entry nexthops measured)
    simp only [Option.toList_none,List.length_nil]
    omega
  | some bestFace =>
    obtain ⟨-,eligible⟩ := Option.filter_eq_some_iff.mp best
    obtain ⟨member,forwardable⟩ := Bool.and_eq_true_iff.mp eligible
    have member := of_decide_eq_true member
    unfold NccForwarder.sendToFirst at first
    rw [show (measured.getBestFace.filter fun face => face ∈ nexthops && state.canForwardTo entry face) = _ from best] at first
    obtain ⟨told,recorded,same⟩ := Option.map_eq_some_iff.mp first
    cases same
    have taken : told.canForwardTo entry bestFace = false := sendInterest_recorded (valid bestFace member) forwardable recorded
    cases previous : (told.setBestFaceTimeout entry (measured.prediction * 1000)).previousUpstream entry nexthops measured with
    | none =>
      simp only [Option.toList_some,Option.toList_none,List.length_nil,List.length_singleton]
      omega
    | some previousFace =>
      obtain ⟨-,still⟩ := Option.filter_eq_some_iff.mp previous
      obtain ⟨also,forwardable⟩ := Bool.and_eq_true_iff.mp still
      have also := of_decide_eq_true also
      have apart : previousFace ≠ bestFace := by
        intro same
        rw [same] at forwardable
        exact absurd (taken.symm.trans forwardable) (by simp)
      have two : [bestFace,previousFace].Subperm nexthops := by
        apply List.subperm_of_subset
        · simpa using apart.symm
        · simp [member,also]
      exact two.length_le

private theorem noUnderflow_of_validIds (valid : state.ValidIds) (event : Event) : state.NoUnderflow event := by
  intro count decrements counted
  cases event with
  | incomingInterest inFace interest cached fibEntry measured =>
    obtain ⟨entry,afresh,rest⟩ := Option.bind_eq_some_iff.mp counted
    obtain ⟨forwarder,piped,rest⟩ := Option.bind_eq_some_iff.mp rest
    obtain ⟨found,counted,same⟩ := Option.bind_eq_some_iff.mp rest
    cases same
    obtain ⟨reached,fresh⟩ := Option.filter_eq_some_iff.mp afresh
    have upstreams : state.getNextHops fibEntry ≠ [] := by
      intro empty
      rw [empty] at fresh
      cases fresh
    obtain ⟨-,faces,-⟩ := Forwarder.entryForStrategy_entry reached piped
    refine decrements_le upstreams ?_ counted
    intro face member
    change face ∈ forwarder.faceTable
    rw [faces]
    exact valid fibEntry face member
  | _ => cases counted

end

/-! The interval for the next draw. -/

section
variable (state : NccForwarder) (entry : Nat)

/-- The interval from which the next timer draws the delay after it, if it sends an Interest. -/
def drawsFrom : Event → Option Int
  | .timer measured _ => do
    let event ← state.scheduler.next
    let (entry,nexthops) ← state.propagatesNext
    let info ← state.pitEntryInfo entry
    let fired := {state with
      scheduler := state.scheduler.fire event
      forwarder := {state.forwarder with now := event.due}}
    let told ← fired.sendToPrevious entry nexthops measured
    if nexthops.any fun face => told.canForwardTo entry face then some info.maxInterval else none
  | _ => none

def DrawsWell (event : Event) : Prop := ∀ maxInterval, state.drawsFrom event = some maxInterval → 1 ≤ maxInterval

/-- A change of strategy clears the information on a PIT entry only if no event to propagate its
Interest is pending but the one stored. -/
def ClearsStored : Event → Prop
  | .changeStrategy entries => ∀ entry ∈ entries, state.Alive entry → ∀ event ∈ state.scheduler.pending,
    Propagates entry event → ∃ info ∈ state.pitEntryInfo entry, info.propagateTimer = some event.id
  | _ => True

def HasInterval : Prop := ∃ info, state.pitEntryInfo entry = some info ∧ 1 ≤ info.maxInterval

structure Drawable : Prop where
  made : ∀ entry, ∀ event ∈ state.scheduler.pending, Propagates entry event → entry < state.forwarder.entries.length
  interval : ∀ entry, state.Alive entry → ∀ event ∈ state.scheduler.pending, Propagates entry event →
    state.HasInterval entry

end

section
variable {state next : NccForwarder} {entry : Nat}

theorem Drawable.less (drawable : state.Drawable) (ages : state.forwarder.Ages next.forwarder)
    (pending : ∀ entry, ∀ event ∈ next.scheduler.pending, Propagates entry event → event ∈ state.scheduler.pending)
    (kept : ∀ entry, next.Alive entry → ∀ event ∈ next.scheduler.pending, Propagates entry event →
      state.HasInterval entry → next.HasInterval entry) : next.Drawable := by
  constructor
  · intro entry event inside propagates
    exact (drawable.made entry event (pending entry event inside propagates) propagates).trans_le ages.length
  · intro entry alive event inside propagates
    have before := pending entry event inside propagates
    have made := drawable.made entry event before propagates
    exact kept entry alive event inside propagates
      (drawable.interval entry (ages.inPit entry made alive) event before propagates)

theorem Drawable.of_forwarder (drawable : state.Drawable) {forwarder : Forwarder} (ages : state.forwarder.Ages forwarder) :
    ({state with forwarder} : NccForwarder).Drawable :=
  drawable.less ages (fun _ _ inside _ => inside) fun _ _ _ _ _ => id

theorem Drawable.sendInterest {face : Face} (drawable : state.Drawable) (sent : state.sendInterest entry face = some next) :
    next.Drawable := by
  obtain ⟨forwarder,ages,rfl⟩ := sendInterest_forwarder sent
  exact drawable.of_forwarder ages

theorem HasInterval.update {other : Nat} {after : Option PitEntryInfo} (has : state.HasInterval other)
    (kept : ∀ info, state.pitEntryInfo entry = some info → 1 ≤ info.maxInterval →
      ∃ later, after = some later ∧ 1 ≤ later.maxInterval) :
    ∃ info, Function.update state.pitEntryInfo entry after other = some info ∧ 1 ≤ info.maxInterval := by
  obtain ⟨info,there,positive⟩ := has
  by_cases same : other = entry
  · rw [same] at there ⊢
    rw [Function.update_self]
    exact kept info there positive
  · rw [Function.update_of_ne same]
    exact ⟨info,there,positive⟩

theorem Drawable.getOrCreatePitEntryInfo (drawable : state.Drawable) (entry : Nat) :
    (state.getOrCreatePitEntryInfo entry).Drawable := by
  refine drawable.less (Forwarder.Ages.refl _) (fun _ _ inside _ => inside) ?_
  intro other _ event _ _ has
  apply has.update
  intro info there positive
  rw [there]
  exact ⟨info,rfl,positive⟩

theorem Drawable.modifyInfo {change : PitEntryInfo → PitEntryInfo} (drawable : state.Drawable)
    (kept : ∀ info, 1 ≤ info.maxInterval → 1 ≤ (change info).maxInterval) : (state.modifyInfo entry change).Drawable := by
  refine drawable.less (Forwarder.Ages.refl _) (fun _ _ inside _ => inside) ?_
  intro other _ event _ _ has
  apply has.update
  intro info there positive
  rw [there]
  exact ⟨change info,rfl,kept info positive⟩

theorem Drawable.setBestFaceTimeout (drawable : state.Drawable) (entry : Nat) (after : Int) :
    (state.setBestFaceTimeout entry after).Drawable := by
  refine drawable.less (Forwarder.Ages.refl _) ?_ ?_
  · rintro other event inside ⟨fibEntry,called⟩
    rcases Scheduler.mem_schedule.mp inside with before | rfl
    · exact before
    · cases called
  · intro other _ event _ _ has
    apply has.update
    intro info there positive
    rw [there]
    exact ⟨_,rfl,positive⟩

theorem HasInterval.setPropagateTimer {other : Nat} (has : state.HasInterval other) (fibEntry : Nat) (after : Int) :
    (state.setPropagateTimer entry fibEntry after).HasInterval other := by
  apply has.update
  intro info there positive
  rw [there]
  exact ⟨_,rfl,positive⟩

theorem Drawable.setPropagateTimer (drawable : state.Drawable) (has : state.HasInterval entry)
    (made : entry < state.forwarder.entries.length) (fibEntry : Nat) (after : Int) :
    (state.setPropagateTimer entry fibEntry after).Drawable := by
  constructor
  · rintro other event inside ⟨fib,called⟩
    rcases Scheduler.mem_schedule.mp inside with before | rfl
    · exact drawable.made other event before ⟨fib,called⟩
    · cases called
      exact made
  · rintro other alive event inside ⟨fib,called⟩
    rcases Scheduler.mem_schedule.mp inside with before | rfl
    · exact (drawable.interval other alive event before ⟨fib,called⟩).setPropagateTimer fibEntry after
    · cases called
      exact has.setPropagateTimer fibEntry after

private theorem modifyInfo_hasInterval {change : PitEntryInfo → PitEntryInfo} (there : (state.pitEntryInfo entry).isSome)
    (positive : ∀ info, 1 ≤ (change info).maxInterval) : (state.modifyInfo entry change).HasInterval entry := by
  obtain ⟨info,known⟩ := Option.isSome_iff_exists.mp there
  refine ⟨change info,?_,positive info⟩
  change Function.update state.pitEntryInfo entry _ entry = some _
  rw [Function.update_self,known]
  rfl

private theorem maxInterval_pos {deferFirst deferRange : Int} (positive : 1 ≤ deferFirst) (nUpstreams : UInt64) :
    1 ≤ maxInterval deferFirst deferRange nUpstreams := by
  unfold maxInterval
  split
  · exact Int.le_max_left 1 _
  · exact positive

private theorem sendToFirst_drawable {nexthops : List Face} {measured : MeasurementsEntryInfo} {deferFirst deferRange : Int}
    {nUpstreams : UInt64} (drawable : state.Drawable) (inRange : measured.InRange)
    (sent : state.sendToFirst entry nexthops measured = some (deferFirst,deferRange,nUpstreams,next)) :
    next.Drawable ∧ 1 ≤ deferFirst ∧ state.forwarder.Ages next.forwarder ∧
      ((state.pitEntryInfo entry).isSome → (next.pitEntryInfo entry).isSome) := by
  unfold NccForwarder.sendToFirst at sent
  split at sent
  · obtain ⟨told,first,same⟩ := Option.map_eq_some_iff.mp sent
    cases same
    obtain ⟨forwarder,ages,rfl⟩ := sendInterest_forwarder first
    refine ⟨(drawable.sendInterest first).setBestFaceTimeout entry _,?_,ages,modifyInfo_isSome⟩
    exact Int.le_trans (by decide) inRange.1
  · split at sent
    · obtain ⟨told,first,same⟩ := Option.map_eq_some_iff.mp sent
      cases same
      obtain ⟨forwarder,ages,rfl⟩ := sendInterest_forwarder first
      exact ⟨drawable.sendInterest first,by decide,ages,id⟩
    · cases sent
      exact ⟨drawable,by decide,Forwarder.Ages.refl _,id⟩

theorem Drawable.afterReceiveInterest {fibEntry : Nat} {measured : MeasurementsEntryInfo} (drawable : state.Drawable)
    (inRange : measured.InRange) (received : state.afterReceiveInterest entry fibEntry measured = some next) :
    next.Drawable := by
  unfold NccForwarder.afterReceiveInterest at received
  dsimp only at received
  split at received
  · obtain ⟨forwarder,rejected,same⟩ := Option.bind_eq_some_iff.mp received
    cases same
    have changes : Forwarder.Changes (fun _ => True) state.forwarder forwarder := Forwarder.onInterestReject_changes rejected
    exact drawable.of_forwarder changes.ages
  · obtain ⟨found,there,rest⟩ := Option.bind_eq_some_iff.mp received
    have created := drawable.getOrCreatePitEntryInfo entry
    split at rest
    · cases rest
      exact created
    · obtain ⟨⟨deferFirst,deferRange,nUpstreams,told⟩,sent,last⟩ := Option.bind_eq_some_iff.mp rest
      cases last
      obtain ⟨told,positive,ages,still⟩ := sendToFirst_drawable created inRange sent
      have inside : entry < state.forwarder.entries.length := (List.getElem?_eq_some_iff.mp there).1
      have interval : ∀ upstreams, 1 ≤ maxInterval deferFirst deferRange upstreams := maxInterval_pos positive
      refine Drawable.setPropagateTimer (Drawable.modifyInfo told fun _ _ => interval _) ?_ (inside.trans_le ages.length) _ _
      refine modifyInfo_hasInterval (still ?_) fun _ => interval _
      change (Function.update state.pitEntryInfo entry _ entry).isSome
      rw [Function.update_self]
      rfl

/-- The information that is there gives the interval for the next event as well. -/
theorem Drawable.propagate {fibEntry : Nat} {nexthops : List Face} {measured : MeasurementsEntryInfo} {draw : Int}
    (drawable : state.Drawable) (has : state.HasInterval entry) (made : entry < state.forwarder.entries.length)
    (propagated : state.propagate entry fibEntry nexthops measured draw = some next) : next.Drawable := by
  unfold NccForwarder.propagate at propagated
  obtain ⟨info,-,rest⟩ := Option.bind_eq_some_iff.mp propagated
  obtain ⟨told,previous,later⟩ := Option.bind_eq_some_iff.mp rest
  obtain ⟨forwarder,ages,rfl⟩ : ∃ forwarder, state.forwarder.Ages forwarder ∧ told = {state with forwarder} := by
    unfold sendToPrevious at previous
    split at previous
    · exact sendInterest_forwarder previous
    · cases previous
      exact ⟨state.forwarder,Forwarder.Ages.refl _,rfl⟩
  have again := drawable.of_forwarder ages
  unfold sendToNext at later
  split at later
  · obtain ⟨sent,forwarded,rfl⟩ := Option.map_eq_some_iff.mp later
    obtain ⟨last,further,rfl⟩ := sendInterest_forwarder forwarded
    exact (again.of_forwarder further).setPropagateTimer has ((made.trans_le ages.length).trans_le further.length) fibEntry _
  · cases later
    exact again

theorem Drawable.onTimer {event : Scheduled NccTimer} {measured : MeasurementsEntryInfo} {draw : Int}
    (drawable : state.Drawable) (first : state.scheduler.next = some event)
    (ran : state.onTimer event measured draw = some next) : next.Drawable := by
  have inside := Scheduler.next_mem first
  have fired : ({state with scheduler := state.scheduler.fire event,forwarder := {state.forwarder with now := event.due}} :
      NccForwarder).Drawable := by
    refine drawable.less (Forwarder.Ages.of_entries rfl) ?_ (fun _ _ _ _ _ => id)
    intro other later there _
    exact (Scheduler.mem_fire.mp there).1
  unfold NccForwarder.onTimer at ran
  cases called : event.callback with
  | timeoutOnBestFace entry =>
    rw [called] at ran
    cases ran
    exact fired
  | doPropagate entry fibEntry =>
    rw [called] at ran
    dsimp only at ran
    unfold NccForwarder.doPropagate at ran
    split at ran
    · rename_i alive
      split at ran
      · cases ran
        exact fired
      · exact fired.propagate (drawable.interval entry alive event inside ⟨fibEntry,called⟩)
          (drawable.made entry event inside ⟨fibEntry,called⟩) ran
    · cases ran
      exact fired

theorem Drawable.beforeSatisfyInterest (drawable : state.Drawable) (entry : Nat) (inNamespace : Name → Bool) :
    (state.beforeSatisfyInterest entry inNamespace).Drawable := by
  unfold NccForwarder.beforeSatisfyInterest
  split
  · exact drawable
  · split
    · exact drawable
    · split
      · exact drawable
      · refine drawable.less (Forwarder.Ages.refl _) ?_ ?_
        · intro other event inside _
          exact (Scheduler.mem_cancel.mp inside).1
        · intro other _ event _ _ has
          apply has.update
          intro info there positive
          rw [there]
          exact ⟨_,rfl,positive⟩

theorem Drawable.tell (drawable : state.Drawable) (entries : List Nat) (inNamespace : Name → Bool) :
    (entries.foldl (fun state entry => state.beforeSatisfyInterest entry inNamespace) state).Drawable ∧
      (entries.foldl (fun state entry => state.beforeSatisfyInterest entry inNamespace) state).forwarder = state.forwarder := by
  induction entries generalizing state with
  | nil => exact ⟨drawable,rfl⟩
  | cons entry rest ih =>
    obtain ⟨told,same⟩ := ih (drawable.beforeSatisfyInterest entry inNamespace)
    exact ⟨told,same.trans (beforeSatisfyInterest_forwarder state entry inNamespace)⟩

/-- Information may go when its PIT entry is gone or nothing is pending for it. -/
theorem Drawable.destroyInfo (drawable : state.Drawable) (unused : state.Alive entry →
      ∀ event ∈ state.scheduler.pending, Propagates entry event →
        ∃ info ∈ state.pitEntryInfo entry, info.propagateTimer = some event.id) :
    (state.destroyInfo entry).Drawable := by
  unfold NccForwarder.destroyInfo
  cases there : state.pitEntryInfo entry with
  | none => exact drawable
  | some info =>
    refine drawable.less (Forwarder.Ages.refl _) ?_ ?_
    · intro other event inside _
      exact (Scheduler.mem_cancel.mp (Scheduler.mem_cancel.mp inside).1).1
    · intro other alive event inside propagates has
      have apart : other ≠ entry := by
        rintro rfl
        obtain ⟨kept,uncancelled⟩ := Scheduler.mem_cancel.mp inside
        obtain ⟨found,known,stored⟩ := unused alive event (Scheduler.mem_cancel.mp kept).1 propagates
        cases there.symm.trans known
        exact uncancelled stored.symm
      obtain ⟨found,known,positive⟩ := has
      exact ⟨found,(Function.update_of_ne apart _ _).trans known,positive⟩

private theorem destroyInfo_clears {entries : List Nat} (clears : state.ClearsStored (.changeStrategy entries)) (entry : Nat) :
    (state.destroyInfo entry).ClearsStored (.changeStrategy entries) := by
  unfold NccForwarder.destroyInfo
  split
  · exact clears
  · rename_i info there
    intro other member alive event inside propagates
    obtain ⟨kept,uncancelled⟩ := Scheduler.mem_cancel.mp inside
    obtain ⟨found,known,stored⟩ := clears other member alive event (Scheduler.mem_cancel.mp kept).1 propagates
    have apart : other ≠ entry := by
      rintro rfl
      cases there.symm.trans known
      exact uncancelled stored.symm
    exact ⟨found,(Function.update_of_ne apart _ _).trans known,stored⟩

theorem Drawable.destroyAll {entries : List Nat} (drawable : state.Drawable)
    (clears : state.ClearsStored (.changeStrategy entries)) :
    (entries.foldl (fun state entry => state.destroyInfo entry) state).Drawable := by
  induction entries generalizing state with
  | nil => exact drawable
  | cons entry rest ih =>
    refine ih (drawable.destroyInfo fun alive => clears entry List.mem_cons_self alive) ?_
    intro other member
    exact destroyInfo_clears clears entry other (List.mem_cons_of_mem entry member)

theorem Drawable.onIncomingInterest {inFace : Face} {interest : Interest} {cached : Option FreshData} {fibEntry : Nat}
    {measured : MeasurementsEntryInfo} (drawable : state.Drawable) (inRange : measured.InRange)
    (received : state.onIncomingInterest inFace interest cached fibEntry measured = some next) : next.Drawable := by
  unfold NccForwarder.onIncomingInterest at received
  obtain ⟨forwarder,piped,rest⟩ := Option.bind_eq_some_iff.mp received
  have changes : Forwarder.Changes (fun _ => True) state.forwarder forwarder := Forwarder.onIncomingInterest_changes piped
  have aged := drawable.of_forwarder changes.ages
  cases reached : state.forwarder.entryForStrategy inFace interest cached with
  | none =>
    rw [reached] at rest
    cases rest
    exact aged
  | some entry =>
    rw [reached] at rest
    exact aged.afterReceiveInterest inRange rest

theorem Drawable.onIncomingData {matchesData : Interest → FreshData → Bool} {inFace : Face} {data : FreshData}
    {toNcc : Nat → Bool} {inNamespace : Name → Bool} {strategy : Strategy} (drawable : state.Drawable)
    (received : state.onIncomingData matchesData inFace data toNcc inNamespace strategy = some next) : next.Drawable := by
  unfold NccForwarder.onIncomingData at received
  obtain ⟨forwarder,piped,same⟩ := Option.bind_eq_some_iff.mp received
  cases same
  obtain ⟨told,same⟩ := drawable.tell (List.filter toNcc (if violatesLocalhost inFace data.name then []
    else state.forwarder.findAllDataMatches matchesData data)) inNamespace
  refine told.of_forwarder ?_
  rw [same]
  exact (Forwarder.onIncomingData_changes piped).ages

theorem Drawable.onOther {matchesData : Interest → FreshData → Bool} {event : Fw.Event} (drawable : state.Drawable)
    (stepped : state.onOther matchesData event = some next) : next.Drawable := by
  unfold NccForwarder.onOther at stepped
  obtain ⟨forwarder,piped,rest⟩ := Option.bind_eq_some_iff.mp stepped
  have aged := drawable.of_forwarder (Forwarder.step_changes _ piped).ages
  split at rest
  · rename_i entry strategy
    cases rest
    have gone : forwarder.entries[entry]?.any PitEntry.inPit = false :=
      Forwarder.step_gone piped (Or.inl ⟨strategy,rfl⟩)
    exact aged.destroyInfo fun alive => absurd (gone.symm.trans alive) (by simp)
  · rename_i entry
    cases rest
    have gone : forwarder.entries[entry]?.any PitEntry.inPit = false := Forwarder.step_gone piped (Or.inr rfl)
    exact aged.destroyInfo fun alive => absurd (gone.symm.trans alive) (by simp)
  · cases rest
    exact aged

theorem Drawable.step {matchesData : Interest → FreshData → Bool} {measured : MeasurementsEntryInfo} {event : Event}
    (drawable : state.Drawable) (inRange : measured.InRange) (clears : state.ClearsStored event)
    (stepped : state.step matchesData (event.withMeasured around measured) = some next) : next.Drawable := by
  cases event with
  | advance time =>
    cases stepped
    refine drawable.less (Forwarder.Ages.of_entries rfl) ?_ (fun _ _ _ _ _ => id)
    intro entry event inside _
    exact state.scheduler.advance_pending time ▸ inside
  | incomingInterest inFace interest cached fibEntry _ => exact drawable.onIncomingInterest inRange stepped
  | incomingData inFace data toNcc inNamespace strategy => exact drawable.onIncomingData stepped
  | timer _ draw =>
    unfold NccForwarder.step Event.withMeasured at stepped
    dsimp only at stepped
    cases due : state.scheduler.next with
    | none =>
      rw [due] at stepped
      cases stepped
      exact drawable
    | some event =>
      rw [due] at stepped
      exact drawable.onTimer due stepped
  | other event => exact drawable.onOther stepped
  | insertFibEntry nexthops =>
    cases stepped
    exact ⟨drawable.made,drawable.interval⟩
  | setNextHops fibEntry nexthops =>
    cases stepped
    exact ⟨drawable.made,drawable.interval⟩
  | eraseFibEntry fibEntry =>
    cases stepped
    exact ⟨drawable.made,drawable.interval⟩
  | changeStrategy entries =>
    cases stepped
    exact drawable.destroyAll clears

/-- The next timer finds an interval to draw from. -/
theorem Drawable.drawsWell (drawable : state.Drawable) (event : Event) : state.DrawsWell event := by
  intro maxInterval drawn
  cases event with
  | timer measured draw =>
    obtain ⟨first,due,rest⟩ := Option.bind_eq_some_iff.mp drawn
    obtain ⟨⟨entry,nexthops⟩,propagates,rest⟩ := Option.bind_eq_some_iff.mp rest
    obtain ⟨info,known,rest⟩ := Option.bind_eq_some_iff.mp rest
    obtain ⟨told,-,rest⟩ := Option.bind_eq_some_iff.mp rest
    split at rest
    · cases rest
      unfold propagatesNext at propagates
      rw [due] at propagates
      split at propagates
      · rename_i id when place fibEntry same
        cases same
        split at propagates
        · rename_i alive
          obtain ⟨hops,-,same⟩ := Option.map_eq_some_iff.mp propagates
          cases same
          obtain ⟨found,again,positive⟩ := drawable.interval entry (Bool.and_eq_true_iff.mp alive).1 _
            (Scheduler.next_mem due) ⟨fibEntry,rfl⟩
          cases known.symm.trans again
          exact positive
        · cases propagates
      · cases propagates
    · cases rest
  | _ => cases drawn

end

end NccForwarder

namespace NccStrategy

section
variable {matchesData : Interest → FreshData → Bool} {state next : NccStrategy} {around : Surroundings}

private theorem read_inRange (inRange : state.measurements.InRange) {event : NccForwarder.Event} {measured : MeasurementsEntryInfo}
    {measurements : NccMeasurements} (done : state.read around event = some (measured,measurements)) :
    measured.InRange ∧ measurements.InRange := by
  unfold read at done
  split at done
  · cases done
    exact ⟨MeasurementsEntryInfo.new_inRange,inRange⟩
  · rename_i name asksBestFace there
    split at done
    · cases done
      obtain ⟨inside,further⟩ := inRange.getInfoReversed around.inNamespace name.reverse
      refine ⟨inside.lock around.exist,?_⟩
      split
      · exact further.setInfo name (inside.replaceBestFace around.exist)
      · exact further
    · cases done

private theorem update_inRange {event : NccForwarder.Event} {measurements : NccMeasurements} (inRange : measurements.InRange) :
    (state.update matchesData around event measurements).InRange := by
  unfold update
  split
  · split
    · exact inRange.updateLevels around (fun _ => MeasurementsEntryInfo.InRange.adjustPredictUp) _ _
    · exact inRange
  · rename_i inFace data toNcc inNamespace strategy
    generalize state.ncc.satisfiedBy matchesData data toNcc inFace = entries
    induction entries generalizing measurements with
    | nil => exact inRange
    | cons entry entries ih =>
      exact ih (inRange.updateLevels around (fun _ inside => inside.updateBestFace around.exist inFace) _ _)
  · exact inRange

private theorem step_inRange {event : Event} (inRange : state.measurements.InRange) (stepped : state.step matchesData event = some next) :
    next.measurements.InRange := by
  cases event with
  | ncc around event =>
    obtain ⟨⟨measured,measurements⟩,done,rest⟩ := Option.bind_eq_some_iff.mp stepped
    obtain ⟨ncc,-,same⟩ := Option.bind_eq_some_iff.mp rest
    cases same
    exact update_inRange (read_inRange inRange done).2
  | forget names =>
    cases stepped
    intro name info there
    dsimp only at there
    split at there
    · cases there
    · exact inRange name info there

end

section
variable (state : NccStrategy)

/-- What the strategy computes with in an event, from what it has measured. -/
def WellDefined : Event → Prop
  | .ncc around event => ∀ measured measurements, state.read around event = some (measured,measurements) →
    state.ncc.NoUnderflow (event.withMeasured around measured) ∧ state.ncc.DrawsWell (event.withMeasured around measured)
  | .forget _ => True

def ClearsStored : Event → Prop
  | .ncc _ event => state.ncc.ClearsStored event
  | .forget _ => True

end

/-- In a run in which the faces of next hops have valid ids and no change of strategy leaves
behind an event that propagates an Interest, the count of upstreams never gets below zero,
predictions stay in their range, and the interval for the next draw is never empty. -/
theorem wellDefined_of_clearsStored (matchesData : Interest → FreshData → Bool) (events : List Event)
    (valid : Steps (attempt (step matchesData)) (fun state _ => ∀ current, state = some current → current.ncc.ValidIds)
      (some new) events)
    (clears : Steps (attempt (step matchesData))
      (fun state event => ∀ current, state = some current → current.ClearsStored event) (some new) events) :
    Along (attempt (step matchesData)) (fun state => ∀ current, state = some current → current.measurements.InRange)
        (some new) events ∧
      Steps (attempt (step matchesData)) (fun state event => ∀ current, state = some current → current.WellDefined event)
        (some new) events := by
  have always : Along (attempt (step matchesData)) (fun state => ∀ current, state = some current →
      current.measurements.InRange ∧ current.ncc.Drawable) (some new) events := by
    refine along_of_steps ?_ ?_ clears
    · intro state event holds kept after reached
      obtain ⟨current,here,stepped⟩ := Option.bind_eq_some_iff.mp reached
      obtain ⟨inRange,drawable⟩ := holds current here
      refine ⟨step_inRange inRange stepped,?_⟩
      cases event with
      | ncc around event =>
        obtain ⟨⟨measured,measurements⟩,done,rest⟩ := Option.bind_eq_some_iff.mp stepped
        obtain ⟨ncc,moved,same⟩ := Option.bind_eq_some_iff.mp rest
        cases same
        exact drawable.step (read_inRange inRange done).1 (kept current here) moved
      | forget names =>
        cases stepped
        exact drawable
    · intro current here
      cases here
      exact ⟨nofun,⟨nofun,nofun⟩⟩
  refine ⟨fun before inside current here => (always before inside current here).1,?_⟩
  intro before event inside current here
  obtain ⟨inRange,drawable⟩ := always before ((List.prefix_append _ _).trans inside) current here
  cases event with
  | ncc around event =>
    intro measured measurements done
    exact ⟨NccForwarder.noUnderflow_of_validIds (valid before _ inside current here) _,drawable.drawsWell _⟩
  | forget names => trivial

instance (state : NccForwarder) : Decidable state.ValidIds :=
  decidable_of_iff (∀ fibEntry < state.fibEntries.length, ∀ face ∈ state.getNextHops fibEntry,
      face ∈ state.forwarder.faceTable) <| by
    refine ⟨?_,fun valid fibEntry _ => valid fibEntry⟩
    intro valid fibEntry face member
    by_cases inside : fibEntry < state.fibEntries.length
    · exact valid fibEntry inside face member
    · unfold NccForwarder.getNextHops at member
      rw [List.getElem?_eq_none (Nat.le_of_not_lt inside)] at member
      cases member

instance (state : NccForwarder) : (event : NccForwarder.Event) → Decidable (state.ClearsStored event)
  | .changeStrategy entries => inferInstanceAs (Decidable (∀ entry ∈ entries,
      state.forwarder.entries[entry]?.any PitEntry.inPit = true → ∀ event ∈ state.scheduler.pending,
        NccForwarder.Propagates entry event → ∃ info ∈ state.pitEntryInfo entry, info.propagateTimer = some event.id))
  | .advance _ | .incomingInterest .. | .incomingData .. | .timer .. | .other _ | .insertFibEntry _ | .setNextHops ..
  | .eraseFibEntry _ => inferInstanceAs (Decidable True)

instance (state : NccStrategy) : (event : Event) → Decidable (state.ClearsStored event)
  | .ncc _ event => inferInstanceAs (Decidable (state.ncc.ClearsStored event))
  | .forget _ => inferInstanceAs (Decidable True)

instance (state : Option NccStrategy) : Decidable (∀ current, state = some current → current.ncc.ValidIds) :=
  inferInstanceAs (Decidable (∀ current ∈ state, current.ncc.ValidIds))

instance (state : Option NccStrategy) (event : Event) :
    Decidable (∀ current, state = some current → current.ClearsStored event) :=
  inferInstanceAs (Decidable (∀ current ∈ state, current.ClearsStored event))

def everywhere (event : NccForwarder.Event) : Event := .ncc ⟨fun _ => true,fun _ => true⟩ event

/-- An Interest for `/A` from a face. -/
def requestFrom (face : Nat) (nonce : UInt32) : Event :=
  everywhere (.incomingInterest ⟨face,false⟩ ⟨[[0x41]],Selectors.none,nonce,4000⟩ none 0 .new)

def nextTimer : NccForwarder.Event := .timer .new 0

def propagatedOnce : List Event :=
  [everywhere (.other (.addFace ⟨1,false⟩)),everywhere (.other (.addFace ⟨2,false⟩)),everywhere (.other (.addFace ⟨3,false⟩)),
    everywhere (.insertFibEntry [⟨2,false⟩,⟨3,false⟩]),requestFrom 1 7,everywhere nextTimer]

theorem wellDefined_propagatedOnce :
    (Along (attempt (step fun _ _ => false)) (fun state => ∀ current, state = some current → current.measurements.InRange)
        (some new) propagatedOnce ∧
      Steps (attempt (step fun _ _ => false)) (fun state event => ∀ current, state = some current → current.WellDefined event)
        (some new) propagatedOnce) ∧
    ((run (attempt (step fun _ _ => false)) (some new) propagatedOnce.dropLast).bind fun state =>
      state.ncc.drawsFrom nextTimer) = some 75000 :=
  ⟨wellDefined_of_clearsStored _ propagatedOnce (by decide +kernel) (by decide +kernel),by decide +kernel⟩

def changedTwice : List Event :=
  [everywhere (.other (.addFace ⟨1,false⟩)),everywhere (.other (.addFace ⟨2,false⟩)),everywhere (.other (.addFace ⟨3,false⟩)),
    everywhere (.insertFibEntry [⟨1,false⟩]),requestFrom 1 7,requestFrom 1 8,everywhere (.changeStrategy [0]),
    everywhere (.other (.strategyAction (.sendInterest 0 ⟨3,false⟩ none))),requestFrom 2 9]

/-- The timer that is left draws from an empty interval. -/
theorem changedTwice_empty_interval :
    Steps (attempt (step fun _ _ => false)) (fun state _ => ∀ current, state = some current → current.ncc.ValidIds)
      (some new) (changedTwice ++ [everywhere nextTimer]) ∧
    ¬ Steps (attempt (step fun _ _ => false)) (fun state event => ∀ current, state = some current → current.WellDefined event)
      (some new) (changedTwice ++ [everywhere nextTimer]) := by
  refine ⟨by decide +kernel,?_⟩
  intro wellDefined
  have last := wellDefined changedTwice (everywhere nextTimer) List.prefix_rfl
  have facts : ((run (attempt (step fun _ _ => false)) (some new) changedTwice).bind fun state =>
      (state.read ⟨fun _ => true,fun _ => true⟩ nextTimer).map fun found =>
        state.ncc.drawsFrom (nextTimer.withMeasured ⟨fun _ => true,fun _ => true⟩ found.1)) = some (some 0) := by
    decide +kernel
  obtain ⟨state,reached,rest⟩ := Option.bind_eq_some_iff.mp facts
  obtain ⟨⟨measured,measurements⟩,done,drawn⟩ := Option.map_eq_some_iff.mp rest
  exact absurd ((last state reached measured measurements done).2 0 drawn) (by decide)

end NccStrategy

end Ncfcc.Nfd.Fw
