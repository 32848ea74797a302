import Mathlib.Logic.Relation
import Ncfcc.Nfd.Fw.PitTimers

/-! What the pipelines can do, in small changes. Every event of a run is a chain of them,
so that an invariant of the records and of what leaves the forwarder needs one case
for each kind of change and none for the pipelines. -/
namespace Ncfcc.Nfd.Fw
open Ncfcc.Library Ncfcc.Nfd.Table
open Ncfcc.Cs (FreshData Time milliSeconds)

/-- The Interest and the records stay, and an erased entry does not come back. -/
structure KeepsRecords (change : PitEntry → PitEntry) : Prop where
  interest : ∀ found, (change found).interest = found.interest
  inRecords : ∀ found, (change found).inRecords = found.inRecords
  outRecords : ∀ found, (change found).outRecords = found.outRecords
  inPit : ∀ found, (change found).inPit = true → found.inPit = true

namespace Forwarder

/-- One small change of a pipeline, in which only entries in `satisfied` lose records. -/
inductive Change (satisfied : Nat → Prop) (forwarder : Forwarder) : Forwarder → Prop where
  | surroundings (now : Time) (faceTable : List Face) (deadNonceList : DeadNonceList) :
      Change satisfied forwarder { forwarder with now, faceTable, deadNonceList }
  /-- Timers are set or cancelled, or the entry is erased. -/
  | timers (entry : Nat) (change : PitEntry → PitEntry) (keeps : KeepsRecords change) :
      Change satisfied forwarder (forwarder.modify entry change)
  | pitInsert (interest : Interest) (free : ∀ found ∈ forwarder.entries, isFor interest found = false) :
      Change satisfied forwarder { forwarder with entries := forwarder.entries ++ [.new interest] }
  | inRecord (entry : Nat) (inFace : Face) (interest : Interest) (found : PitEntry)
      (there : forwarder.entries[entry]? = some found) (name : interest.name = found.interest.name)
      (selectors : interest.selectors = found.interest.selectors) :
      Change satisfied forwarder
        (forwarder.modify entry (PitEntry.insertOrUpdateInRecord inFace interest forwarder.now))
  | sendInterest (entry : Nat) (outFace : Face) (interest : Interest) (found : PitEntry) (picked : InRecord)
      (there : forwarder.entries[entry]? = some found) (scope : found.violatesScope outFace = false)
      (member : picked ∈ found.inRecords) (name : interest.name = picked.interest.name)
      (selectors : interest.selectors = picked.interest.selectors) :
      Change satisfied forwarder (emit (.interest outFace interest entry found)
        (forwarder.modify entry (PitEntry.insertOrUpdateOutRecord outFace interest forwarder.now)))
  | sendData (outFace : Face) (data : FreshData) (scope : violatesLocalhost outFace data.name = false) :
      Change satisfied forwarder (forwarder.emit (.data outFace data))
  | csInsert (data : FreshData) (isUnsolicited : Bool) :
      Change satisfied forwarder (forwarder.emit (.csInsert data isUnsolicited))
  /-- Data from `inFace` marks the entry satisfied. -/
  | satisfy (entry : Nat) (inFace : Face) (allowed : satisfied entry) :
      Change satisfied forwarder
        (forwarder.modify entry fun found => found.deleteInRecords.deleteOutRecord inFace)

abbrev Changes (satisfied : Nat → Prop) : Forwarder → Forwarder → Prop :=
  Relation.ReflTransGen (Change satisfied)

def Satisfies (matchesData : Interest → FreshData → Bool) (entry : Nat) (forwarder : Forwarder) : Event → Prop
  | .incomingData inFace data _ => violatesLocalhost inFace data.name = false ∧
    entry ∈ forwarder.findAllDataMatches matchesData data
  | _ => False

section
variable {satisfied : Nat → Prop} {forwarder after : Forwarder} {entry : Nat}

/-- Invariant rule: what every small change keeps, a chain of them keeps. -/
theorem Changes.invariant {P : Forwarder → Prop} (kept : ∀ first second, P first → Change satisfied first second → P second)
    (changes : Changes satisfied forwarder after) (start : P forwarder) : P after := by
  induction changes with
  | refl => exact start
  | tail _ last ih => exact kept _ _ ih last

theorem Changes.to_timers {change : PitEntry → PitEntry} (changes : Changes satisfied forwarder after) (entry : Nat)
    (keeps : KeepsRecords change) : Changes satisfied forwarder (after.modify entry change) :=
  changes.tail (.timers entry change keeps)

theorem Changes.to_deadNonceList (changes : Changes satisfied forwarder after) (entry : Nat) (isSatisfied : Bool)
    (dataFreshnessPeriod : Int) (upstream : Option Face) : Changes satisfied forwarder
      (after.insertDeadNonceList entry isSatisfied dataFreshnessPeriod upstream) := by
  unfold insertDeadNonceList
  split
  · exact changes
  · split
    · exact changes.tail (.surroundings after.now after.faceTable _)
    · exact changes

private theorem keepsRecords_cancel :
    KeepsRecords fun found => { found with unsatisfyTimer := none, stragglerTimer := none } :=
  ⟨fun _ => rfl,fun _ => rfl,fun _ => rfl,fun _ => id⟩

private theorem keepsRecords_unsatisfyTimer (timer : Option Time) :
    KeepsRecords fun found => { found with unsatisfyTimer := timer } :=
  ⟨fun _ => rfl,fun _ => rfl,fun _ => rfl,fun _ => id⟩

private theorem keepsRecords_stragglerTimer (timer : Option StragglerTimer) :
    KeepsRecords fun found => { found with stragglerTimer := timer } :=
  ⟨fun _ => rfl,fun _ => rfl,fun _ => rfl,fun _ => id⟩

private theorem keepsRecords_erase : KeepsRecords fun found => { found with inPit := false } :=
  ⟨fun _ => rfl,fun _ => rfl,fun _ => rfl,fun _ impossible => nomatch impossible⟩

/-! Strategies. -/

private theorem mem_of_foldl_pick {α : Type} (less : α → α → Bool) (items : List α) (first : α) :
    items.foldl (fun largest next => if less largest next then next else largest) first ∈ first :: items := by
  induction items generalizing first with
  | nil => exact List.mem_singleton_self first
  | cons item items ih =>
    rw [List.foldl_cons]
    cases less first item with
    | false => exact List.mem_cons.mpr ((List.mem_cons.mp (ih first)).imp id (List.mem_cons_of_mem item))
    | true => exact List.mem_cons_of_mem first (ih item)

theorem mem_of_maxElement {α : Type} {less : α → α → Bool} {items : List α} {largest : α}
    (found : maxElement less items = some largest) : largest ∈ items := by
  cases items with
  | nil => cases found
  | cons first items =>
    cases found
    exact mem_of_foldl_pick less items first

theorem onOutgoingInterest_changes {outFace : Face} {nonce : Option UInt32}
    (sent : forwarder.onOutgoingInterest entry outFace nonce = some after) : Changes satisfied forwarder after := by
  unfold onOutgoingInterest at sent
  split at sent
  · cases sent
    exact .refl
  · obtain ⟨found,there,rest⟩ := Option.bind_eq_some_iff.mp sent
    split at rest
    · cases rest
      exact .refl
    · rename_i scope
      obtain ⟨picked,best,same⟩ := Option.bind_eq_some_iff.mp rest
      cases same
      have member := mem_of_maxElement best
      cases nonce with
      | none =>
        exact .single (.sendInterest entry outFace picked.interest found picked there (Bool.not_eq_true _ ▸ scope)
          member rfl rfl)
      | some nonce =>
        exact .single (.sendInterest entry outFace { picked.interest with nonce } found picked there
          (Bool.not_eq_true _ ▸ scope) member rfl rfl)

theorem onInterestReject_changes (rejected : forwarder.onInterestReject entry = some after) :
    Changes satisfied forwarder after := by
  unfold onInterestReject at rejected
  obtain ⟨found,-,rest⟩ := Option.bind_eq_some_iff.mp rejected
  split at rest
  · cases rest
    exact .refl
  · cases rest
    have cancelled : Changes satisfied forwarder (forwarder.cancelUnsatisfyAndStragglerTimer entry) :=
      Changes.to_timers .refl entry keepsRecords_cancel
    exact cancelled.to_timers entry (keepsRecords_stragglerTimer _)

private theorem act_changes {action : StrategyAction} (acted : forwarder.act action = some after) :
    Changes satisfied forwarder after := by
  cases action with
  | sendInterest entry outFace nonce => exact onOutgoingInterest_changes acted
  | rejectPendingInterest entry => exact onInterestReject_changes acted

private theorem actions_changes (actions : List StrategyAction) (forwarder : Forwarder)
    (acted : actions.foldlM act forwarder = some after) : Changes satisfied forwarder after := by
  induction actions generalizing forwarder with
  | nil =>
    cases acted
    exact .refl
  | cons action actions ih =>
    rw [List.foldlM_cons] at acted
    obtain ⟨between,first,rest⟩ := Option.bind_eq_some_iff.mp acted
    exact (act_changes first).trans (ih between rest)

private theorem dispatchToStrategy_changes {strategy : Strategy}
    (dispatched : forwarder.dispatchToStrategy entry strategy = some after) : Changes satisfied forwarder after :=
  actions_changes _ forwarder dispatched

/-! Pipelines. -/

private theorem onOutgoingData_changes (data : FreshData) (outFace : Face) (forwarder : Forwarder) :
    Changes satisfied forwarder (forwarder.onOutgoingData data outFace) := by
  unfold onOutgoingData
  split
  · exact .refl
  · split
    · exact .refl
    · rename_i scope
      exact .single (.sendData outFace data (Bool.not_eq_true _ ▸ scope))

private theorem sendAll_changes (data : FreshData) (faces : List Face) (forwarder : Forwarder) :
    Changes satisfied forwarder (faces.foldl (fun forwarder face => forwarder.onOutgoingData data face) forwarder) := by
  induction faces generalizing forwarder with
  | nil => exact .refl
  | cons face faces ih => exact (onOutgoingData_changes data face forwarder).trans (ih _)

private theorem setUnsatisfyTimer_changes (set : forwarder.setUnsatisfyTimer entry = some after) :
    Changes satisfied forwarder after := by
  unfold setUnsatisfyTimer at set
  obtain ⟨found,-,rest⟩ := Option.bind_eq_some_iff.mp set
  obtain ⟨last,-,same⟩ := Option.bind_eq_some_iff.mp rest
  cases same
  exact Changes.to_timers .refl entry (keepsRecords_unsatisfyTimer _)

private theorem onContentStoreMiss_changes {inFace : Face} {interest : Interest} {strategy : Strategy} {found : PitEntry}
    (there : forwarder.entries[entry]? = some found) (name : interest.name = found.interest.name)
    (selectors : interest.selectors = found.interest.selectors)
    (missed : forwarder.onContentStoreMiss inFace entry interest strategy = some after) :
    Changes satisfied forwarder after := by
  obtain ⟨waiting,set,dispatched⟩ := Option.bind_eq_some_iff.mp missed
  have recorded : Changes satisfied forwarder
      (forwarder.modify entry (PitEntry.insertOrUpdateInRecord inFace interest forwarder.now)) :=
    .single (.inRecord entry inFace interest found there name selectors)
  exact (recorded.trans (setUnsatisfyTimer_changes set)).trans (dispatchToStrategy_changes dispatched)

private theorem onContentStoreHit_changes {inFace : Face} {data : FreshData} {strategy : Strategy}
    (hit : forwarder.onContentStoreHit inFace entry data strategy = some after) :
    Changes satisfied forwarder after := by
  obtain ⟨told,dispatched,same⟩ := Option.bind_eq_some_iff.mp hit
  cases same
  have acted : Changes satisfied forwarder told := dispatchToStrategy_changes dispatched
  have timed := acted.to_timers entry
    (keepsRecords_stragglerTimer (some ⟨told.now + milliSeconds 100,true,data.freshnessPeriod⟩))
  exact timed.trans (onOutgoingData_changes data inFace _)

private theorem onInterestFinalize_changes {isSatisfied : Bool} {dataFreshnessPeriod : Int}
    (finalized : forwarder.onInterestFinalize entry isSatisfied dataFreshnessPeriod = some after) :
    Changes satisfied forwarder after := by
  have listed : Changes satisfied forwarder
      (forwarder.insertDeadNonceList entry isSatisfied dataFreshnessPeriod none) :=
    Changes.to_deadNonceList .refl entry isSatisfied dataFreshnessPeriod none
  have cancelled := listed.to_timers entry keepsRecords_cancel
  unfold onInterestFinalize pitErase at finalized
  dsimp only at finalized
  split at finalized
  · cases finalized
  · split at finalized
    · cases finalized
      exact cancelled.to_timers entry keepsRecords_erase
    · cases finalized

private theorem onInterestUnsatisfied_changes {strategy : Strategy}
    (unsatisfied : forwarder.onInterestUnsatisfied entry strategy = some after) : Changes satisfied forwarder after := by
  obtain ⟨told,dispatched,finalized⟩ := Option.bind_eq_some_iff.mp unsatisfied
  exact (dispatchToStrategy_changes dispatched).trans (onInterestFinalize_changes finalized)

private theorem satisfy_changes {inFace : Face} {data : FreshData} {strategy : Strategy} {state final : List Face × Forwarder}
    (allowed : satisfied entry) (done : satisfy inFace data strategy state entry = some final) :
    Changes satisfied state.2 final.2 := by
  unfold satisfy at done
  obtain ⟨found,-,rest⟩ := Option.bind_eq_some_iff.mp done
  obtain ⟨told,dispatched,same⟩ := Option.bind_eq_some_iff.mp rest
  cases same
  have cancelled : Changes satisfied state.2 (state.2.cancelUnsatisfyAndStragglerTimer entry) :=
    Changes.to_timers .refl entry keepsRecords_cancel
  have acted : Changes satisfied state.2 told := cancelled.trans (dispatchToStrategy_changes dispatched)
  have listed := acted.to_deadNonceList entry true data.freshnessPeriod (some inFace)
  have marked : Changes satisfied state.2 _ := listed.tail (.satisfy entry inFace allowed)
  exact marked.to_timers entry (keepsRecords_stragglerTimer _)

private theorem satisfyAll_changes {inFace : Face} {data : FreshData} {strategy : Strategy} (pitMatches : List Nat)
    (state final : List Face × Forwarder) (allowed : ∀ entry ∈ pitMatches, satisfied entry)
    (done : pitMatches.foldlM (satisfy inFace data strategy) state = some final) :
    Changes satisfied state.2 final.2 := by
  induction pitMatches generalizing state with
  | nil =>
    cases done
    exact .refl
  | cons entry pitMatches ih =>
    rw [List.foldlM_cons] at done
    obtain ⟨between,first,rest⟩ := Option.bind_eq_some_iff.mp done
    have here := satisfy_changes (allowed entry List.mem_cons_self) first
    exact here.trans (ih between (fun other member => allowed other (List.mem_cons_of_mem _ member)) rest)

theorem onIncomingData_changes {matchesData : Interest → FreshData → Bool} {inFace : Face} {data : FreshData}
    {strategy : Strategy} (received : forwarder.onIncomingData matchesData inFace data strategy = some after) :
    Changes (fun entry => forwarder.Satisfies matchesData entry (.incomingData inFace data strategy)) forwarder after := by
  unfold onIncomingData at received
  split at received
  · cases received
    exact .refl
  · rename_i scope
    split at received
    · cases received
      unfold onDataUnsolicited
      split
      · exact .single (.csInsert data true)
      · exact .refl
    · obtain ⟨⟨downstreams,told⟩,looped,same⟩ := Option.bind_eq_some_iff.mp received
      cases same
      refine (Relation.ReflTransGen.single (.csInsert data false)).trans (.trans ?_ (sendAll_changes data _ told))
      apply satisfyAll_changes _ _ _ _ looped
      intro entry member
      exact ⟨Bool.not_eq_true _ ▸ scope,member⟩

private theorem proceed_changes {inFace : Face} {interest : Interest} {cached : Option FreshData} {strategy : Strategy}
    {old found : PitEntry} (there : forwarder.entries[entry]? = some found)
    (name : interest.name = found.interest.name) (selectors : interest.selectors = found.interest.selectors)
    (proceeded : forwarder.proceed inFace interest cached strategy entry old = some after) :
    Changes satisfied forwarder after := by
  unfold proceed at proceeded
  split at proceeded
  · split at proceeded
    · exact onContentStoreHit_changes proceeded
    · exact onContentStoreMiss_changes there name selectors proceeded
  · exact onContentStoreMiss_changes there name selectors proceeded

private theorem pitInsert_changes (satisfied : Nat → Prop) (interest : Interest) (forwarder : Forwarder) :
    ∃ entry inserted found, forwarder.pitInsert interest = (entry,inserted) ∧ Changes satisfied forwarder inserted ∧
      inserted.entries[entry]? = some found ∧ isFor interest found = true := by
  rcases pitInsert_cases interest forwarder with ⟨entry,found,there,fits,made⟩ | ⟨free,made⟩
  · exact ⟨entry,forwarder,found,made,.refl,there,fits⟩
  · refine ⟨_,_,.new interest,made,.single (.pitInsert interest free),by simp,?_⟩
    simp [isFor,PitEntry.new]

theorem isFor_spec {interest : Interest} {found : PitEntry} (fits : isFor interest found = true) :
    found.inPit = true ∧ interest.name = found.interest.name ∧ interest.selectors = found.interest.selectors := by
  simp only [isFor,Bool.and_eq_true,decide_eq_true_eq] at fits
  exact ⟨fits.1.1,fits.1.2.symm,fits.2.symm⟩

theorem onIncomingInterest_changes {inFace : Face} {interest : Interest} {cached : Option FreshData}
    {strategy : Strategy} (received : forwarder.onIncomingInterest inFace interest cached strategy = some after) :
    Changes satisfied forwarder after := by
  cases scope : violatesLocalhost inFace interest.name with
  | true =>
    unfold onIncomingInterest at received
    rw [scope] at received
    cases received
    exact .refl
  | false =>
    obtain ⟨entry,inserted,found,made,changes,there,fits⟩ := pitInsert_changes satisfied interest forwarder
    obtain ⟨-,name,selectors⟩ := isFor_spec fits
    rw [onIncomingInterest_eq cached strategy scope made there] at received
    split at received
    · cases received
      exact changes
    · have cancelled := changes.to_timers entry keepsRecords_cancel
      have kept := modify_same entry
        (fun found => { found with unsatisfyTimer := none, stragglerTimer := none }) inserted
      rw [there] at kept
      exact cancelled.trans (proceed_changes kept name selectors received)

/-- Every event of a run is a chain of small changes. -/
theorem step_changes {matchesData : Interest → FreshData → Bool} (timed : Time × Event)
    (stepped : forwarder.step matchesData timed = some after) :
    Changes (fun entry => forwarder.Satisfies matchesData entry timed.2) forwarder after := by
  obtain ⟨now,event⟩ := timed
  have start : ∀ satisfied, Changes satisfied forwarder { forwarder with now } :=
    fun _ => .single (.surroundings now forwarder.faceTable forwarder.deadNonceList)
  cases event with
  | incomingInterest inFace interest cached strategy => exact (start _).trans (onIncomingInterest_changes stepped)
  | incomingData inFace data strategy => exact (start _).trans (onIncomingData_changes stepped)
  | strategyAction action => exact (start _).trans (act_changes stepped)
  | unsatisfyTimer entry strategy =>
    obtain ⟨found,-,rest⟩ := Option.bind_eq_some_iff.mp stepped
    split at rest
    · exact ((start _).to_timers entry (keepsRecords_unsatisfyTimer none)).trans (onInterestUnsatisfied_changes rest)
    · cases rest
  | stragglerTimer entry =>
    obtain ⟨found,-,rest⟩ := Option.bind_eq_some_iff.mp stepped
    obtain ⟨timer,-,last⟩ := Option.bind_eq_some_iff.mp rest
    split at last
    · exact ((start _).to_timers entry (keepsRecords_stragglerTimer none)).trans (onInterestFinalize_changes last)
    · cases last
  | mark =>
    cases stepped
    exact .single (.surroundings now forwarder.faceTable _)
  | adjustCapacity =>
    cases stepped
    exact .single (.surroundings now forwarder.faceTable _)
  | addFace face =>
    cases stepped
    exact .single (.surroundings now _ forwarder.deadNonceList)
  | removeFace face =>
    cases stepped
    exact .single (.surroundings now _ forwarder.deadNonceList)

end

end Forwarder

end Ncfcc.Nfd.Fw
