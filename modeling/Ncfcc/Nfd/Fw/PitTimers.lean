import Ncfcc.Nfd.Fw.Forwarder

/-! The timers of PIT entries. Every pipeline that takes a timer away sets one again or
erases the entry; only the entry that a looped Interest has just inserted gets none. -/
namespace Ncfcc.Nfd.Fw
open Ncfcc.Library Ncfcc.Nfd.Table
open Ncfcc.Cs (FreshData Time milliSeconds)

/-- An entry in the PIT has a pending unsatisfy or straggler timer. -/
def Timed (entry : PitEntry) : Prop :=
  entry.inPit = true → entry.unsatisfyTimer ≠ none ∨ entry.stragglerTimer ≠ none

namespace Forwarder

def AllTimed (forwarder : Forwarder) : Prop := ∀ entry ∈ forwarder.entries, Timed entry

def TimedBut (entry : Nat) (forwarder : Forwarder) : Prop :=
  ∀ (other : Nat) (found : PitEntry), other ≠ entry → forwarder.entries[other]? = some found → Timed found

def Keeps (before after : Forwarder) : Prop :=
  ∀ (entry : Nat) (found : PitEntry), after.entries[entry]? = some found →
    ∃ old, before.entries[entry]? = some old ∧ (Timed old → Timed found)

/-- No Interest without a PIT entry has a nonce in the Dead Nonce List. -/
def Unlooped (forwarder : Forwarder) : Event → Prop
  | .incomingInterest inFace interest _ _ => ¬ (violatesLocalhost inFace interest.name = false ∧
    (∀ found ∈ forwarder.entries, isFor interest found = false) ∧
    forwarder.deadNonceList.has interest.name interest.nonce = true)
  | _ => True

section
variable {before after forwarder : Forwarder} {entry : Nat}

private theorem allTimed_iff : forwarder.AllTimed ↔
    ∀ (entry : Nat) (found : PitEntry), forwarder.entries[entry]? = some found → Timed found := by
  constructor
  · intro all entry found there
    exact all found (List.mem_of_getElem? there)
  · intro all found inside
    obtain ⟨entry,there⟩ := List.mem_iff_getElem?.mp inside
    exact all entry found there

theorem AllTimed.but (all : forwarder.AllTimed) (entry : Nat) : forwarder.TimedBut entry := by
  intro other found _ there
  exact allTimed_iff.mp all other found there

theorem Keeps.refl (forwarder : Forwarder) : forwarder.Keeps forwarder :=
  fun _ found there => ⟨found,there,id⟩

theorem Keeps.trans {middle : Forwarder} (first : before.Keeps middle) (second : middle.Keeps after) :
    before.Keeps after := by
  intro entry found there
  obtain ⟨between,here,timed⟩ := second entry found there
  obtain ⟨old,earlier,still⟩ := first entry between here
  exact ⟨old,earlier,fun holds => timed (still holds)⟩

theorem Keeps.allTimed (keeps : before.Keeps after) (all : before.AllTimed) : after.AllTimed := by
  rw [allTimed_iff] at all ⊢
  intro entry found there
  obtain ⟨old,earlier,still⟩ := keeps entry found there
  exact still (all entry old earlier)

theorem Keeps.timedBut (keeps : before.Keeps after) (all : before.TimedBut entry) : after.TimedBut entry := by
  intro other found apart there
  obtain ⟨old,earlier,still⟩ := keeps other found there
  exact still (all other old apart earlier)

@[simp] theorem modify_same (entry : Nat) (change : PitEntry → PitEntry) (forwarder : Forwarder) :
    (forwarder.modify entry change).entries[entry]? = forwarder.entries[entry]?.map change :=
  List.getElem?_modify_eq change entry forwarder.entries

theorem modify_other {entry other : Nat} (apart : other ≠ entry) (change : PitEntry → PitEntry)
    (forwarder : Forwarder) : (forwarder.modify entry change).entries[other]? = forwarder.entries[other]? :=
  List.getElem?_modify_ne change forwarder.entries apart.symm

private theorem modify_keeps (entry : Nat) {change : PitEntry → PitEntry}
    (still : ∀ found, Timed found → Timed (change found)) (forwarder : Forwarder) :
    forwarder.Keeps (forwarder.modify entry change) := by
  intro other found there
  by_cases same : other = entry
  · rw [same,modify_same] at there
    obtain ⟨old,earlier,rfl⟩ := Option.map_eq_some_iff.mp there
    rw [same]
    exact ⟨old,earlier,still old⟩
  · rw [modify_other same] at there
    exact ⟨found,there,id⟩

theorem TimedBut.modify (all : forwarder.TimedBut entry) (change : PitEntry → PitEntry) :
    (forwarder.modify entry change).TimedBut entry := by
  intro other found apart there
  rw [modify_other apart] at there
  exact all other found apart there

/-- A change after which the one entry has a timer, or is not in the PIT. -/
theorem TimedBut.restore (all : forwarder.TimedBut entry) {change : PitEntry → PitEntry}
    (timed : ∀ found, Timed (change found)) : (forwarder.modify entry change).AllTimed := by
  rw [allTimed_iff]
  intro other found there
  by_cases same : other = entry
  · rw [same,modify_same] at there
    obtain ⟨old,-,rfl⟩ := Option.map_eq_some_iff.mp there
    exact timed old
  · exact all.modify change other found same there

private theorem setStragglerTimer_allTimed (all : forwarder.TimedBut entry) (isSatisfied : Bool)
    (dataFreshnessPeriod : Int) : (forwarder.setStragglerTimer entry isSatisfied dataFreshnessPeriod).AllTimed :=
  all.restore fun _ _ => Or.inr (Option.some_ne_none _)

private theorem setUnsatisfyTimer_allTimed (all : forwarder.TimedBut entry)
    (set : forwarder.setUnsatisfyTimer entry = some after) : after.AllTimed := by
  unfold setUnsatisfyTimer at set
  obtain ⟨found,-,rest⟩ := Option.bind_eq_some_iff.mp set
  obtain ⟨last,-,same⟩ := Option.bind_eq_some_iff.mp rest
  cases same
  exact all.restore fun _ _ => Or.inl (Option.some_ne_none _)

/-! Strategies. -/

private theorem onOutgoingInterest_keeps {outFace : Face} {nonce : Option UInt32}
    (sent : forwarder.onOutgoingInterest entry outFace nonce = some after) : forwarder.Keeps after := by
  unfold onOutgoingInterest at sent
  split at sent
  · cases sent
    exact Keeps.refl _
  · obtain ⟨found,-,rest⟩ := Option.bind_eq_some_iff.mp sent
    split at rest
    · cases rest
      exact Keeps.refl _
    · obtain ⟨picked,-,same⟩ := Option.bind_eq_some_iff.mp rest
      cases same
      exact modify_keeps entry (fun found timed => show Timed (found.insertOrUpdateOutRecord _ _ _) from timed) forwarder

private theorem onInterestReject_keeps (rejected : forwarder.onInterestReject entry = some after) :
    forwarder.Keeps after := by
  unfold onInterestReject at rejected
  obtain ⟨found,-,rest⟩ := Option.bind_eq_some_iff.mp rejected
  split at rest
  · cases rest
    exact Keeps.refl _
  · cases rest
    intro other found there
    by_cases same : other = entry
    · rw [same] at there ⊢
      unfold setStragglerTimer cancelUnsatisfyAndStragglerTimer at there
      rw [modify_same,modify_same] at there
      obtain ⟨cancelled,here,rfl⟩ := Option.map_eq_some_iff.mp there
      obtain ⟨old,earlier,-⟩ := Option.map_eq_some_iff.mp here
      exact ⟨old,earlier,fun _ _ => Or.inr (Option.some_ne_none _)⟩
    · unfold setStragglerTimer cancelUnsatisfyAndStragglerTimer at there
      rw [modify_other same,modify_other same] at there
      exact ⟨found,there,id⟩

private theorem act_keeps {action : StrategyAction} (acted : forwarder.act action = some after) :
    forwarder.Keeps after := by
  cases action with
  | sendInterest entry outFace nonce => exact onOutgoingInterest_keeps acted
  | rejectPendingInterest entry => exact onInterestReject_keeps acted

private theorem actions_keeps (actions : List StrategyAction) (forwarder : Forwarder)
    (acted : actions.foldlM act forwarder = some after) : forwarder.Keeps after := by
  induction actions generalizing forwarder with
  | nil =>
    cases acted
    exact Keeps.refl _
  | cons action actions ih =>
    rw [List.foldlM_cons] at acted
    obtain ⟨between,first,rest⟩ := Option.bind_eq_some_iff.mp acted
    exact (act_keeps first).trans (ih between rest)

private theorem dispatchToStrategy_keeps {strategy : Strategy}
    (dispatched : forwarder.dispatchToStrategy entry strategy = some after) : forwarder.Keeps after :=
  actions_keeps _ forwarder dispatched

/-! Pipelines. -/

private theorem onOutgoingData_entries (data : FreshData) (outFace : Face) (forwarder : Forwarder) :
    (forwarder.onOutgoingData data outFace).entries = forwarder.entries := by
  unfold onOutgoingData
  split
  · rfl
  · split <;> rfl

theorem insertDeadNonceList_entries (entry : Nat) (isSatisfied : Bool) (dataFreshnessPeriod : Int)
    (upstream : Option Face) (forwarder : Forwarder) :
    (forwarder.insertDeadNonceList entry isSatisfied dataFreshnessPeriod upstream).entries = forwarder.entries := by
  unfold insertDeadNonceList
  split
  · rfl
  · split <;> rfl

theorem AllTimed.of_entries (all : before.AllTimed) (same : after.entries = before.entries) : after.AllTimed := by
  unfold AllTimed
  rw [same]
  exact all

theorem TimedBut.of_entries (all : before.TimedBut entry) (same : after.entries = before.entries) :
    after.TimedBut entry := by
  unfold TimedBut
  rw [same]
  exact all

private theorem onContentStoreMiss_allTimed (all : forwarder.TimedBut entry) {inFace : Face} {interest : Interest}
    {strategy : Strategy} (missed : forwarder.onContentStoreMiss inFace entry interest strategy = some after) :
    after.AllTimed := by
  obtain ⟨waiting,set,dispatched⟩ := Option.bind_eq_some_iff.mp missed
  have timed := setUnsatisfyTimer_allTimed (all.modify _) set
  exact (dispatchToStrategy_keeps dispatched).allTimed timed

private theorem onContentStoreHit_allTimed (all : forwarder.TimedBut entry) {inFace : Face} {data : FreshData}
    {strategy : Strategy} (hit : forwarder.onContentStoreHit inFace entry data strategy = some after) :
    after.AllTimed := by
  obtain ⟨told,dispatched,same⟩ := Option.bind_eq_some_iff.mp hit
  cases same
  have others := (dispatchToStrategy_keeps dispatched).timedBut all
  exact (setStragglerTimer_allTimed others true data.freshnessPeriod).of_entries (onOutgoingData_entries _ _ _)

private theorem pitErase_allTimed (all : forwarder.TimedBut entry) (erased : forwarder.pitErase entry = some after) :
    after.AllTimed := by
  unfold pitErase at erased
  split at erased
  · cases erased
  · split at erased
    · cases erased
      exact all.restore fun _ inPit => by cases inPit
    · cases erased

private theorem onInterestFinalize_allTimed (all : forwarder.TimedBut entry) {isSatisfied : Bool}
    {dataFreshnessPeriod : Int}
    (finalized : forwarder.onInterestFinalize entry isSatisfied dataFreshnessPeriod = some after) :
    after.AllTimed := by
  have listed := all.of_entries (insertDeadNonceList_entries entry isSatisfied dataFreshnessPeriod none forwarder)
  exact pitErase_allTimed (listed.modify _) finalized

private theorem onInterestUnsatisfied_allTimed (all : forwarder.TimedBut entry) {strategy : Strategy}
    (unsatisfied : forwarder.onInterestUnsatisfied entry strategy = some after) : after.AllTimed := by
  obtain ⟨told,dispatched,finalized⟩ := Option.bind_eq_some_iff.mp unsatisfied
  exact onInterestFinalize_allTimed ((dispatchToStrategy_keeps dispatched).timedBut all) finalized

private theorem satisfy_allTimed {inFace : Face} {data : FreshData} {strategy : Strategy} {state final : List Face × Forwarder}
    (all : state.2.AllTimed) (satisfied : satisfy inFace data strategy state entry = some final) :
    final.2.AllTimed := by
  unfold satisfy at satisfied
  obtain ⟨found,-,rest⟩ := Option.bind_eq_some_iff.mp satisfied
  obtain ⟨told,dispatched,same⟩ := Option.bind_eq_some_iff.mp rest
  cases same
  have others := (dispatchToStrategy_keeps dispatched).timedBut ((all.but entry).modify _)
  have listed := others.of_entries (insertDeadNonceList_entries entry true data.freshnessPeriod (some inFace) told)
  exact setStragglerTimer_allTimed (listed.modify _) true data.freshnessPeriod

private theorem satisfyAll_allTimed {inFace : Face} {data : FreshData} {strategy : Strategy} (pitMatches : List Nat)
    (state final : List Face × Forwarder) (all : state.2.AllTimed)
    (satisfied : pitMatches.foldlM (satisfy inFace data strategy) state = some final) : final.2.AllTimed := by
  induction pitMatches generalizing state with
  | nil =>
    cases satisfied
    exact all
  | cons entry pitMatches ih =>
    rw [List.foldlM_cons] at satisfied
    obtain ⟨between,first,rest⟩ := Option.bind_eq_some_iff.mp satisfied
    exact ih between (satisfy_allTimed all first) rest

private theorem sendAll_entries (data : FreshData) (faces : List Face) (forwarder : Forwarder) :
    (faces.foldl (fun forwarder face => forwarder.onOutgoingData data face) forwarder).entries =
      forwarder.entries := by
  induction faces generalizing forwarder with
  | nil => rfl
  | cons face faces ih => exact (ih _).trans (onOutgoingData_entries data face forwarder)

private theorem onIncomingData_allTimed {matchesData : Interest → FreshData → Bool} {inFace : Face} {data : FreshData}
    {strategy : Strategy} (all : forwarder.AllTimed)
    (received : forwarder.onIncomingData matchesData inFace data strategy = some after) : after.AllTimed := by
  unfold onIncomingData at received
  split at received
  · cases received
    exact all
  · split at received
    · cases received
      unfold onDataUnsolicited
      split
      · exact all
      · exact all
    · obtain ⟨⟨downstreams,satisfied⟩,looped,same⟩ := Option.bind_eq_some_iff.mp received
      cases same
      have timed := satisfyAll_allTimed _ _ _ all looped
      exact timed.of_entries (sendAll_entries data _ satisfied)

/-! The incoming Interest pipeline. -/

theorem pitInsert_cases (interest : Interest) (forwarder : Forwarder) :
    (∃ entry found, forwarder.entries[entry]? = some found ∧ isFor interest found = true ∧
      forwarder.pitInsert interest = (entry,forwarder)) ∨
    ((∀ found ∈ forwarder.entries, isFor interest found = false) ∧
      forwarder.pitInsert interest =
        (forwarder.entries.length,{ forwarder with entries := forwarder.entries ++ [.new interest] })) := by
  unfold pitInsert
  cases place : forwarder.entries.findIdx? (isFor interest) with
  | some entry =>
    obtain ⟨inside,fits,-⟩ := List.findIdx?_eq_some_iff_getElem.mp place
    exact Or.inl ⟨entry,_,List.getElem?_eq_getElem inside,fits,rfl⟩
  | none => exact Or.inr ⟨List.findIdx?_eq_none_iff.mp place,rfl⟩

private theorem new_findNonce (interest : Interest) (nonce : UInt32) (face : Face) :
    (PitEntry.new interest).findNonce nonce face = 0 := rfl

/-- The pipeline behind the loop detection. -/
def proceed (inFace : Face) (interest : Interest) (cached : Option FreshData) (strategy : Strategy) (entry : Nat)
    (found : PitEntry) (forwarder : Forwarder) : Option Forwarder :=
  if found.inRecords.isEmpty then
    match cached with
    | some data => forwarder.onContentStoreHit inFace entry data strategy
    | none => forwarder.onContentStoreMiss inFace entry interest strategy
  else forwarder.onContentStoreMiss inFace entry interest strategy

private theorem proceed_allTimed (all : forwarder.TimedBut entry) {inFace : Face} {interest : Interest}
    {cached : Option FreshData} {strategy : Strategy} {found : PitEntry}
    (proceeded : forwarder.proceed inFace interest cached strategy entry found = some after) : after.AllTimed := by
  unfold proceed at proceeded
  split at proceeded
  · split at proceeded
    · exact onContentStoreHit_allTimed all proceeded
    · exact onContentStoreMiss_allTimed all proceeded
  · exact onContentStoreMiss_allTimed all proceeded

/-- What the pipeline does with an Interest in scope, once its entry is found. -/
theorem onIncomingInterest_eq {inFace : Face} {interest : Interest} (cached : Option FreshData)
    (strategy : Strategy) (scope : violatesLocalhost inFace interest.name = false) {inserted : Forwarder}
    (made : forwarder.pitInsert interest = (entry,inserted)) {found : PitEntry}
    (there : inserted.entries[entry]? = some found) :
    forwarder.onIncomingInterest inFace interest cached strategy =
      if inserted.hasDuplicateNonce inFace interest found then some inserted
      else (inserted.cancelUnsatisfyAndStragglerTimer entry).proceed inFace interest cached strategy entry found := by
  unfold onIncomingInterest
  simp only [scope,made,there]
  rfl

private theorem onIncomingInterest_allTimed (all : forwarder.AllTimed) {inFace : Face} {interest : Interest}
    {cached : Option FreshData} {strategy : Strategy} (scope : violatesLocalhost inFace interest.name = false)
    (received : forwarder.onIncomingInterest inFace interest cached strategy = some after) :
    after.AllTimed ↔ forwarder.Unlooped (.incomingInterest inFace interest cached strategy) := by
  rcases pitInsert_cases interest forwarder with ⟨entry,found,there,fits,made⟩ | ⟨free,made⟩
  · have known : forwarder.Unlooped (.incomingInterest inFace interest cached strategy) := by
      rintro ⟨-,free,-⟩
      rw [free found (List.mem_of_getElem? there)] at fits
      cases fits
    rw [onIncomingInterest_eq cached strategy scope made there] at received
    refine iff_of_true ?_ known
    split at received
    · cases received
      exact all
    · exact proceed_allTimed ((all.but entry).modify _) received
  · have there : (forwarder.entries ++ [PitEntry.new interest])[forwarder.entries.length]? =
        some (PitEntry.new interest) := by
      simp
    rw [onIncomingInterest_eq cached strategy scope made there] at received
    have others : ({ forwarder with entries := forwarder.entries ++ [PitEntry.new interest] } : Forwarder).TimedBut
        forwarder.entries.length := by
      intro other found apart here
      dsimp only at here
      have earlier : other < forwarder.entries.length := by
        have bound := (List.getElem?_eq_some_iff.mp here).1
        rw [List.length_append,List.length_singleton] at bound
        omega
      rw [List.getElem?_append_left earlier] at here
      exact allTimed_iff.mp all other found here
    -- A new entry has no records, so that only the Dead Nonce List can hold the nonce.
    have duplicate : ({ forwarder with entries := forwarder.entries ++ [PitEntry.new interest] } :
        Forwarder).hasDuplicateNonce inFace interest (.new interest) =
          forwarder.deadNonceList.has interest.name interest.nonce := by
      unfold hasDuplicateNonce
      rw [new_findNonce]
      rfl
    rw [duplicate] at received
    split at received
    · rename_i dead
      cases received
      refine iff_of_false ?_ ?_
      · intro timed
        rcases timed (.new interest) (List.mem_append_right _ (List.mem_singleton_self _)) rfl with none | none
        · exact none rfl
        · exact none rfl
      · exact fun unlooped => unlooped ⟨scope,free,dead⟩
    · rename_i alive
      refine iff_of_true (proceed_allTimed (others.modify _) received) ?_
      rintro ⟨-,-,dead⟩
      exact alive dead

private theorem onIncomingInterest_defined {inFace : Face} {interest : Interest} (cached : Option FreshData)
    (strategy : Strategy) (undefined : forwarder.onIncomingInterest inFace interest cached strategy = none) :
    forwarder.Unlooped (.incomingInterest inFace interest cached strategy) := by
  rintro ⟨scope,free,dead⟩
  rcases pitInsert_cases interest forwarder with ⟨entry,found,there,fits,-⟩ | ⟨-,made⟩
  · rw [free found (List.mem_of_getElem? there)] at fits
    cases fits
  · have there : (forwarder.entries ++ [PitEntry.new interest])[forwarder.entries.length]? =
        some (PitEntry.new interest) := by
      simp
    rw [onIncomingInterest_eq cached strategy scope made there,if_pos] at undefined
    · cases undefined
    · unfold hasDuplicateNonce
      rw [Bool.or_eq_true]
      exact Or.inr dead

/-! Runs. -/

private theorem step_allTimed {matchesData : Interest → FreshData → Bool} (all : forwarder.AllTimed) (timed : Time × Event)
    (stepped : forwarder.step matchesData timed = some after) : after.AllTimed ↔ forwarder.Unlooped timed.2 := by
  obtain ⟨now,event⟩ := timed
  have start : ({ forwarder with now := now } : Forwarder).AllTimed := all
  cases event with
  | incomingInterest inFace interest cached strategy =>
    cases scope : violatesLocalhost inFace interest.name with
    | false => exact onIncomingInterest_allTimed start scope stepped
    | true =>
      change onIncomingInterest inFace interest cached strategy _ = some after at stepped
      unfold onIncomingInterest at stepped
      rw [scope] at stepped
      cases stepped
      refine iff_of_true all ?_
      rintro ⟨same,-⟩
      rw [scope] at same
      cases same
  | incomingData inFace data strategy => exact iff_of_true (onIncomingData_allTimed start stepped) trivial
  | strategyAction action => exact iff_of_true ((act_keeps stepped).allTimed start) trivial
  | unsatisfyTimer entry strategy =>
    obtain ⟨found,-,rest⟩ := Option.bind_eq_some_iff.mp stepped
    split at rest
    · exact iff_of_true (onInterestUnsatisfied_allTimed ((start.but entry).modify _) rest) trivial
    · cases rest
  | stragglerTimer entry =>
    obtain ⟨found,-,rest⟩ := Option.bind_eq_some_iff.mp stepped
    obtain ⟨timer,-,last⟩ := Option.bind_eq_some_iff.mp rest
    split at last
    · exact iff_of_true (onInterestFinalize_allTimed ((start.but entry).modify _) last) trivial
    · cases last
  | mark =>
    cases stepped
    exact iff_of_true all trivial
  | adjustCapacity =>
    cases stepped
    exact iff_of_true all trivial
  | addFace face =>
    cases stepped
    exact iff_of_true all trivial
  | removeFace face =>
    cases stepped
    exact iff_of_true all trivial

end

/-- In every run, whatever the content store, the strategies and the timers do, every
entry in the PIT always has a pending timer exactly if no Interest arrives that has
no PIT entry and whose nonce is in the Dead Nonce List. -/
theorem allTimed_iff_unlooped (matchesData : Interest → FreshData → Bool) (events : List (Time × Event)) :
    Along (next matchesData) (fun state => ∀ forwarder, state = some forwarder → forwarder.AllTimed)
        (some new) events ↔
      Steps (next matchesData) (fun state timed => ∀ forwarder, state = some forwarder → forwarder.Unlooped timed.2)
        (some new) events := by
  have anything : Steps (next matchesData) (fun state _ => ∀ forwarder, state = some forwarder → True)
      (some new) events := fun _ _ _ _ _ => trivial
  refine attempt_along_iff_steps (I := fun _ => True) ?_ ?_ trivial ?_ anything
  · intro forwarder timed after _ _ stepped
    exact ⟨trivial,fun all => step_allTimed all timed stepped⟩
  · rintro forwarder ⟨now,event⟩ undefined
    cases event with
    | incomingInterest inFace interest cached strategy =>
      exact fun looped => onIncomingInterest_defined cached strategy undefined looped
    | incomingData inFace data strategy => trivial
    | strategyAction action => trivial
    | unsatisfyTimer entry strategy => trivial
    | stragglerTimer entry => trivial
    | mark => trivial
    | adjustCapacity => trivial
    | addFace face => trivial
    | removeFace face => trivial
  · intro entry inside
    cases inside

/-- An Interest for `/A` that lives fifty milliseconds. -/
def loopedInterest : Interest := ⟨[[0x41]],.none,7,50⟩

def loopedBack : List (Time × Event) :=
  [(0,.addFace ⟨1,false⟩),(0,.addFace ⟨2,false⟩),
    (0,.incomingInterest ⟨1,false⟩ loopedInterest none fun entry => [.sendInterest entry ⟨2,false⟩ none]),
    (milliSeconds 50,.unsatisfyTimer 0 fun _ => []),
    (milliSeconds 170,.incomingInterest ⟨2,false⟩ loopedInterest none fun _ => [])]

/-- The entry of the returning Interest has no timer. -/
theorem loopedBack_untimed :
    ¬ Along (next fun _ _ => true) (fun state => ∀ forwarder, state = some forwarder → forwarder.AllTimed)
      (some new) loopedBack := by
  intro always
  have reached : (run (next fun _ _ => true) (some new) loopedBack).any
      (fun forwarder => forwarder.entries.getLast? = some (.new loopedInterest)) = true := by
    decide +kernel
  obtain ⟨forwarder,here,last⟩ := (Option.any_eq_true _ _).mp reached
  have timed := always loopedBack List.prefix_rfl forwarder here (.new loopedInterest)
    (List.mem_of_getLast? (of_decide_eq_true last)) rfl
  rcases timed with none | none
  · exact none rfl
  · exact none rfl

end Forwarder

end Ncfcc.Nfd.Fw
