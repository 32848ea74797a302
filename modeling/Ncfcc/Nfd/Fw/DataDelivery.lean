import Ncfcc.Library.KeyedList
import Ncfcc.Nfd.Fw.LoopDetection

/-! Where incoming Data go: to the downstreams of the matching PIT entries, each of which is
left satisfied. -/
namespace Ncfcc.Nfd.Fw
open Ncfcc.Library Ncfcc.Nfd.Table
open Ncfcc.Cs (FreshData Time milliSeconds)

namespace Forwarder

/-- `beforeSatisfyInterest` of the strategies here: they cancel timers of their own and update
measurements, and neither send nor reject an Interest. -/
def beforeSatisfyInterest : Strategy := fun _ => []

def Matching (matchesData : Interest → FreshData → Bool) (data : FreshData) (forwarder : Forwarder) (entry : Nat)
    (found : PitEntry) : Prop :=
  forwarder.entries[entry]? = some found ∧ found.inPit = true ∧ matchesData found.interest data = true

/-- Other faces that wait for the Data and may get them. -/
def Downstream (matchesData : Interest → FreshData → Bool) (inFace : Face) (data : FreshData) (forwarder : Forwarder)
    (face : Face) : Prop :=
  face ≠ inFace ∧ face ∈ forwarder.faceTable ∧ violatesLocalhost face data.name = false ∧
    ∃ entry found, forwarder.Matching matchesData data entry found ∧
      ∃ record ∈ found.inRecords, record.face = face ∧ forwarder.now < record.expiry

/-- Nobody waits for the entry any more, and it is soon finalized. -/
structure Settled (inFace : Face) (entry : PitEntry) : Prop where
  inRecords : entry.inRecords = []
  outRecords : ∀ record ∈ entry.outRecords, record.face ≠ inFace
  straggler : entry.stragglerTimer.isSome = true

def sentData : Output → Option (Face × FreshData)
  | .data face data => some (face,data)
  | _ => none

/-- The Data are sent once to each downstream and to no other face, the matching entries are
settled and keep the out-records of other faces, and the other entries are unchanged. -/
structure Delivers (matchesData : Interest → FreshData → Bool) (inFace : Face) (data : FreshData)
    (before after : Forwarder) : Prop where
  sent : ∃ (outputs : List Output) (faces : List Face), after.outputs = before.outputs ++ outputs ∧
    outputs.filterMap sentData = faces.map (fun face => (face,data)) ∧ faces.Nodup ∧
      ∀ face, face ∈ faces ↔ before.Downstream matchesData inFace data face
  settled : ∀ entry found, before.Matching matchesData data entry found →
    ∃ later, after.entries[entry]? = some later ∧ Settled inFace later ∧
      later.outRecords = found.outRecords.filter fun record => record.face ≠ inFace
  others : ∀ entry, (∀ found, ¬ before.Matching matchesData data entry found) →
    after.entries[entry]? = before.entries[entry]?

/-- Matching entries that the search of the PIT does not come by, such as those for the full name of
the Data, are settled already. -/
def UnvisitedSettled (matchesData : Interest → FreshData → Bool) (inFace : Face) (data : FreshData)
    (forwarder : Forwarder) : Prop :=
  ∀ entry found, forwarder.Matching matchesData data entry found →
    Visited CityHash.cityHash64 forwarder.pitNames data.name found.interest.name ∨ Settled inFace found

def interestNames (forwarder : Forwarder) : List Name := forwarder.entries.map fun found => found.interest.name

/-! Out-records have different faces. -/

def DistinctUpstreams (forwarder : Forwarder) : Prop :=
  ∀ found ∈ forwarder.entries, (found.outRecords.map FaceRecord.face).Nodup

section
variable {satisfied : Nat → Prop} {forwarder : Forwarder}

private theorem insertOrUpdateOutRecord_distinct {found : PitEntry} (distinct : (found.outRecords.map FaceRecord.face).Nodup)
    (face : Face) (interest : Interest) (now : Time) :
    ((found.insertOrUpdateOutRecord face interest now).outRecords.map FaceRecord.face).Nodup := by
  unfold PitEntry.insertOrUpdateOutRecord
  dsimp only
  split
  · rename_i absent
    rw [List.findIdx?_eq_none_iff] at absent
    refine List.nodup_cons.mpr ⟨?_,distinct⟩
    intro member
    obtain ⟨record,inside,same⟩ := List.mem_map.mp member
    simpa [same,FaceRecord.updated] using absent record inside
  · rename_i index present
    obtain ⟨bound,here,-⟩ := List.findIdx?_eq_some_iff_getElem.mp present
    have same : (found.outRecords.set index (.updated face interest now)).map FaceRecord.face =
        found.outRecords.map FaceRecord.face := by
      rw [List.map_set]
      apply List.ext_getElem
      · simp
      · intro place left right
        rw [List.getElem_set]
        split
        · rename_i equal
          subst equal
          simpa [FaceRecord.updated] using (of_decide_eq_true here).symm
        · rfl
    rw [same]
    exact distinct

theorem DistinctUpstreams.modify (distinct : forwarder.DistinctUpstreams) (entry : Nat) {change : PitEntry → PitEntry}
    (kept : ∀ found, (found.outRecords.map FaceRecord.face).Nodup → ((change found).outRecords.map FaceRecord.face).Nodup) :
    (forwarder.modify entry change).DistinctUpstreams := by
  intro found member
  obtain ⟨place,there⟩ := List.mem_iff_getElem?.mp member
  by_cases same : place = entry
  · rw [same,modify_same,Option.map_eq_some_iff] at there
    obtain ⟨old,earlier,rfl⟩ := there
    exact kept old (distinct old (List.mem_of_getElem? earlier))
  · rw [modify_other same] at there
    exact distinct found (List.mem_of_getElem? there)

private theorem distinctUpstreams_change (forwarder after : Forwarder) (distinct : forwarder.DistinctUpstreams)
    (change : Change satisfied forwarder after) : after.DistinctUpstreams := by
  cases change with
  | surroundings now faceTable deadNonceList => exact distinct
  | timers entry change keeps =>
    apply distinct.modify
    intro found before
    rw [keeps.outRecords]
    exact before
  | pitInsert interest free =>
    intro found member
    rcases List.mem_append.mp member with old | new
    · exact distinct found old
    · rw [List.mem_singleton.mp new]
      exact List.nodup_nil
  | inRecord entry inFace interest found there name selectors =>
    exact distinct.modify _ fun _ before => before
  | sendInterest entry outFace interest found picked there scope member name selectors =>
    exact distinct.modify _ fun found before => insertOrUpdateOutRecord_distinct before outFace interest _
  | sendData outFace data scope => exact distinct
  | csInsert data isUnsolicited => exact distinct
  | satisfy entry inFace allowed =>
    exact distinct.modify _ fun found before => before.sublist (List.eraseP_sublist.map _)

private theorem distinctUpstreams_of_run {matchesData : Interest → FreshData → Bool} {events : List (Time × Event)}
    (reached : run (next matchesData) (some new) events = some forwarder) : forwarder.DistinctUpstreams := by
  refine attempt_invariant ?_ ?_ reached
  · intro before timed after distinct stepped
    exact (step_changes timed stepped).invariant distinctUpstreams_change distinct
  · intro found member
    cases member

end

/-! The loops of `onIncomingData`. -/

section
variable {forwarder : Forwarder} {entry : Nat}

def satisfied (now : Time) (inFace : Face) (data : FreshData) (found : PitEntry) : PitEntry :=
  { found.deleteInRecords.deleteOutRecord inFace with
    unsatisfyTimer := none
    stragglerTimer := some ⟨now + milliSeconds 100,true,data.freshnessPeriod⟩ }

def pendingDownstreams (now : Time) (found : PitEntry) : List Face :=
  (found.inRecords.filter fun record => now < record.expiry).map fun record => record.face

structure SameSurroundings (before after : Forwarder) : Prop where
  now : after.now = before.now
  faceTable : after.faceTable = before.faceTable
  outputs : after.outputs = before.outputs

private theorem insertDeadNonceList_surroundings (entry : Nat) (isSatisfied : Bool) (dataFreshnessPeriod : Int)
    (upstream : Option Face) (forwarder : Forwarder) :
    SameSurroundings forwarder (forwarder.insertDeadNonceList entry isSatisfied dataFreshnessPeriod upstream) := by
  unfold insertDeadNonceList
  split
  · exact ⟨rfl,rfl,rfl⟩
  · split
    · exact ⟨rfl,rfl,rfl⟩
    · exact ⟨rfl,rfl,rfl⟩

/-- The forwarder after the round of `satisfy` for one entry. -/
def afterRound (inFace : Face) (data : FreshData) (entry : Nat) (forwarder : Forwarder) : Forwarder :=
  let listed := (forwarder.cancelUnsatisfyAndStragglerTimer entry).insertDeadNonceList entry true data.freshnessPeriod
    (some inFace)
  (listed.modify entry fun found => found.deleteInRecords.deleteOutRecord inFace).setStragglerTimer entry true
    data.freshnessPeriod

private theorem satisfy_round (inFace : Face) (data : FreshData) (downstreams : List Face) {found : PitEntry}
    (there : forwarder.entries[entry]? = some found) :
    satisfy inFace data beforeSatisfyInterest (downstreams,forwarder) entry =
      some ((pendingDownstreams forwarder.now found).foldl (fun set face => set.insert face) downstreams,
        forwarder.afterRound inFace data entry) := by
  simp only [satisfy,cancelUnsatisfyAndStragglerTimer,modify_same,there,Option.map_some,Option.bind_eq_bind,
    Option.bind_some,dispatchToStrategy,beforeSatisfyInterest,List.foldlM_nil,Option.pure_def]
  rfl

private theorem afterRound_surroundings (inFace : Face) (data : FreshData) (entry : Nat) (forwarder : Forwarder) :
    SameSurroundings forwarder (forwarder.afterRound inFace data entry) := by
  have listed := insertDeadNonceList_surroundings entry true data.freshnessPeriod (some inFace)
    (forwarder.cancelUnsatisfyAndStragglerTimer entry)
  exact ⟨listed.now,listed.faceTable,listed.outputs⟩

private theorem afterRound_entries (inFace : Face) (data : FreshData) (entry : Nat) (forwarder : Forwarder) :
    (forwarder.afterRound inFace data entry).entries =
      forwarder.entries.modify entry (satisfied forwarder.now inFace data) := by
  have same := (afterRound_surroundings inFace data entry forwarder).now
  have now : (insertDeadNonceList entry true data.freshnessPeriod (some inFace)
      (forwarder.cancelUnsatisfyAndStragglerTimer entry)).now = forwarder.now := same
  simp only [afterRound,setStragglerTimer,modify,insertDeadNonceList_entries,cancelUnsatisfyAndStragglerTimer,
    List.modify_modify_eq]
  simp only [cancelUnsatisfyAndStragglerTimer,modify] at now
  rw [now]
  rfl

private theorem foldl_insert_mem (faces set : List Face) (face : Face) :
    face ∈ faces.foldl (fun set face => set.insert face) set ↔ face ∈ faces ∨ face ∈ set := by
  induction faces generalizing set with
  | nil => simp
  | cons first faces ih =>
    rw [List.foldl_cons,ih,List.mem_insert_iff,List.mem_cons]
    tauto

private theorem foldl_insert_nodup (faces : List Face) {set : List Face} (distinct : set.Nodup) :
    (faces.foldl (fun set face => set.insert face) set).Nodup := by
  induction faces generalizing set with
  | nil => exact distinct
  | cons first faces ih => exact ih (distinct.insert)

structure Rounds (inFace : Face) (data : FreshData) (entries : List Nat) (downstreams : List Face)
    (before : Forwarder) (final : List Face × Forwarder) : Prop where
  visited : ∀ entry ∈ entries, final.2.entries[entry]? = before.entries[entry]?.map (satisfied before.now inFace data)
  others : ∀ entry, entry ∉ entries → final.2.entries[entry]? = before.entries[entry]?
  surroundings : SameSurroundings before final.2
  distinct : downstreams.Nodup → final.1.Nodup
  downstreams : ∀ face, face ∈ final.1 ↔ face ∈ downstreams ∨ ∃ entry ∈ entries, ∃ found,
    before.entries[entry]? = some found ∧ face ∈ pendingDownstreams before.now found

/-- Each entry is visited once, so that its records are read before they are deleted. -/
theorem satisfy_rounds (inFace : Face) (data : FreshData) (entries : List Nat) (distinct : entries.Nodup)
    (downstreams : List Face) (forwarder : Forwarder) (inside : ∀ entry ∈ entries, entry < forwarder.entries.length) :
    ∃ final, entries.foldlM (satisfy inFace data beforeSatisfyInterest) (downstreams,forwarder) = some final ∧
      Rounds inFace data entries downstreams forwarder final := by
  induction entries generalizing downstreams forwarder with
  | nil =>
    refine ⟨_,rfl,by simp,fun _ _ => rfl,⟨rfl,rfl,rfl⟩,id,?_⟩
    intro face
    simp
  | cons entry entries ih =>
    obtain ⟨fresh,rest⟩ := List.nodup_cons.mp distinct
    have bound := inside entry List.mem_cons_self
    have there : forwarder.entries[entry]? = some forwarder.entries[entry] := List.getElem?_eq_getElem bound
    have round := satisfy_round inFace data downstreams there
    have changed := afterRound_entries inFace data entry forwarder
    have same := afterRound_surroundings inFace data entry forwarder
    generalize forwarder.afterRound inFace data entry = between at round changed same
    have elsewhere : ∀ other ∈ entries, between.entries[other]? = forwarder.entries[other]? := by
      intro other member
      rw [changed]
      refine List.getElem?_modify_ne _ _ ?_
      rintro rfl
      exact fresh member
    have still : ∀ other ∈ entries, other < between.entries.length := by
      intro other member
      rw [changed,List.length_modify]
      exact inside other (List.mem_cons_of_mem _ member)
    obtain ⟨final,looped,rounds⟩ := ih rest
      ((pendingDownstreams forwarder.now forwarder.entries[entry]).foldl (fun set face => set.insert face) downstreams)
      between still
    have visitedFirst : final.2.entries[entry]? =
        forwarder.entries[entry]?.map (satisfied forwarder.now inFace data) := by
      rw [rounds.others entry fresh,changed]
      exact List.getElem?_modify_eq _ _ _
    refine ⟨final,?_,?_,?_,?_,?_,?_⟩
    · rw [List.foldlM_cons,round]
      exact looped
    · intro other member
      rcases List.mem_cons.mp member with rfl | later
      · exact visitedFirst
      · rw [rounds.visited other later,elsewhere other later,same.now]
    · intro other absent
      obtain ⟨apart,later⟩ := not_or.mp (fun either => absent (List.mem_cons.mpr either))
      rw [rounds.others other later,changed,List.getElem?_modify_ne _ _ (Ne.symm apart)]
    · exact ⟨rounds.surroundings.now.trans same.now,rounds.surroundings.faceTable.trans same.faceTable,
        rounds.surroundings.outputs.trans same.outputs⟩
    · intro before
      exact rounds.distinct (foldl_insert_nodup _ before)
    · intro face
      rw [rounds.downstreams,foldl_insert_mem,same.now]
      constructor
      · rintro ((here | before) | ⟨other,member,found,still,waits⟩)
        · exact Or.inr ⟨entry,List.mem_cons_self,_,there,here⟩
        · exact Or.inl before
        · exact Or.inr ⟨other,List.mem_cons_of_mem _ member,found,elsewhere other member ▸ still,waits⟩
      · rintro (before | ⟨other,member,found,still,waits⟩)
        · exact Or.inl (Or.inr before)
        · rcases List.mem_cons.mp member with rfl | later
          · rw [there] at still
            cases still
            exact Or.inl (Or.inl waits)
          · exact Or.inr ⟨other,later,found,(elsewhere other later).trans still,waits⟩

def admits (name : Name) (forwarder : Forwarder) (face : Face) : Bool :=
  decide (face ∈ forwarder.faceTable) && !violatesLocalhost face name

private theorem sendAll_eq (data : FreshData) (faces : List Face) (forwarder : Forwarder) :
    faces.foldl (fun forwarder face => forwarder.onOutgoingData data face) forwarder =
      { forwarder with outputs := forwarder.outputs ++
          (faces.filter (forwarder.admits data.name)).map fun face => .data face data } := by
  induction faces generalizing forwarder with
  | nil => simp
  | cons face faces ih =>
    rw [List.foldl_cons,ih,onOutgoingData]
    by_cases valid : face ∈ forwarder.faceTable
    · cases scope : violatesLocalhost face data.name with
      | true => simp [valid,scope,admits]
      | false =>
        have same : admits data.name (forwarder.emit (.data face data)) = admits data.name forwarder := rfl
        rw [if_neg (not_not.mpr valid),if_neg (by simp),same]
        simp [valid,scope,admits,emit]
    · simp [valid,admits]

theorem mem_findAllDataMatches (matchesData : Interest → FreshData → Bool) (data : FreshData) (forwarder : Forwarder)
    (entry : Nat) : entry ∈ forwarder.findAllDataMatches matchesData data ↔
      ∃ found deepest, forwarder.Matching matchesData data entry found ∧
        deepestMatch CityHash.cityHash64 forwarder.pitNames data.name = some deepest ∧ found.interest.name <+: deepest := by
  unfold findAllDataMatches Matching
  cases deepestMatch CityHash.cityHash64 forwarder.pitNames data.name with
  | none => simp
  | some deepest =>
    dsimp only
    rw [List.mem_filter,List.mem_range,Option.any_eq_true]
    constructor
    · rintro ⟨-,found,there,fits⟩
      simp only [Bool.and_eq_true,List.isPrefixOf_iff_prefix] at fits
      exact ⟨found,deepest,⟨there,fits.1.1,fits.2⟩,rfl,fits.1.2⟩
    · rintro ⟨found,other,⟨there,inPit,fits⟩,same,named⟩
      cases same
      exact ⟨(List.getElem?_eq_some_iff.mp there).1,found,there,by simp [inPit,fits,named]⟩

private theorem findAllDataMatches_nodup (matchesData : Interest → FreshData → Bool) (data : FreshData) (forwarder : Forwarder) :
    (forwarder.findAllDataMatches matchesData data).Nodup := by
  unfold findAllDataMatches
  split
  · exact List.nodup_nil
  · exact List.nodup_range.filter _

private theorem lt_of_findAllDataMatches {matchesData : Interest → FreshData → Bool} {data : FreshData}
    (member : entry ∈ forwarder.findAllDataMatches matchesData data) : entry < forwarder.entries.length := by
  obtain ⟨found,-,matching,-⟩ := (mem_findAllDataMatches _ _ _ _).mp member
  exact (List.getElem?_eq_some_iff.mp matching.1).1

/-- Where names are told apart by their octets, the matching entries that are found are those that the search comes by. -/
theorem mem_findAllDataMatches_iff {matchesData : Interest → FreshData → Bool} {data : FreshData}
    (apart : ToldApart (data.name :: forwarder.interestNames)) :
    entry ∈ forwarder.findAllDataMatches matchesData data ↔ ∃ found, forwarder.Matching matchesData data entry found ∧
      Visited CityHash.cityHash64 forwarder.pitNames data.name found.interest.name := by
  have listed : forwarder.pitNames ⊆ forwarder.interestNames := (List.filter_sublist.map _).subset
  have fewer : ToldApart (data.name :: forwarder.pitNames) := apart.subset (List.cons_subset_cons _ listed)
  rw [mem_findAllDataMatches]
  refine exists_congr fun found => ?_
  rw [exists_and_left]
  refine and_congr_right fun matching => ?_
  have inside : found.interest.name ∈ forwarder.pitNames :=
    List.mem_map_of_mem (List.mem_filter.mpr ⟨List.mem_of_getElem? matching.1,matching.2.1⟩)
  exact (visited_iff fewer inside).symm

structure DeliversFound (matchesData : Interest → FreshData → Bool) (inFace : Face) (data : FreshData)
    (before after : Forwarder) : Prop where
  sent : ∃ (outputs : List Output) (faces : List Face), after.outputs = before.outputs ++ outputs ∧
    outputs.filterMap sentData = faces.map (fun face => (face,data)) ∧ faces.Nodup ∧
      ∀ face, face ∈ faces ↔ face ≠ inFace ∧ before.admits data.name face = true ∧
        ∃ entry ∈ before.findAllDataMatches matchesData data, ∃ found, before.entries[entry]? = some found ∧
          face ∈ pendingDownstreams before.now found
  visited : ∀ entry ∈ before.findAllDataMatches matchesData data,
    after.entries[entry]? = before.entries[entry]?.map (satisfied before.now inFace data)
  others : ∀ entry, entry ∉ before.findAllDataMatches matchesData data → after.entries[entry]? = before.entries[entry]?

private theorem onDataUnsolicited_delivers {matchesData : Interest → FreshData → Bool} {inFace : Face} {data : FreshData}
    (none : forwarder.findAllDataMatches matchesData data = []) :
    DeliversFound matchesData inFace data forwarder (forwarder.onDataUnsolicited inFace data) := by
  have empty : ∀ face, face ∈ ([] : List Face) ↔ face ≠ inFace ∧ forwarder.admits data.name face = true ∧
      ∃ entry ∈ forwarder.findAllDataMatches matchesData data, ∃ found, forwarder.entries[entry]? = some found ∧
        face ∈ pendingDownstreams forwarder.now found := by
    simp [none]
  unfold onDataUnsolicited
  split
  · exact ⟨⟨[.csInsert data true],[],rfl,rfl,List.nodup_nil,empty⟩,by simp [none],fun _ _ => rfl⟩
  · exact ⟨⟨[],[],by simp,rfl,List.nodup_nil,empty⟩,by simp [none],fun _ _ => rfl⟩

private theorem onIncomingData_delivers {matchesData : Interest → FreshData → Bool} {inFace : Face} {data : FreshData}
    (scope : violatesLocalhost inFace data.name = false) :
    ∃ after, forwarder.onIncomingData matchesData inFace data beforeSatisfyInterest = some after ∧
      DeliversFound matchesData inFace data forwarder after := by
  unfold onIncomingData
  rw [if_neg (by simp [scope])]
  cases found : forwarder.findAllDataMatches matchesData data with
  | nil => exact ⟨_,rfl,onDataUnsolicited_delivers found⟩
  | cons first rest =>
    obtain ⟨⟨downstreams,told⟩,looped,rounds⟩ := satisfy_rounds inFace data _
      (findAllDataMatches_nodup matchesData data forwarder) [] (forwarder.emit (.csInsert data false))
      fun _ member => lt_of_findAllDataMatches member
    rw [found] at looped
    refine ⟨_,Option.bind_eq_some_iff.mpr ⟨_,looped,rfl⟩,?_⟩
    rw [sendAll_eq]
    have same := rounds.surroundings
    have table : told.faceTable = forwarder.faceTable := same.faceTable
    have before : told.outputs = forwarder.outputs ++ [.csInsert data false] := same.outputs
    have admits : told.admits data.name = forwarder.admits data.name := by
      funext face
      simp only [Forwarder.admits,table]
    refine ⟨⟨.csInsert data false :: ((downstreams.filter (· ≠ inFace)).filter (told.admits data.name)).map
      fun face => .data face data,(downstreams.filter (· ≠ inFace)).filter (told.admits data.name),?_,?_,?_,?_⟩,?_,?_⟩
    · dsimp only
      rw [before,List.append_assoc,List.singleton_append]
    · rw [List.filterMap_cons_none (by rfl),List.filterMap_map]
      exact congrFun List.filterMap_eq_map _
    · exact ((rounds.distinct List.nodup_nil).filter _).filter _
    · intro face
      rw [List.mem_filter,List.mem_filter,rounds.downstreams,admits]
      simp only [List.not_mem_nil,false_or,decide_eq_true_eq]
      constructor
      · rintro ⟨⟨waits,apart⟩,admitted⟩
        exact ⟨apart,admitted,waits⟩
      · rintro ⟨apart,admitted,waits⟩
        exact ⟨⟨waits,apart⟩,admitted⟩
    · exact rounds.visited
    · exact rounds.others

private theorem mem_pendingDownstreams {now : Time} {found : PitEntry} {face : Face} :
    face ∈ pendingDownstreams now found ↔ ∃ record ∈ found.inRecords, record.face = face ∧ now < record.expiry := by
  unfold pendingDownstreams
  rw [List.mem_map]
  constructor
  · rintro ⟨record,kept,named⟩
    obtain ⟨member,unexpired⟩ := List.mem_filter.mp kept
    exact ⟨record,member,named,of_decide_eq_true unexpired⟩
  · rintro ⟨record,member,named,unexpired⟩
    exact ⟨record,List.mem_filter.mpr ⟨member,decide_eq_true unexpired⟩,named⟩

private theorem satisfied_settled {now : Time} {inFace : Face} {data : FreshData} {found : PitEntry}
    (distinct : (found.outRecords.map FaceRecord.face).Nodup) :
    Settled inFace (satisfied now inFace data found) ∧
      (satisfied now inFace data found).outRecords = found.outRecords.filter fun record => record.face ≠ inFace := by
  have erased : (satisfied now inFace data found).outRecords =
      found.outRecords.filter fun record => record.face ≠ inFace := eraseP_key distinct inFace
  refine ⟨⟨rfl,?_,rfl⟩,erased⟩
  intro record member
  rw [erased] at member
  exact of_decide_eq_true (List.mem_filter.mp member).2

/-- The Data are delivered as told exactly when no matching entry waits that the search does not come by. -/
theorem DeliversFound.delivers_iff {matchesData : Interest → FreshData → Bool} {inFace : Face} {data : FreshData}
    {after : Forwarder} (distinct : forwarder.DistinctUpstreams) (apart : ToldApart (data.name :: forwarder.interestNames))
    (delivered : DeliversFound matchesData inFace data forwarder after) :
    Delivers matchesData inFace data forwarder after ↔ forwarder.UnvisitedSettled matchesData inFace data := by
  have members : ∀ entry, entry ∈ forwarder.findAllDataMatches matchesData data ↔ _ :=
    fun entry => mem_findAllDataMatches_iff apart
  constructor
  · intro delivers entry found matching
    by_cases visited : Visited CityHash.cityHash64 forwarder.pitNames data.name found.interest.name
    · exact Or.inl visited
    · right
      have missed : entry ∉ forwarder.findAllDataMatches matchesData data := by
        rw [members]
        rintro ⟨other,⟨there,-,-⟩,met⟩
        rw [matching.1] at there
        cases there
        exact visited met
      obtain ⟨later,there,settled,-⟩ := delivers.settled entry found matching
      rw [delivered.others entry missed,matching.1] at there
      cases there
      exact settled
  · intro settled
    obtain ⟨outputs,faces,emitted,these,once,exactly⟩ := delivered.sent
    refine ⟨⟨outputs,faces,emitted,these,once,?_⟩,?_,?_⟩
    · intro face
      rw [exactly]
      unfold Downstream Forwarder.admits
      rw [Bool.and_eq_true,Bool.not_eq_true_eq_eq_false,decide_eq_true_eq,and_assoc]
      refine and_congr_right fun _ => and_congr_right fun _ => and_congr_right fun _ => ?_
      constructor
      · rintro ⟨entry,member,found,there,waits⟩
        obtain ⟨same,matching,-⟩ := (members entry).mp member
        have equal := matching.1
        rw [there] at equal
        cases equal
        exact ⟨entry,found,matching,mem_pendingDownstreams.mp waits⟩
      · rintro ⟨entry,found,matching,waits⟩
        rcases settled entry found matching with visited | done
        · exact ⟨entry,(members entry).mpr ⟨found,matching,visited⟩,found,matching.1,mem_pendingDownstreams.mpr waits⟩
        · obtain ⟨record,member,-⟩ := waits
          rw [done.inRecords] at member
          cases member
    · intro entry found matching
      by_cases member : entry ∈ forwarder.findAllDataMatches matchesData data
      · have there : after.entries[entry]? = some (satisfied forwarder.now inFace data found) := by
          rw [delivered.visited entry member,matching.1]
          rfl
        exact ⟨_,there,satisfied_settled (distinct found (List.mem_of_getElem? matching.1))⟩
      · have done : Settled inFace found := by
          refine (settled entry found matching).resolve_left fun visited => member ?_
          exact (members entry).mpr ⟨found,matching,visited⟩
        refine ⟨found,(delivered.others entry member).trans matching.1,done,?_⟩
        refine (List.filter_eq_self.mpr ?_).symm
        intro record inside
        exact decide_eq_true (done.outRecords record inside)
    · intro entry foreign
      apply delivered.others
      intro member
      obtain ⟨found,matching,-⟩ := (members entry).mp member
      exact foreign found matching

end

/-- `Interest::matchesData` for Data with this digest and no key locator. -/
def matchesDigest (digest : Digest) (interest : Interest) (data : FreshData) : Bool :=
  interest.matchesData ⟨data.name,digest,none⟩

def zeroDigest : Digest := ⟨List.replicate 32 0,rfl⟩

/-- Two faces ask for `/A`, the second one by the full name of the Data if it is told so. -/
def requests (fullName : Bool) : List (Time × Event) :=
  [(0,.addFace ⟨1,false⟩),(0,.addFace ⟨2,false⟩),(0,.addFace ⟨3,false⟩),
    (0,.incomingInterest ⟨1,false⟩ ⟨[[8,1,0x41]],.none,7,4000⟩ none
      fun entry => [.sendInterest entry ⟨3,false⟩ none]),
    (1,.incomingInterest ⟨2,false⟩ ⟨if fullName then [[8,1,0x41],digestComponent zeroDigest] else [[8,1,0x41]],.none,8,4000⟩
      none fun entry => [.sendInterest entry ⟨3,false⟩ none])]

/-- The Data named `/A`. -/
def answer : FreshData := ⟨⟨[[8,1,0x41]],[0]⟩,-1⟩

end Forwarder

end Ncfcc.Nfd.Fw
