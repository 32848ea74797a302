import Ncfcc.Nfd.Fw.Changes

/-! Scope control. The four pipelines test different pairs of a name and a face; together
they keep `/localhost` on local faces in every run, and let `/localhop` out only for
an entry that a local face has asked for. -/
namespace Ncfcc.Nfd.Fw
open Ncfcc.Library Ncfcc.Nfd.Table
open Ncfcc.Cs (FreshData Time)

/-- Every in-record is of an Interest of this entry. -/
def InRecordsMatch (entry : PitEntry) : Prop :=
  ∀ record ∈ entry.inRecords, record.interest.name = entry.interest.name ∧
    record.interest.selectors = entry.interest.selectors

/-- Nothing under `/localhost` leaves on a non-local face, and an Interest under `/localhop`
only while its PIT entry has an in-record of a local face. -/
def Output.InScope : Output → Prop
  | .interest face sent _ found => face.isLocal = false → localhostName.isPrefixOf sent.name = false ∧
    (localhopName.isPrefixOf sent.name = true → ∃ record ∈ found.inRecords, record.face.isLocal = true)
  | .data face sent => face.isLocal = false → localhostName.isPrefixOf sent.name = false
  | .csInsert _ _ => True

/-- A packet under `/localhost` that is received on a non-local face. -/
def Event.ViolatesLocalhost : Event → Prop
  | .incomingInterest inFace interest _ _ => inFace.isLocal = false ∧ localhostName.isPrefixOf interest.name = true
  | .incomingData inFace data _ => inFace.isLocal = false ∧ localhostName.isPrefixOf data.name = true
  | _ => False

private theorem mem_insertOrUpdateInRecord {face : Face} {interest : Interest} {now : Time} {entry : PitEntry}
    {record : InRecord} (member : record ∈ (entry.insertOrUpdateInRecord face interest now).inRecords) :
    record ∈ entry.inRecords ∨ record = ⟨.updated face interest now,interest⟩ := by
  unfold PitEntry.insertOrUpdateInRecord at member
  dsimp only at member
  split at member
  · exact (List.mem_cons.mp member).symm
  · exact List.mem_or_eq_of_mem_set member

private theorem violatesLocalhost_eq_false {face : Face} {name : Name} :
    violatesLocalhost face name = false ↔ (face.isLocal = false → localhostName.isPrefixOf name = false) := by
  unfold violatesLocalhost
  cases face.isLocal with
  | false => simp
  | true => simp

private theorem violatesScope_eq_false {entry : PitEntry} {face : Face} (scope : entry.violatesScope face = false) :
    face.isLocal = false → localhostName.isPrefixOf entry.interest.name = false ∧
      (localhopName.isPrefixOf entry.interest.name = true →
        ∃ record ∈ entry.inRecords, record.face.isLocal = true) := by
  intro remote
  unfold PitEntry.violatesScope at scope
  obtain ⟨localhost,localhop⟩ := Bool.or_eq_false_iff.mp scope
  refine ⟨violatesLocalhost_eq_false.mp localhost remote,?_⟩
  intro inside
  rw [remote,inside] at localhop
  have asked : entry.hasLocalInRecord = true := by simpa using localhop
  simpa [PitEntry.hasLocalInRecord] using asked

namespace Forwarder

private theorem mem_modify {forwarder : Forwarder} {place : Nat} {change : PitEntry → PitEntry} {entry : PitEntry}
    (member : entry ∈ (forwarder.modify place change).entries) :
    entry ∈ forwarder.entries ∨ ∃ old ∈ forwarder.entries, forwarder.entries[place]? = some old ∧ entry = change old := by
  obtain ⟨other,there⟩ := List.mem_iff_getElem?.mp member
  by_cases same : other = place
  · rw [same,modify_same] at there
    obtain ⟨old,here,changed⟩ := Option.map_eq_some_iff.mp there
    exact Or.inr ⟨old,List.mem_of_getElem? here,here,changed.symm⟩
  · rw [modify_other same] at there
    exact Or.inl (List.mem_of_getElem? there)

/-- The in-records fit their entries, and all that has left was in scope. -/
structure Scoped (forwarder : Forwarder) : Prop where
  entries : ∀ entry ∈ forwarder.entries, InRecordsMatch entry
  outputs : ∀ output ∈ forwarder.outputs, output.InScope

section
variable {forwarder : Forwarder}

theorem new_scoped : Scoped new := by
  constructor
  · intro entry none
    cases none
  · intro output none
    cases none

theorem Scoped.modify (within : forwarder.Scoped) (place : Nat) (change : PitEntry → PitEntry)
    (kept : ∀ old, forwarder.entries[place]? = some old → InRecordsMatch old → InRecordsMatch (change old)) :
    (forwarder.modify place change).Scoped := by
  refine ⟨?_,within.outputs⟩
  intro entry member
  rcases mem_modify member with before | ⟨old,inside,there,rfl⟩
  · exact within.entries entry before
  · exact kept old there (within.entries old inside)

theorem Scoped.emit (within : forwarder.Scoped) {output : Output} (inScope : output.InScope) :
    (forwarder.emit output).Scoped := by
  refine ⟨within.entries,?_⟩
  intro other member
  rcases List.mem_append.mp member with before | last
  · exact within.outputs other before
  · rw [List.mem_singleton.mp last]
    exact inScope

theorem scoped_change {satisfied : Nat → Prop} (forwarder after : Forwarder) (within : forwarder.Scoped)
    (change : Change satisfied forwarder after) : after.Scoped := by
  cases change with
  | surroundings now faceTable deadNonceList => exact ⟨within.entries,within.outputs⟩
  | timers entry change keeps =>
    apply within.modify
    intro old _ fits record member
    rw [keeps.inRecords] at member
    rw [keeps.interest]
    exact fits record member
  | pitInsert interest free =>
    refine ⟨?_,within.outputs⟩
    intro entry member
    rcases List.mem_append.mp member with before | last
    · exact within.entries entry before
    · rw [List.mem_singleton.mp last]
      intro record none
      cases none
  | inRecord entry inFace interest found there name selectors =>
    apply within.modify
    intro old here fits record member
    rw [there] at here
    cases here
    rcases mem_insertOrUpdateInRecord member with before | rfl
    · exact fits record before
    · exact ⟨name,selectors⟩
  | sendInterest entry outFace interest found picked there scope member name selectors =>
    have own := within.entries found (List.mem_of_getElem? there) picked member
    apply Scoped.emit
    · apply within.modify
      intro old _ fits
      exact fits
    · change outFace.isLocal = false → _
      rw [name,own.1]
      exact violatesScope_eq_false scope
  | sendData outFace data scope => exact within.emit (violatesLocalhost_eq_false.mp scope)
  | csInsert data isUnsolicited => exact within.emit trivial
  | satisfy entry inFace allowed =>
    apply within.modify
    intro old _ _ record none
    cases none

theorem scoped_step {matchesData : Interest → FreshData → Bool} (forwarder : Forwarder) (timed : Time × Event)
    (after : Forwarder) (within : forwarder.Scoped) (stepped : forwarder.step matchesData timed = some after) :
    after.Scoped :=
  (step_changes timed stepped).invariant scoped_change within

private theorem step_of_violatesLocalhost (matchesData : Interest → FreshData → Bool) (forwarder : Forwarder)
    (timed : Time × Event) (violates : timed.2.ViolatesLocalhost) :
    forwarder.step matchesData timed = some { forwarder with now := timed.1 } := by
  obtain ⟨now,event⟩ := timed
  cases event with
  | incomingInterest inFace interest cached strategy =>
    obtain ⟨remote,inside⟩ := violates
    have scope : violatesLocalhost inFace interest.name = true := by simp [violatesLocalhost,remote,inside]
    change onIncomingInterest inFace interest cached strategy _ = _
    unfold onIncomingInterest
    rw [scope]
    rfl
  | incomingData inFace data strategy =>
    obtain ⟨remote,inside⟩ := violates
    have scope : violatesLocalhost inFace data.name = true := by simp [violatesLocalhost,remote,inside]
    exact if_pos scope
  | strategyAction action => cases violates
  | unsatisfyTimer entry strategy => cases violates
  | stragglerTimer entry => cases violates
  | mark => cases violates
  | adjustCapacity => cases violates
  | addFace face => cases violates
  | removeFace face => cases violates

end

/-- Scope control in every run, whatever the content store, the strategies and the timers
do: all that leaves is in scope, and a `/localhost` packet from a non-local face
changes neither the PIT nor the content store and nothing is sent for it. -/
theorem scope_control (matchesData : Interest → FreshData → Bool) (events : List (Time × Event)) :
    Along (next matchesData) (fun state => ∀ forwarder, state = some forwarder →
        ∀ output ∈ forwarder.outputs, output.InScope) (some new) events ∧
      Steps (next matchesData) (fun state timed => ∀ forwarder, state = some forwarder →
        timed.2.ViolatesLocalhost → forwarder.step matchesData timed = some { forwarder with now := timed.1 })
        (some new) events := by
  constructor
  · intro before _ forwarder reached
    exact (attempt_invariant scoped_step new_scoped reached).outputs
  · intro before timed _ forwarder _ violates
    exact step_of_violatesLocalhost matchesData forwarder timed violates

end Forwarder

end Ncfcc.Nfd.Fw
