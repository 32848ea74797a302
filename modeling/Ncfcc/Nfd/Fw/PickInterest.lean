import Ncfcc.Nfd.Fw.Changes

/-! Which incoming Interest is sent on: the largest in-record by `compare_pickInterest`, which
is to be the last one that does not come from the outgoing face. -/
namespace Ncfcc.Nfd.Fw
open Ncfcc.Nfd.Table
open Ncfcc.Cs (FreshData Time milliSeconds)

/-- Under a strict weak order no item is larger than the largest one. -/
theorem maxElement_largest {α : Type} {less : α → α → Bool} (asymmetric : ∀ first second, less first second = true →
      less second first = false)
    (transitive : ∀ first second third, less first second = false → less second third = false →
      less first third = false)
    {items : List α} {largest : α} (found : maxElement less items = some largest) :
    ∀ item ∈ items, less largest item = false := by
  cases items with
  | nil => cases found
  | cons first rest =>
    cases found
    have irreflexive : ∀ item, less item item = false := by
      intro item
      cases same : less item item with
      | false => rfl
      | true => exact absurd (asymmetric item item same) (by simp [same])
    -- the candidate so far is at least as large as every item that was met
    suffices loop : ∀ rest : List α, ∀ current : α, ∀ item, less current item = false ∨ item ∈ rest →
        less (rest.foldl (fun largest next => if less largest next then next else largest) current) item = false by
      intro item member
      rcases List.mem_cons.mp member with rfl | later
      · exact loop rest _ _ (Or.inl (irreflexive _))
      · exact loop rest _ _ (Or.inr later)
    intro rest
    induction rest with
    | nil =>
      intro current item met
      exact met.resolve_right (List.not_mem_nil)
    | cons next rest ih =>
      intro current item met
      rw [List.foldl_cons]
      cases larger : less current next with
      | true =>
        rw [if_pos rfl]
        apply ih
        rcases met with before | member
        · exact Or.inl (transitive _ _ _ (asymmetric _ _ larger) before)
        · rcases List.mem_cons.mp member with rfl | later
          · exact Or.inl (irreflexive _)
          · exact Or.inr later
      | false =>
        rw [if_neg (by simp)]
        apply ih
        rcases met with before | member
        · exact Or.inl before
        · rcases List.mem_cons.mp member with rfl | later
          · exact Or.inl larger
          · exact Or.inr later

namespace Forwarder

def candidates (outFace : Face) (records : List InRecord) : List InRecord :=
  if ∀ record ∈ records, record.face = outFace then records
  else records.filter fun record => record.face ≠ outFace

/-- The in-record of a last incoming Interest that does not come from the outgoing face. -/
def IsLast (outFace : Face) (records : List InRecord) (record : InRecord) : Prop :=
  record ∈ candidates outFace records ∧
    ∀ other ∈ candidates outFace records, other.lastRenewed ≤ record.lastRenewed

def outgoing (nonce : Option UInt32) (record : InRecord) : Interest :=
  match nonce with
  | none => record.interest
  | some nonce => { record.interest with nonce }

/-- `onOutgoingInterest` picks this in-record and sends its Interest. -/
structure SendsFor (record : InRecord) (found : PitEntry) (entry : Nat) (outFace : Face) (nonce : Option UInt32)
    (forwarder : Forwarder) : Prop where
  picked : maxElement (comparePickInterest outFace) found.inRecords = some record
  sent : forwarder.onOutgoingInterest entry outFace nonce =
    some (emit (.interest outFace (outgoing nonce record) entry found)
      (forwarder.modify entry (PitEntry.insertOrUpdateOutRecord outFace (outgoing nonce record) forwarder.now)))

private theorem comparePickInterest_asymmetric (outFace : Face) (first second : InRecord)
    (preferred : comparePickInterest outFace first second = true) :
    comparePickInterest outFace second first = false := by
  unfold comparePickInterest at preferred ⊢
  grind

private theorem comparePickInterest_transitive (outFace : Face) (first second third : InRecord)
    (left : comparePickInterest outFace first second = false)
    (right : comparePickInterest outFace second third = false) :
    comparePickInterest outFace first third = false := by
  unfold comparePickInterest at left right ⊢
  grind

/-- The picked in-record is one of the candidates, and one that was renewed first. -/
theorem picked_is_first {outFace : Face} {records : List InRecord} {picked : InRecord}
    (found : maxElement (comparePickInterest outFace) records = some picked) :
    picked ∈ candidates outFace records ∧
      ∀ other ∈ candidates outFace records, picked.lastRenewed ≤ other.lastRenewed := by
  have member := mem_of_maxElement found
  have largest := maxElement_largest (comparePickInterest_asymmetric outFace) (comparePickInterest_transitive outFace) found
  unfold candidates
  split
  · rename_i own
    refine ⟨member,?_⟩
    intro other there
    have compared := largest other there
    simpa [comparePickInterest,own picked member,own other there] using compared
  · rename_i foreign
    have elsewhere : picked.face ≠ outFace := by
      intro same
      apply foreign
      intro other there
      have compared := largest other there
      by_contra differs
      simp [comparePickInterest,same,differs] at compared
    refine ⟨List.mem_filter.mpr ⟨member,by simpa using elsewhere⟩,?_⟩
    intro other kept
    obtain ⟨there,differs⟩ := List.mem_filter.mp kept
    have compared := largest other there
    simpa [comparePickInterest,elsewhere,of_decide_eq_true differs] using compared

private theorem sendsFor_picked {forwarder : Forwarder} {entry : Nat} {outFace : Face} {found : PitEntry}
    (nonce : Option UInt32) (there : forwarder.entries[entry]? = some found) (valid : outFace ∈ forwarder.faceTable)
    (scope : found.violatesScope outFace = false) {picked : InRecord}
    (best : maxElement (comparePickInterest outFace) found.inRecords = some picked) :
    SendsFor picked found entry outFace nonce forwarder := by
  refine ⟨best,?_⟩
  unfold onOutgoingInterest outgoing
  simp only [valid,not_true_eq_false,if_false,there,scope,best,Option.bind_eq_bind,Option.bind_some,Bool.false_eq_true]
  rfl

/-- The Interest that is sent on is the last incoming one exactly when all candidates were
renewed at the same time. -/
theorem sends_last_iff (forwarder : Forwarder) (entry : Nat) (outFace : Face) (nonce : Option UInt32)
    (found : PitEntry) (there : forwarder.entries[entry]? = some found) (pending : found.inRecords ≠ [])
    (valid : outFace ∈ forwarder.faceTable) (scope : found.violatesScope outFace = false) :
    (∃ record, SendsFor record found entry outFace nonce forwarder ∧ IsLast outFace found.inRecords record) ↔
      ∀ first ∈ candidates outFace found.inRecords, ∀ second ∈ candidates outFace found.inRecords,
        first.lastRenewed = second.lastRenewed := by
  constructor
  · intro sends first member second other
    obtain ⟨record,sends,-,last⟩ := sends
    obtain ⟨-,earliest⟩ := picked_is_first sends.picked
    apply le_antisymm
    · exact (last first member).trans (earliest second other)
    · exact (last second other).trans (earliest first member)
  · intro same
    obtain ⟨record,best⟩ : ∃ record, maxElement (comparePickInterest outFace) found.inRecords = some record := by
      cases records : found.inRecords with
      | nil => exact absurd records pending
      | cons first rest => exact ⟨_,rfl⟩
    obtain ⟨member,-⟩ := picked_is_first best
    refine ⟨record,sendsFor_picked nonce there valid scope best,member,?_⟩
    intro other kept
    exact le_of_eq (same other kept record member)

/-- The entry for `/A`, requested from two faces at these times, in a forwarder of three faces. -/
def requestedTwice (first second : Time) : Forwarder :=
  { Forwarder.new with
    faceTable := [⟨1,false⟩,⟨2,false⟩,⟨3,false⟩]
    entries := [((PitEntry.new ⟨[[0x41]],.none,7,4000⟩).insertOrUpdateInRecord ⟨1,false⟩ ⟨[[0x41]],.none,7,4000⟩
      first).insertOrUpdateInRecord ⟨2,false⟩ ⟨[[0x41]],.none,8,4000⟩ second] }

theorem sends_last_requestedTwice :
    ∃ found, (requestedTwice 1 1).entries[0]? = some found ∧ found.inRecords ≠ [] ∧
      ((∃ record, SendsFor record found 0 ⟨3,false⟩ none (requestedTwice 1 1) ∧
        IsLast ⟨3,false⟩ found.inRecords record) ↔
      ∀ first ∈ candidates ⟨3,false⟩ found.inRecords, ∀ second ∈ candidates ⟨3,false⟩ found.inRecords,
        first.lastRenewed = second.lastRenewed) :=
  ⟨_,rfl,by decide,sends_last_iff (requestedTwice 1 1) 0 ⟨3,false⟩ none _ rfl (by decide) (by decide) (by decide)⟩

/-- Of two incoming Interests for one entry the earlier one is sent on to a third face. -/
theorem earlier_interest_sent :
    ∃ found, (requestedTwice 1 2).entries[0]? = some found ∧
      ∃ interest, ((requestedTwice 1 2).onOutgoingInterest 0 ⟨3,false⟩ none).map outputs =
        some [.interest ⟨3,false⟩ interest 0 found] ∧
      ¬ ∃ record, IsLast ⟨3,false⟩ found.inRecords record ∧ interest = record.interest := by
  refine ⟨_,rfl,⟨[[0x41]],.none,7,4000⟩,by decide,?_⟩
  rintro ⟨record,⟨member,last⟩,same⟩
  have only : ∀ record ∈ candidates ⟨3,false⟩ ((requestedTwice 1 2).entries.head (by decide)).inRecords,
      record.interest.nonce = 7 → record.lastRenewed = 1 := by decide
  have early := only record member (by rw [← same])
  have late := last ⟨⟨⟨2,false⟩,8,2,4000000002⟩,⟨[[0x41]],.none,8,4000⟩⟩ (by decide)
  rw [early] at late
  exact absurd late (by decide)

end Forwarder

end Ncfcc.Nfd.Fw
