import Ncfcc.Nfd.Fw.DataDelivery
import Ncfcc.Nfd.Table.DataMatches

/-! The forwarder's list of PIT entries is searched for Data as the PIT in the name tree is. -/
namespace Ncfcc.Nfd.Fw.Forwarder
open Ncfcc.Library Ncfcc.Nfd.Table Ncfcc.Nfd.Table.Tables
open Ncfcc.Cs (FreshData)

/-- The entries of the PIT are those in the list, each at its place. -/
structure Lists (forwarder : Forwarder) (tables : Tables) (place : Nat → Nat) : Prop where
  placed : ∀ name number, tables.PitAt name number → ∃ found, forwarder.entries[place number]? = some found ∧
    found.inPit = true ∧ found.interest = tables.interests number
  attached : ∀ entry found, forwarder.entries[entry]? = some found → found.inPit = true →
    ∃ name number, tables.PitAt name number ∧ place number = entry

section
variable {hashComponent : Component → UInt64} {forwarder : Forwarder} {tables : Tables} {place : Nat → Nat}

theorem Lists.name_eq (lists : forwarder.Lists tables place) (filed : Filed tables.view) {name : Name} {number : Nat}
    (attached : tables.PitAt name number) : ∃ found, forwarder.entries[place number]? = some found ∧ found.inPit = true ∧
      found.interest = tables.interests number ∧ found.interest.name = name := by
  obtain ⟨found,there,inPit,same⟩ := lists.placed name number attached
  obtain ⟨id,entry,stored,rfl,held⟩ := attached
  exact ⟨found,there,inPit,same,(congrArg Interest.name same).trans
    (filed.named id entry number stored ((mem_numbers_pit stored number).mpr held))⟩

/-- The names in the list are those of the nodes with PIT entries. -/
theorem Lists.mem_pitNames (lists : forwarder.Lists tables place) (filed : Filed tables.view) (name : Name) :
    name ∈ forwarder.pitNames ↔ ∃ number, tables.PitAt name number := by
  constructor
  · intro inside
    obtain ⟨found,member,rfl⟩ := List.mem_map.mp inside
    obtain ⟨listed,inPit⟩ := List.mem_filter.mp member
    obtain ⟨entry,there⟩ := List.mem_iff_getElem?.mp listed
    obtain ⟨name,number,attached,rfl⟩ := lists.attached entry found there inPit
    obtain ⟨same,here,-,-,named⟩ := lists.name_eq filed attached
    cases there.symm.trans here
    exact ⟨number,named ▸ attached⟩
  · rintro ⟨number,attached⟩
    obtain ⟨found,there,inPit,-,rfl⟩ := lists.name_eq filed attached
    exact List.mem_map_of_mem (List.mem_filter.mpr ⟨List.mem_of_getElem? there,inPit⟩)

/-- The same entries are found for Data, where names are told apart by their octets. -/
theorem Lists.mem_findAllDataMatches (lists : forwarder.Lists tables place)
    (consistent : NameTree.Consistent CityHash.cityHash64 tables.tree) (filed : Filed tables.view)
    {matchesData : Interest → FreshData → Bool} {fresh : FreshData} {data : Data} (named : fresh.name = data.name)
    (matching : ∀ interest, matchesData interest fresh = interest.matchesData data)
    (apart : ToldApart (data.name :: forwarder.pitNames)) {name : Name} {number : Nat} (attached : tables.PitAt name number) :
    place number ∈ forwarder.findAllDataMatches matchesData fresh ↔
      number ∈ tables.findAllDataMatches CityHash.cityHash64 data := by
  obtain ⟨found,there,inPit,same,rfl⟩ := lists.name_eq filed attached
  have inside := (lists.mem_pitNames filed found.interest.name).mpr ⟨number,attached⟩
  rw [Forwarder.mem_findAllDataMatches,named,
    Tables.mem_findAllDataMatches_iff consistent filed (lists.mem_pitNames filed) apart number]
  constructor
  · rintro ⟨other,deepest,⟨here,-,fits⟩,ends,shorter⟩
    cases there.symm.trans here
    rw [matching,same] at fits
    exact ⟨_,attached,(visited_iff apart inside).mpr ⟨deepest,ends,shorter⟩,fits⟩
  · rintro ⟨other,again,visited,fits⟩
    cases pitAt_unique filed.numbered again attached
    obtain ⟨deepest,ends,shorter⟩ := (visited_iff apart inside).mp visited
    exact ⟨found,deepest,⟨there,inPit,by rw [matching,same]; exact fits⟩,ends,shorter⟩

end

/-- In every state of the tables that a run with safe resizes reaches. -/
theorem findAllDataMatches_run (longestMatch : NameTree → Name → (NameTree.Entry → Bool) → Option Nat) (nBuckets : Nat)
    (positive : 0 < nBuckets) (now : Int) (defaultStrategy : Table.Strategy) (operations : List Operation) (final : Tables)
    (safe : RunsSafely CityHash.cityHash64 longestMatch (Tables.new CityHash.cityHash64 nBuckets now defaultStrategy) operations)
    (reached : run (attempt (Tables.step CityHash.cityHash64 longestMatch))
      (some (Tables.new CityHash.cityHash64 nBuckets now defaultStrategy)) operations = some final)
    (forwarder : Forwarder) (place : Nat → Nat) (lists : forwarder.Lists final place)
    (matchesData : Interest → FreshData → Bool) (fresh : FreshData) (data : Data) (named : fresh.name = data.name)
    (matching : ∀ interest, matchesData interest fresh = interest.matchesData data)
    (apart : ToldApart (data.name :: forwarder.pitNames)) (name : Name) (number : Nat) (attached : final.PitAt name number) :
    place number ∈ forwarder.findAllDataMatches matchesData fresh ↔
      number ∈ final.findAllDataMatches CityHash.cityHash64 data := by
  have consistent := (safe.settled positive operations List.prefix_rfl final reached).consistent
  have filed : Filed final.view := attempt_invariant (fun _ _ _ good taken => step_filed CityHash.cityHash64 longestMatch good taken)
    (new_filed CityHash.cityHash64 nBuckets now defaultStrategy) reached
  exact lists.mem_findAllDataMatches consistent filed named matching apart attached

end Ncfcc.Nfd.Fw.Forwarder
