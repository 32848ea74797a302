import Mathlib.Data.Set.Card
import Ncfcc.Nfd.Table.EntryNumbers

/-! The sizes of the FIB and of the PIT over runs in which all tables share the name tree. The
erasure of a name from the FIB is counted whether or not the FIB has the name. -/
namespace Ncfcc.Nfd.Table
open Ncfcc.Library NameTree

namespace View

def held (view : View) (kind : Kind) : Set (Nat × Nat) := {pair | pair.2 ∈ kind.numbers (view.tree.carried pair.1)}

def Counted (view : View) (kind : Kind) : Prop := view.nItems kind = (view.held kind).ncard

section
variable {view : View}

theorem Numbered.held_finite (numbered : view.Numbered) (kind : Kind) : (view.held kind).Finite := by
  refine ((Set.finite_lt_nat view.tree.nextEntry).prod (Set.finite_lt_nat view.nextNumber)).subset ?_
  rintro ⟨id,number⟩ inside
  obtain ⟨entry,stored⟩ := Tables.entry_of_numbers inside
  refine ⟨?_,numbered.given kind id number inside⟩
  by_contra late
  rw [numbered.linked.fresh id (Nat.le_of_not_lt late)] at stored
  cases stored

theorem Numbered.ncard_held (numbered : view.Numbered) (kind : Kind) :
    (view.held kind).ncard = {number | ∃ id, number ∈ kind.numbers (view.tree.carried id)}.ncard := by
  have once : Set.InjOn Prod.snd (view.held kind) := by
    rintro ⟨node,number⟩ first ⟨other,item⟩ second same
    cases (show number = item from same)
    exact Prod.ext (numbered.once kind node other number first second) rfl
  have numbers : {number | ∃ id, number ∈ kind.numbers (view.tree.carried id)} = Set.image Prod.snd (view.held kind) := by
    ext number
    rw [Set.mem_image]
    constructor
    · rintro ⟨id,held⟩
      exact ⟨(id,number),held,rfl⟩
    · rintro ⟨⟨node,item⟩,held,rfl⟩
      exact ⟨node,held⟩
  rw [numbers,once.ncard_image]

theorem Counted.shifts {next : View} {kind : Kind} (counted : view.Counted kind) (numbered : view.Numbered)
    (shift : Shifts view next) : next.Counted kind := by
  unfold Counted at counted ⊢
  cases shift with
  | grown tree grows =>
    have same : ({view with tree} : View).held kind = view.held kind := by
      unfold held
      rw [grows.carried]
    rw [same]
    exact counted
  | attached tree other id interest entry grows stored takes =>
    have members : (view.attach tree other id interest).held kind =
        if kind = other then insert (id,view.nextNumber) (view.held kind) else view.held kind := by
      ext ⟨node,number⟩
      refine (mem_attach grows stored takes kind node number).trans ?_
      split
      · rename_i same
        rw [Set.mem_insert_iff,Prod.mk.injEq]
        simp only [same,true_and,or_comm]
        rfl
      · rename_i different
        simp only [different,false_and,or_false]
        rfl
    rw [members]
    change Function.update view.nItems other (view.nItems other + 1) kind = _
    split
    · rename_i same
      have new : (id,view.nextNumber) ∉ view.held kind := by
        intro inside
        exact Nat.lt_irrefl _ (numbered.given kind id view.nextNumber inside)
      rw [← same,Function.update_self,Set.ncard_insert_of_notMem new (numbered.held_finite kind),counted]
    · rename_i different
      rw [Function.update_of_ne different]
      exact counted
  | detached other number id held below =>
    have members : (view.detach other number id).held kind =
        if kind = other then view.held kind \ {(id,number)} else view.held kind := by
      ext ⟨node,item⟩
      refine (numbered.mem_detach held kind node item).trans ?_
      split
      · rename_i same
        rw [Set.mem_sdiff,Set.mem_singleton_iff,Prod.mk.injEq]
        simp only [same,true_and]
        rfl
      · rename_i different
        simp only [different,false_and,not_false_eq_true,and_true]
        rfl
    rw [members]
    change Function.update view.nItems other (Tables.decrement (view.nItems other)) kind = _
    split
    · rename_i same
      have inside : (id,number) ∈ view.held kind := same ▸ held
      have some := (Set.ncard_pos (numbered.held_finite kind)).mpr ⟨_,inside⟩
      rw [← same,Function.update_self,Set.ncard_sdiff_singleton_of_mem inside,counted,Tables.decrement,if_neg (by omega)]
    · rename_i different
      rw [Function.update_of_ne different]
      exact counted

private theorem initial_counted (nBuckets : Nat) (kind : Kind) : (initial nBuckets).Counted kind := by
  have none : (initial nBuckets).held kind = ∅ := by
    ext pair
    cases kind <;> simp [held,initial,carried,NameTree.initial,Kind.numbers,Attached.none]
  unfold Counted
  rw [none,Set.ncard_empty]
  rfl

end

end View

namespace Tables

/-- `Fib::size` and `Pit::size` are the numbers of nodes with a FIB entry and of PIT entries. -/
structure Sized (tables : Tables) : Prop where
  fib : tables.fibNItems = {id | ∃ entry, tables.tree.entries id = some entry ∧ entry.fibEntry.isSome}.ncard
  pit : tables.pitNItems =
    {pitEntry | ∃ id entry, tables.tree.entries id = some entry ∧ pitEntry ∈ entry.pitEntries}.ncard

/-- A name erased from the FIB is not in the tree, or has a FIB entry there. -/
def ErasesPresent (hashComponent : Component → UInt64) (tables : Tables) (operation : Operation) : Prop :=
  ∀ name id, operation = .fibErase name → tables.tree.findExactMatch hashComponent name = some id →
    ∃ entry, tables.tree.entries id = some entry ∧ entry.fibEntry.isSome

section
variable {tables : Tables}

private theorem sized_iff (numbered : tables.view.Numbered) :
    tables.Sized ↔ tables.view.Counted .fib ∧ tables.view.Counted .pit := by
  have nodes : {id | ∃ entry, tables.tree.entries id = some entry ∧ entry.fibEntry.isSome} =
      Set.image Prod.fst (tables.view.held .fib) := by
    ext id
    rw [Set.mem_image]
    constructor
    · rintro ⟨entry,stored,present⟩
      obtain ⟨number,attached⟩ := Option.isSome_iff_exists.mp present
      refine ⟨(id,number),?_,rfl⟩
      change number ∈ Kind.fib.numbers (tables.tree.carried id)
      rw [carried_of_entry stored]
      exact Option.mem_toList.mpr attached
    · rintro ⟨⟨node,number⟩,held,rfl⟩
      change number ∈ Kind.fib.numbers (tables.tree.carried node) at held
      obtain ⟨entry,stored⟩ := entry_of_numbers held
      rw [carried_of_entry stored] at held
      exact ⟨entry,stored,Option.isSome_of_mem (Option.mem_toList.mp held)⟩
  have entries : {pitEntry | ∃ id entry, tables.tree.entries id = some entry ∧ pitEntry ∈ entry.pitEntries} =
      {number | ∃ id, number ∈ Kind.pit.numbers (tables.tree.carried id)} := by
    ext number
    constructor
    · rintro ⟨id,entry,stored,inside⟩
      refine ⟨id,?_⟩
      rw [carried_of_entry stored]
      exact inside
    · rintro ⟨node,held⟩
      obtain ⟨entry,stored⟩ := entry_of_numbers held
      rw [carried_of_entry stored] at held
      exact ⟨node,entry,stored,held⟩
  have single : Set.InjOn Prod.fst (tables.view.held .fib) := by
    rintro ⟨node,number⟩ first ⟨other,item⟩ second same
    cases (show node = other from same)
    change number ∈ Option.toList _ at first
    change item ∈ Option.toList _ at second
    rw [Option.mem_toList] at first second
    exact Prod.ext rfl (Option.mem_unique first second)
  have pairs : (tables.view.held .pit).ncard = {number | ∃ id, number ∈ Kind.pit.numbers (tables.tree.carried id)}.ncard :=
    numbered.ncard_held .pit
  unfold View.Counted
  rw [← single.ncard_image,pairs,← nodes,← entries]
  exact ⟨fun sized => ⟨sized.fib,sized.pit⟩,fun counted => ⟨counted.1,counted.2⟩⟩

private theorem erasesPresent_iff (hashComponent : Component → UInt64) (operation : Operation) :
    tables.ErasesPresent hashComponent operation ↔ ∀ id, ¬ tables.Loses hashComponent operation id := by
  constructor
  · rintro present id ⟨name,rfl,found,free⟩
    obtain ⟨entry,stored,attached⟩ := present name id rfl found
    rw [carried_of_entry stored] at free
    have absent : entry.fibEntry = none := Option.toList_eq_nil_iff.mp free
    rw [absent] at attached
    cases attached
  · rintro keeps name id rfl found
    obtain ⟨-,entry,stored,-⟩ := find_some tables.tree _ id _ found
    refine ⟨entry,stored,?_⟩
    by_contra absent
    refine keeps id ⟨name,rfl,found,?_⟩
    rw [carried_of_entry stored]
    exact Option.toList_eq_nil_iff.mpr (Option.not_isSome_iff_eq_none.mp absent)

/-- One operation keeps the sizes right exactly if it erases what is there. -/
theorem step_sized_iff (hashComponent : Component → UInt64)
    (longestMatch : NameTree → Name → (NameTree.Entry → Bool) → Option Nat) {next : Tables} {operation : Operation}
    (numbered : tables.view.Numbered) (sized : tables.Sized)
    (taken : tables.step hashComponent longestMatch operation = some next) :
    next.Sized ↔ tables.ErasesPresent hashComponent operation := by
  rw [erasesPresent_iff,sized_iff (step_numbered hashComponent longestMatch numbered taken)]
  obtain ⟨fib,pit⟩ := (sized_iff numbered).mp sized
  constructor
  · rintro ⟨counted,-⟩ id loses
    have view := step_loses longestMatch loses taken
    obtain ⟨name,-,-,free⟩ := loses
    rw [view] at counted
    have same : (tables.view.detach .fib 0 id).held .fib = tables.view.held .fib := by
      unfold View.held
      rw [(View.lost_prunes numbered.linked free).carried]
    unfold View.Counted at counted fib
    rw [same,← fib] at counted
    change Function.update tables.view.nItems .fib (decrement (tables.view.nItems .fib)) .fib = _ at counted
    rw [Function.update_self] at counted
    unfold decrement at counted
    split at counted <;> omega
  · intro keeps
    have path := step_moves longestMatch numbered.linked (fun _ _ _ _ => trivial) keeps
      (tables.allows_true hashComponent operation) taken
    have counted : next.view.Numbered ∧ ∀ kind, tables.view.Counted kind → next.view.Counted kind := by
      generalize next.view = after at path
      induction path with
      | refl => exact ⟨numbered,fun _ holds => holds⟩
      | tail _ move ih =>
        obtain ⟨numbered,counted⟩ := ih
        have shift := move.shifts numbered.linked
        exact ⟨numbered.shifts shift,fun kind holds => (counted kind holds).shifts numbered shift⟩
    exact ⟨counted.2 .fib fib,counted.2 .pit pit⟩

end

section
variable (hashComponent : Component → UInt64)
  (longestMatch : NameTree → Name → (NameTree.Entry → Bool) → Option Nat)

theorem new_counted (nBuckets : Nat) (now : Int) (defaultStrategy : Strategy) (kind : Kind) :
    (new hashComponent nBuckets now defaultStrategy).view.Counted kind := by
  have start := View.initial_numbered nBuckets
  have move : Moves hashComponent (fun _ _ => True) (fun _ _ => True) _ _ := new_moves nBuckets now defaultStrategy trivial
  exact (View.initial_counted nBuckets kind).shifts start (move.shifts start.linked)

private theorem new_sized (nBuckets : Nat) (now : Int) (defaultStrategy : Strategy) :
    (new hashComponent nBuckets now defaultStrategy).Sized := by
  have counted := new_counted hashComponent nBuckets now defaultStrategy
  rw [sized_iff (new_numbered hashComponent nBuckets now defaultStrategy)]
  exact ⟨counted .fib,counted .pit⟩

private theorem along_sized_iff (nBuckets : Nat) (now : Int) (defaultStrategy : Strategy) (operations : List Operation) :
    Along (attempt (step hashComponent longestMatch)) (fun state => ∀ tables, state = some tables → tables.Sized)
        (some (new hashComponent nBuckets now defaultStrategy)) operations ↔
      Steps (attempt (step hashComponent longestMatch))
        (fun state operation => ∀ tables, state = some tables → tables.ErasesPresent hashComponent operation)
        (some (new hashComponent nBuckets now defaultStrategy)) operations := by
  have anything : Steps (attempt (step hashComponent longestMatch))
      (fun state operation => ∀ tables, state = some tables → (fun _ _ => True) tables operation)
      (some (new hashComponent nBuckets now defaultStrategy)) operations := fun _ _ _ _ _ => trivial
  refine attempt_along_iff_steps (I := fun tables => tables.view.Numbered) ?_ ?_
    (new_numbered hashComponent nBuckets now defaultStrategy) (new_sized hashComponent nBuckets now defaultStrategy) anything
  · intro tables operation next numbered _ taken
    exact ⟨step_numbered hashComponent longestMatch numbered taken,
      fun sized => step_sized_iff hashComponent longestMatch numbered sized taken⟩
  · rintro tables operation failed name id rfl
    cases failed

/-- In a run with safe resizes the sizes are right in every state, and no search meets a deleted
entry, exactly if each erasure of a name from the FIB meets a node with a FIB entry or none. -/
theorem sized_iff_erasesPresent (nBuckets : Nat) (positive : 0 < nBuckets) (now : Int) (defaultStrategy : Strategy)
    (operations : List Operation)
    (safe : RunsSafely hashComponent longestMatch (new hashComponent nBuckets now defaultStrategy) operations) :
    Along (attempt (step hashComponent longestMatch))
        (fun state => ∀ tables, state = some tables → tables.Sized ∧ tables.ChainsStored)
        (some (new hashComponent nBuckets now defaultStrategy)) operations ↔
      Steps (attempt (step hashComponent longestMatch))
        (fun state operation => ∀ tables, state = some tables → tables.ErasesPresent hashComponent operation)
        (some (new hashComponent nBuckets now defaultStrategy)) operations := by
  rw [← along_sized_iff]
  constructor
  · intro always before inside tables reached
    exact (always before inside tables reached).1
  · intro sized before inside tables reached
    exact ⟨sized before inside tables reached,(safe.settled positive before inside tables reached).chainsStored⟩

end

theorem sized_iff_erasesPresent_fib :
    Along (attempt (step CityHash.cityHash64 fun tree => tree.findLongestPrefixMatch CityHash.cityHash64))
      (fun state => ∀ tables, state = some tables → tables.Sized ∧ tables.ChainsStored)
      (some (new CityHash.cityHash64 16 0 ⟨[[8,1,0x53]],0⟩))
      [.fibInsert [[8,1,0x41]],.measurementsGet [[8,1,0x42]],.fibErase [[8,1,0x41]],.fibErase [[8,1,0x41]]] := by
  refine (sized_iff_erasesPresent CityHash.cityHash64 _ 16 (by decide) 0 ⟨[[8,1,0x53]],0⟩ _ (by decide +kernel)).mpr ?_
  simp only [steps_cons,steps_nil,and_true]
  refine ⟨?_,?_,?_,?_⟩
  · rintro _ _ _ _ ⟨⟩
  · rintro _ _ _ _ ⟨⟩
  · rintro tables ⟨⟩ _ id ⟨⟩ found
    have first : some 1 = some id := Eq.trans (by decide +kernel) found
    cases first
    exact ⟨_,(Option.some_get (by decide +kernel)).symm,by decide +kernel⟩
  · rintro tables ⟨⟩ _ id ⟨⟩ found
    have absent : none = some id := Eq.trans (by decide +kernel) found
    cases absent

/-- The FIB has no entry for `/A` and is told to erase it. -/
theorem fibErase_counts_measurements :
    ¬ Along (attempt (step CityHash.cityHash64 fun tree => tree.findLongestPrefixMatch CityHash.cityHash64))
      (fun state => ∀ tables, state = some tables → tables.Sized)
      (some (new CityHash.cityHash64 16 0 ⟨[[8,1,0x53]],0⟩))
      [.measurementsGet [[8,1,0x41]],.fibErase [[8,1,0x41]]] := by
  intro always
  have taken : (new CityHash.cityHash64 16 0 ⟨[[8,1,0x53]],0⟩).step CityHash.cityHash64 (fun _ _ _ => none)
      (.measurementsGet [[8,1,0x41]]) = some measured := rfl
  have numbered := step_numbered CityHash.cityHash64 _ (new_numbered CityHash.cityHash64 16 0 ⟨[[8,1,0x53]],0⟩) taken
  have before : measured.Sized := always [.measurementsGet [[8,1,0x41]]] (by simp) _ rfl
  have after := always _ List.prefix_rfl (measured.fibErase CityHash.cityHash64 [[8,1,0x41]]) rfl
  have erased : measured.step CityHash.cityHash64 (fun _ _ _ => none) (.fibErase [[8,1,0x41]]) = some _ := rfl
  rw [step_sized_iff CityHash.cityHash64 _ numbered before erased] at after
  have found : measured.tree.findExactMatch CityHash.cityHash64 [[8,1,0x41]] = some 1 := by
    decide +kernel
  obtain ⟨entry,stored,present⟩ := after _ 1 rfl found
  have absent : (measured.tree.entries 1).bind NameTree.Entry.fibEntry = none := by
    decide +kernel
  rw [stored,Option.bind_some] at absent
  rw [absent] at present
  cases present

end Tables

end Ncfcc.Nfd.Table
