import Ncfcc.Nfd.Table.EntryNumbers

/-! The next hops of the FIB entries over runs, and the removal of a face from all of them,
which goes through an enumeration of the name tree. -/
namespace Ncfcc.Nfd.Table.Tables
open Ncfcc.Library NameTree

def FibAt (tables : Tables) (name : Name) (number : Nat) : Prop :=
  ∃ id entry, tables.tree.entries id = some entry ∧ entry.name = name ∧ entry.fibEntry = some number

section
variable {tables : Tables}

private theorem mem_numbers_fib {tree : NameTree} {id : Nat} {entry : NameTree.Entry} (stored : tree.entries id = some entry)
    (number : Nat) : number ∈ Kind.fib.numbers (tree.carried id) ↔ entry.fibEntry = some number := by
  rw [carried_of_entry stored]
  exact Option.mem_toList

private theorem fibAt_iff (name : Name) (number : Nat) : tables.FibAt name number ↔ tables.view.EntryAt .fib name number := by
  constructor
  · rintro ⟨id,entry,stored,named,attached⟩
    exact ⟨id,entry,stored,named,(mem_numbers_fib stored number).mpr attached⟩
  · rintro ⟨id,entry,stored,named,held⟩
    exact ⟨id,entry,stored,named,(mem_numbers_fib stored number).mp held⟩

private theorem fibNode_iff (numbered : tables.view.Numbered) (number id : Nat) :
    tables.fibNode number = some id ↔ number ∈ Kind.fib.numbers (tables.tree.carried id) := by
  constructor
  · intro found
    obtain ⟨entry,stored,holds⟩ := entry_of_holder found
    exact (mem_numbers_fib stored number).mpr (of_decide_eq_true holds)
  · refine holder_eq numbered fun entry => ?_
    exact decide_eq_true_iff.trans Option.mem_toList.symm

theorem fibEraseEntry_numbered (numbered : tables.view.Numbered) (fibEntry : Nat) :
    (tables.fibEraseEntry fibEntry).view.Numbered :=
  have taken : tables.step (fun _ => 0) (fun _ _ _ => none) (.fibEraseEntry fibEntry) = some _ := rfl
  step_numbered _ _ numbered taken

/-- An erasure takes one entry from the FIB. -/
theorem fibEraseEntry_fibAt (numbered : tables.view.Numbered) (fibEntry : Nat) (name : Name) (number : Nat) :
    (tables.fibEraseEntry fibEntry).FibAt name number ↔ tables.FibAt name number ∧ number ≠ fibEntry := by
  rw [fibAt_iff,fibAt_iff]
  unfold fibEraseEntry
  cases found : tables.fibNode fibEntry with
  | none =>
    refine ⟨?_,fun both => both.1⟩
    rintro ⟨id,entry,stored,named,held⟩
    refine ⟨⟨id,entry,stored,named,held⟩,?_⟩
    rintro rfl
    rw [(fibNode_iff numbered number id).mpr held] at found
    cases found
  | some node =>
    have erased := (fibNode_iff numbered fibEntry node).mp found
    have detached := numbered.entryAt_detach erased (fun other => by cases other) .fib name number
    rw [← fibEraseNode_view tables node fibEntry] at detached
    rw [detached]
    simp

private theorem removeNextHopFromAllEntries_nextHops (tables : Tables) (face : Nat) :
    (tables.removeNextHopFromAllEntries face).nextHops = (tables.withoutNextHop face).nextHops :=
  foldl_kept nextHops fibEraseEntry (fun tables fibEntry => congrArg Contents.nextHops (tables.fibEraseEntry_contents fibEntry)) _ _

private theorem erasures_fibAt (entries : List Nat) (numbered : tables.view.Numbered) (name : Name) (number : Nat) :
    (entries.foldl fibEraseEntry tables).FibAt name number ↔ tables.FibAt name number ∧ number ∉ entries := by
  induction entries generalizing tables with
  | nil => simp
  | cons fibEntry rest ih =>
    rw [List.foldl_cons,ih (fibEraseEntry_numbered numbered fibEntry),fibEraseEntry_fibAt numbered,List.mem_cons,not_or,
      and_assoc]

/-- The entries of the enumeration lose the face. -/
theorem removals_nextHops (entries : List Nat) (ordered : ∀ number, Ordered (tables.nextHops number)) (face number : Nat) :
    (entries.foldl (fun tables fibEntry => tables.removeNextHop fibEntry face) tables).nextHops number =
      if number ∈ entries then (tables.nextHops number).filter fun hop => hop.face ≠ face
      else tables.nextHops number := by
  induction entries generalizing tables with
  | nil => rfl
  | cons fibEntry rest ih =>
    have removed : (tables.removeNextHop fibEntry face).nextHops =
        Function.update tables.nextHops fibEntry ((tables.nextHops fibEntry).filter fun hop => hop.face ≠ face) := by
      rw [← (ordered fibEntry).eraseP_eq]
      rfl
    have still : ∀ number, Ordered ((tables.removeNextHop fibEntry face).nextHops number) := by
      intro number
      rw [removed,Function.update_apply]
      split
      · exact (ordered fibEntry).sublist List.filter_sublist
      · exact ordered number
    rw [List.foldl_cons,ih still,removed,Function.update_apply]
    by_cases here : number = fibEntry
    · rw [if_pos here,here]
      simp
    · rw [if_neg here]
      simp [here]

private theorem mem_fibEntries {hashComponent : Component → UInt64} (consistent : NameTree.Consistent hashComponent tables.tree)
    (small : tables.tree.nBuckets < 2^31) (number : Nat) :
    number ∈ tables.fibEntries ↔ ∃ name, tables.FibAt name number := by
  unfold fibEntries
  rw [List.mem_filterMap]
  constructor
  · rintro ⟨id,-,attached⟩
    obtain ⟨entry,stored,attached⟩ := Option.bind_eq_some_iff.mp attached
    exact ⟨entry.name,id,entry,stored,rfl,attached⟩
  · rintro ⟨name,id,entry,stored,-,attached⟩
    refine ⟨id,(consistent.mem_fullEnumerate small _ id).mpr ⟨entry,stored,?_⟩,?_⟩
    · rw [attached]
      rfl
    · rw [stored]
      exact attached

/-- What the removal of a face from all entries has to do. -/
structure Removed (tables next : Tables) (face : Nat) : Prop where
  gone : ∀ name number, next.FibAt name number → ∀ hop ∈ next.nextHops number, hop.face ≠ face
  others : ∀ name number, tables.FibAt name number →
    next.nextHops number = (tables.nextHops number).filter fun hop => hop.face ≠ face
  erased : ∀ name number, next.FibAt name number ↔ tables.FibAt name number ∧ next.nextHops number ≠ []

private theorem removeNextHopFromAllEntries_removed {hashComponent : Component → UInt64}
    (settled : Settled hashComponent tables.view) (ordered : ∀ number, Ordered (tables.nextHops number))
    (small : tables.tree.nBuckets < 2^31) (face : Nat) :
    tables.Removed (tables.removeNextHopFromAllEntries face) face := by
  have entries := mem_fibEntries settled.consistent small
  have view := tables.withoutNextHop_view face
  have numbered : (tables.withoutNextHop face).view.Numbered := view ▸ settled.numbered
  have same : ∀ name number, (tables.withoutNextHop face).FibAt name number ↔ tables.FibAt name number := by
    intro name number
    unfold FibAt
    have tree : (tables.withoutNextHop face).tree = tables.tree := congrArg View.tree view
    rw [tree]
  have filtered : ∀ name number, tables.FibAt name number → (tables.withoutNextHop face).nextHops number =
      (tables.nextHops number).filter fun hop => hop.face ≠ face := by
    intro name number attached
    exact (removals_nextHops tables.fibEntries ordered face number).trans (if_pos ((entries number).mpr ⟨name,attached⟩))
  have erasures := erasures_fibAt (tables.toErase face) numbered
  have hops := tables.removeNextHopFromAllEntries_nextHops face
  have left : ∀ name number, (tables.removeNextHopFromAllEntries face).FibAt name number ↔
      tables.FibAt name number ∧ (tables.withoutNextHop face).nextHops number ≠ [] := by
    intro name number
    refine (erasures name number).trans ?_
    rw [same,toErase,List.mem_filter]
    constructor
    · rintro ⟨attached,kept⟩
      refine ⟨attached,?_⟩
      intro empty
      exact kept ⟨(entries number).mpr ⟨name,attached⟩,List.isEmpty_iff.mpr empty⟩
    · rintro ⟨attached,some⟩
      refine ⟨attached,?_⟩
      rintro ⟨-,empty⟩
      exact some (List.isEmpty_iff.mp empty)
  refine ⟨?_,?_,?_⟩
  · intro name number attached hop inside
    have before := ((left name number).mp attached).1
    rw [hops,filtered name number before,List.mem_filter] at inside
    exact of_decide_eq_true inside.2
  · intro name number attached
    rw [hops]
    exact filtered name number attached
  · intro name number
    rw [hops]
    exact left name number

end

section
variable (hashComponent : Component → UInt64)
  (longestMatch : NameTree → Name → (NameTree.Entry → Bool) → Option Nat)

/-- No operation makes the next hops of an entry unordered. -/
theorem step_ordered {tables next : Tables} {operation : Operation} (ordered : ∀ number, Ordered (tables.nextHops number))
    (taken : tables.step hashComponent longestMatch operation = some next) : ∀ number, Ordered (next.nextHops number) := by
  have update : ∀ fibEntry hops, Ordered hops → ∀ number, Ordered (Function.update tables.nextHops fibEntry hops number) := by
    intro fibEntry hops good number
    rw [Function.update_apply]
    split
    · exact good
    · exact ordered number
  by_cases sets : SetsContents operation
  · cases sets with
    | fibInsert name =>
      cases taken
      unfold fibInsert
      dsimp only
      split
      · exact ordered
      · split
        · exact ordered
        · exact update _ _ .empty
    | addNextHop fibEntry face cost =>
      cases taken
      exact update fibEntry _ ((ordered fibEntry).addNextHop face cost)
    | removeNextHop fibEntry face =>
      cases taken
      exact update fibEntry _ ((ordered fibEntry).sublist List.eraseP_sublist)
    | removeNextHopFromAllEntries face =>
      cases taken
      intro number
      rw [removeNextHopFromAllEntries_nextHops,withoutNextHop,removals_nextHops tables.fibEntries ordered face number]
      split
      · exact (ordered number).sublist List.filter_sublist
      · exact ordered number
    | install strategy =>
      cases taken
      unfold install
      split <;> exact ordered
    | strategyChoiceInsert name strategyName =>
      rw [strategyChoiceInsert_nextHops taken]
      exact ordered
  · have same : next.nextHops = tables.nextHops := congrArg Contents.nextHops (step_contents longestMatch sets taken)
    rw [same]
    exact ordered

/-- The buckets are counted by an `int` where all entries are enumerated. -/
def EnumeratesSmall (tables : Tables) (operation : Operation) : Prop :=
  ∀ face, operation = .removeNextHopFromAllEntries face → tables.tree.nBuckets < 2^31

/-- The first next hop with a face gets the new cost, or one is added; a face is removed from all entries. -/
def ChangesNextHops (tables next : Tables) : Operation → Prop
  | .addNextHop fibEntry face cost =>
    (∀ hop, hop ∈ next.nextHops fibEntry ↔ if hop.face = face then hop.cost = cost else hop ∈ tables.nextHops fibEntry) ∧
      ∀ other, other ≠ fibEntry → next.nextHops other = tables.nextHops other
  | .removeNextHopFromAllEntries face => tables.Removed next face
  | _ => True

/-- In a run with safe resizes the next hops of every FIB entry stay ordered, an added face has
the added cost, and a removed face is gone from all entries, with those left without next hops. -/
theorem nextHops_maintained (nBuckets : Nat) (positive : 0 < nBuckets) (now : Int) (defaultStrategy : Strategy)
    (operations : List Operation)
    (safe : RunsSafely hashComponent longestMatch (new hashComponent nBuckets now defaultStrategy) operations)
    (small : Steps (attempt (step hashComponent longestMatch))
      (fun state operation => ∀ tables, state = some tables → tables.EnumeratesSmall operation)
      (some (new hashComponent nBuckets now defaultStrategy)) operations) :
    Along (attempt (step hashComponent longestMatch)) (fun state => ∀ tables, state = some tables →
          ∀ name number, tables.FibAt name number → Ordered (tables.nextHops number))
        (some (new hashComponent nBuckets now defaultStrategy)) operations ∧
      Steps (attempt (step hashComponent longestMatch)) (fun state operation => ∀ tables next, state = some tables →
          tables.step hashComponent longestMatch operation = some next → tables.ChangesNextHops next operation)
        (some (new hashComponent nBuckets now defaultStrategy)) operations := by
  have ordered : ∀ before tables, run (attempt (step hashComponent longestMatch))
      (some (new hashComponent nBuckets now defaultStrategy)) before = some tables →
      ∀ number, Ordered (tables.nextHops number) := by
    intro before tables reached
    refine attempt_invariant (P := fun tables => ∀ number, Ordered (tables.nextHops number)) ?_ (fun _ => .empty) reached
    intro tables operation next good taken
    exact step_ordered hashComponent longestMatch good taken
  constructor
  · intro before _ tables here name number _
    exact ordered before tables here number
  · intro before operation inside tables next here taken
    have settled := safe.settled positive before ((List.prefix_append _ _).trans inside) tables here
    have ordered := ordered before tables here
    cases operation with
    | addNextHop fibEntry face cost =>
      cases taken
      have hops : (tables.addNextHop fibEntry face cost).nextHops fibEntry =
          Table.addNextHop (tables.nextHops fibEntry) face cost := Function.update_self ..
      refine ⟨?_,fun other different => Function.update_of_ne different ..⟩
      intro hop
      rw [hops]
      exact (addNextHop_spec (tables.nextHops fibEntry) face cost (ordered fibEntry).distinct).2 hop
    | removeNextHopFromAllEntries face =>
      cases taken
      exact removeNextHopFromAllEntries_removed settled ordered (small before _ inside tables here face rfl) face
    | _ => trivial

end

def removesFace : List Operation :=
  [.fibInsert [[8,1,0x41]],.addNextHop 1 7 0,.fibInsert [[8,1,0x42]],.addNextHop 2 7 0,.removeNextHopFromAllEntries 7]

theorem nextHops_maintained_removesFace :
    Along (attempt (step CityHash.cityHash64 fun tree => tree.findLongestPrefixMatch CityHash.cityHash64))
        (fun state => ∀ tables, state = some tables →
          ∀ name number, tables.FibAt name number → Ordered (tables.nextHops number))
        (some (new CityHash.cityHash64 16 0 ⟨[[8,1,0x53]],0⟩)) removesFace ∧
      Steps (attempt (step CityHash.cityHash64 fun tree => tree.findLongestPrefixMatch CityHash.cityHash64))
        (fun state operation => ∀ tables next, state = some tables → tables.step CityHash.cityHash64
          (fun tree => tree.findLongestPrefixMatch CityHash.cityHash64) operation = some next →
          tables.ChangesNextHops next operation)
        (some (new CityHash.cityHash64 16 0 ⟨[[8,1,0x53]],0⟩)) removesFace := by
  refine nextHops_maintained CityHash.cityHash64 _ 16 (by decide) 0 ⟨[[8,1,0x53]],0⟩ _ (by decide +kernel) ?_
  simp only [removesFace,steps_cons,steps_nil,and_true]
  refine ⟨?_,?_,?_,?_,?_⟩
  · rintro _ _ _ ⟨⟩
  · rintro _ _ _ ⟨⟩
  · rintro _ _ _ ⟨⟩
  · rintro _ _ _ ⟨⟩
  · rintro tables ⟨⟩ face _
    decide +kernel

/-- With three buckets `/A` is put into bucket one by the resize to six, and the enumeration
goes on behind bucket five, the one of its hash: `/B` keeps the face. -/
theorem enumeration_misses_entry :
    ¬ (Along (attempt (step CityHash.cityHash64 fun tree => tree.findLongestPrefixMatch CityHash.cityHash64))
        (fun state => ∀ tables, state = some tables →
          ∀ name number, tables.FibAt name number → Ordered (tables.nextHops number))
        (some (new CityHash.cityHash64 3 0 ⟨[[8,1,0x53]],0⟩)) removesFace ∧
      Steps (attempt (step CityHash.cityHash64 fun tree => tree.findLongestPrefixMatch CityHash.cityHash64))
        (fun state operation => ∀ tables next, state = some tables → tables.step CityHash.cityHash64
          (fun tree => tree.findLongestPrefixMatch CityHash.cityHash64) operation = some next →
          tables.ChangesNextHops next operation)
        (some (new CityHash.cityHash64 3 0 ⟨[[8,1,0x53]],0⟩)) removesFace) := by
  rintro ⟨-,changes⟩
  simp only [removesFace,steps_cons,steps_nil,and_true] at changes
  have removed := changes.2.2.2.2 _ _ rfl rfl
  refine removed.gone [[8,1,0x42]] 2 ?_ ⟨7,0⟩ ?_ rfl
  · refine ⟨2,_,(Option.some_get (by decide +kernel)).symm,?_,?_⟩
    · decide +kernel
    · decide +kernel
  · decide +kernel

end Ncfcc.Nfd.Table.Tables
