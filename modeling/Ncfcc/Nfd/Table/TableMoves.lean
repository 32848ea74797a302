import Mathlib.Logic.Relation
import Ncfcc.Nfd.Table.NameTreeAttachments
import Ncfcc.Nfd.Table.Tables

/-! What the operations of the tables do to the name tree, to the counts of entries and to the
numbers given out: an entry is attached to a node that was looked up or is there, or it is
detached and empty nodes are erased. -/
namespace Ncfcc.Nfd.Table
open Ncfcc.Library NameTree

inductive Kind where
  | fib
  | pit
  | measurements
  | strategyChoice
  deriving DecidableEq

namespace Kind

def numbers : Kind → Attached → List Nat
  | fib, attached => attached.fibEntry.toList
  | pit, attached => attached.pitEntries
  | measurements, attached => attached.measurementsEntry.toList
  | strategyChoice, attached => attached.strategyChoiceEntry.toList

def attach (number : Nat) : Kind → Attached → Attached
  | fib, attached => {attached with fibEntry := some number}
  | pit, attached => {attached with pitEntries := attached.pitEntries ++ [number]}
  | measurements, attached => {attached with measurementsEntry := some number}
  | strategyChoice, attached => {attached with strategyChoiceEntry := some number}

def detach (number : Nat) : Kind → Attached → Attached
  | fib, attached => {attached with fibEntry := none}
  | pit, attached => {attached with pitEntries := swapRemove attached.pitEntries number}
  | measurements, attached => {attached with measurementsEntry := none}
  | strategyChoice, attached => {attached with strategyChoiceEntry := none}

end Kind

/-- The tables without the contents of their entries, apart from the Interests. -/
@[ext] structure View where
  tree : NameTree
  nextNumber : Nat
  nItems : Kind → Nat
  interests : Nat → Interest

def Tables.view (tables : Tables) : View where
  tree := tables.tree
  nextNumber := tables.nextNumber
  nItems
    | .fib => tables.fibNItems
    | .pit => tables.pitNItems
    | .measurements => tables.measurementsNItems
    | .strategyChoice => tables.strategyChoiceNItems
  interests := tables.interests

theorem Tables.view_eq {tables : Tables} {view : View} (tree : tables.tree = view.tree) (nextNumber : tables.nextNumber = view.nextNumber)
    (fib : tables.fibNItems = view.nItems .fib) (pit : tables.pitNItems = view.nItems .pit)
    (measurements : tables.measurementsNItems = view.nItems .measurements)
    (strategyChoice : tables.strategyChoiceNItems = view.nItems .strategyChoice) (interests : tables.interests = view.interests) :
    tables.view = view := by
  ext kind
  · exact tree
  · exact nextNumber
  · cases kind with
    | fib => exact fib
    | pit => exact pit
    | measurements => exact measurements
    | strategyChoice => exact strategyChoice
  · rw [← interests]
    rfl

namespace View

def attach (view : View) (tree : NameTree) (kind : Kind) (id : Nat) (interest : Interest) : View where
  tree := tree.alter id (kind.attach view.nextNumber)
  nextNumber := view.nextNumber + 1
  nItems := Function.update view.nItems kind (view.nItems kind + 1)
  interests := if kind = .pit then Function.update view.interests view.nextNumber interest else view.interests

def detach (view : View) (kind : Kind) (number id : Nat) : View where
  tree := ((view.tree.alter id (kind.detach number)).eraseEntryIfEmpty id).2
  nextNumber := view.nextNumber
  nItems := Function.update view.nItems kind (Tables.decrement (view.nItems kind))
  interests := view.interests

/-- A node takes one entry of a kind, and in the PIT one for the Name, which is the node's,
and the Selectors. -/
def Takes (view : View) (tree : NameTree) (kind : Kind) (id : Nat) (interest : Interest) : Prop :=
  if kind = .pit then
    (∀ entry, tree.entries id = some entry → entry.name = interest.name) ∧
      ∀ number ∈ kind.numbers (tree.carried id),
        ¬ ((view.interests number).name = interest.name ∧ (view.interests number).selectors = interest.selectors)
  else kind.numbers (tree.carried id) = []

end View

/-- The moves that operations are made of, over the calls of the name tree that are allowed and
the names that may be looked up without attaching anything. -/
inductive Moves (hashComponent : Component → UInt64) (allowed : NameTree → NameTree.Call → Prop)
    (peeks : NameTree → Name → Prop) : View → View → Prop
  | looked (view : View) (name : Name) (safe : allowed view.tree (.lookup name)) (peek : peeks view.tree name) :
      Moves hashComponent allowed peeks view {view with tree := (view.tree.lookup hashComponent name).1}
  | entered (view : View) (kind : Kind) (name : Name) (id : Nat) (interest : Interest)
      (safe : allowed view.tree (.lookup name)) (node : (view.tree.lookup hashComponent name).2 = some id)
      (takes : view.Takes (view.tree.lookup hashComponent name).1 kind id interest) :
      Moves hashComponent allowed peeks view (view.attach (view.tree.lookup hashComponent name).1 kind id interest)
  | attached (view : View) (kind : Kind) (id : Nat) (interest : Interest) (present : (view.tree.entries id).isSome)
      (takes : view.Takes view.tree kind id interest) :
      Moves hashComponent allowed peeks view (view.attach view.tree kind id interest)
  | detached (view : View) (kind : Kind) (number id : Nat) (held : number ∈ kind.numbers (view.tree.carried id))
      (below : kind = .strategyChoice → ∀ entry, view.tree.entries id = some entry → entry.name ≠ [])
      (safe : allowed (view.tree.alter id (kind.detach number)) (.eraseEntryIfEmpty id)) :
      Moves hashComponent allowed peeks view (view.detach kind number id)

namespace Tables

section
variable (hashComponent : Component → UInt64) (allowed : NameTree → NameTree.Call → Prop)
  (peeks : NameTree → Name → Prop) (tables : Tables)

def AllowsErase (fibEntry : Nat) : Prop :=
  ∀ id, tables.fibNode fibEntry = some id → allowed (tables.tree.setFibEntry id none) (.eraseEntryIfEmpty id)

def withoutNextHop (face : Nat) : Tables :=
  tables.fibEntries.foldl (fun tables fibEntry => tables.removeNextHop fibEntry face) tables

def toErase (face : Nat) : List Nat :=
  tables.fibEntries.filter fun fibEntry => ((tables.withoutNextHop face).nextHops fibEntry).isEmpty

def Allows : Operation → Prop
  | .fibInsert name => allowed tables.tree (.lookup name)
  | .fibErase name => ∀ id, tables.tree.findExactMatch hashComponent name = some id →
      allowed (tables.tree.setFibEntry id none) (.eraseEntryIfEmpty id)
  | .fibEraseEntry fibEntry => tables.AllowsErase allowed fibEntry
  | .removeNextHopFromAllEntries face =>
    Steps fibEraseEntry (fun state fibEntry => state.AllowsErase allowed fibEntry) (tables.withoutNextHop face)
      (tables.toErase face)
  | .pitInsert interest => allowed tables.tree (.lookup interest.name)
  | .pitErase pitEntry => ∀ id, tables.pitNode pitEntry = some id →
      allowed (tables.tree.erasePitEntry id pitEntry) (.eraseEntryIfEmpty id)
  | .measurementsGet name => allowed tables.tree (.lookup name)
  | .cleanup => ∀ event, tables.scheduler.next = some event → ∀ id, tables.measurementsNode event.callback = some id →
      allowed (tables.tree.setMeasurementsEntry id none) (.eraseEntryIfEmpty id)
  | .strategyChoiceInsert name strategyName =>
    (tables.getStrategy strategyName).isSome → allowed tables.tree (.lookup name)
  | .strategyChoiceErase name => ∀ id, tables.tree.findExactMatch hashComponent name = some id →
      allowed (tables.tree.setStrategyChoiceEntry id none) (.eraseEntryIfEmpty id)
  | .find (.measurementsExact name) => allowed tables.tree (.lookup name) ∧ peeks tables.tree name
  | _ => True

/-- The FIB is told to erase a name that the tree has and the FIB has not. -/
def Loses (operation : Operation) (id : Nat) : Prop :=
  ∃ name, operation = .fibErase name ∧ tables.tree.findExactMatch hashComponent name = some id ∧
    Kind.fib.numbers (tables.tree.carried id) = []

end

/-! The attached numbers, as the operations read them. -/

section
variable (tree : NameTree) (id : Nat)

private theorem numbers_fib :
    Kind.fib.numbers (tree.carried id) = ((tree.entries id).bind NameTree.Entry.fibEntry).toList := by
  unfold carried
  cases tree.entries id <;> rfl

theorem numbers_pit :
    Kind.pit.numbers (tree.carried id) = ((tree.entries id).map NameTree.Entry.pitEntries).getD [] := by
  unfold carried
  cases tree.entries id <;> rfl

theorem numbers_measurements : Kind.measurements.numbers (tree.carried id) =
    ((tree.entries id).bind NameTree.Entry.measurementsEntry).toList := by
  unfold carried
  cases tree.entries id <;> rfl

theorem numbers_strategyChoice : Kind.strategyChoice.numbers (tree.carried id) =
    ((tree.entries id).bind NameTree.Entry.strategyChoiceEntry).toList := by
  unfold carried
  cases tree.entries id <;> rfl

private theorem numbers_none (kind : Kind) : kind.numbers Attached.none = [] := by
  cases kind <;> rfl

variable {tree id}

theorem entry_of_numbers {kind : Kind} {number : Nat} (held : number ∈ kind.numbers (tree.carried id)) :
    ∃ entry, tree.entries id = some entry := by
  cases stored : tree.entries id with
  | none =>
    rw [carried_of_none stored,numbers_none] at held
    cases held
  | some entry => exact ⟨entry,rfl⟩

theorem entry_of_holder {holds : NameTree.Entry → Bool} (found : tree.holder holds = some id) :
    ∃ entry, tree.entries id = some entry ∧ holds entry = true := by
  have passed := List.find?_some found
  simpa [NameTree.selects,Option.any_eq_true] using passed

end

section
variable {hashComponent : Component → UInt64} {allowed : NameTree → NameTree.Call → Prop}
  {peeks : NameTree → Name → Prop} {tables : Tables}

theorem clearStrategyInfo_view (tables : Tables) (id : Nat) : (tables.clearStrategyInfo id).view = tables.view := by
  unfold clearStrategyInfo
  split <;> rfl

theorem foldl_kept {ι β : Type} (read : Tables → β) (change : Tables → ι → Tables)
    (kept : ∀ tables item, read (change tables item) = read tables) (items : List ι) (tables : Tables) :
    read (items.foldl change tables) = read tables := by
  induction items generalizing tables with
  | nil => rfl
  | cons item items ih => exact (ih _).trans (kept tables item)

theorem changeStrategy_kept {β : Type} (read : Tables → β)
    (kept : ∀ tables id, read (Tables.clearStrategyInfo tables id) = read tables) (hashComponent : Component → UInt64)
    (tables : Tables) (root : Nat) (name : Name) (old new : Strategy) :
    read (tables.changeStrategy hashComponent root name old new) = read tables := by
  unfold changeStrategy
  split
  · rfl
  · exact foldl_kept read _ kept _ tables

theorem changeStrategy_view (hashComponent : Component → UInt64) (tables : Tables) (root : Nat) (name : Name)
    (old new : Strategy) : (tables.changeStrategy hashComponent root name old new).view = tables.view :=
  changeStrategy_kept view clearStrategyInfo_view hashComponent tables root name old new

theorem withoutNextHop_view (tables : Tables) (face : Nat) : (tables.withoutNextHop face).view = tables.view :=
  foldl_kept view (fun tables fibEntry => tables.removeNextHop fibEntry face) (fun _ _ => rfl) _ tables

/-- The node that a lookup gives back, and that it was there if anything is attached to it. -/
theorem lookup_node (hashComponent : Component → UInt64) (linked : tables.tree.Linked)
    (known : ∀ (tree : NameTree) (id : Nat) (entry : NameTree.Entry), tree.entries id = some entry → peeks tree entry.name)
    (name : Name) :
    ∃ id entry, (tables.tree.lookup hashComponent name).2 = some id ∧
      (tables.tree.lookup hashComponent name).1.entries id = some entry ∧ entry.name = name ∧
      ∀ (kind : Kind) (number : Nat), number ∈ kind.numbers ((tables.tree.lookup hashComponent name).1.carried id) →
        peeks tables.tree name := by
  obtain ⟨grows,id,entry,node,stored,named⟩ := lookup_grows hashComponent linked name
  refine ⟨id,entry,node,stored,named,?_⟩
  intro kind number held
  rw [grows.carried] at held
  obtain ⟨before,here⟩ := entry_of_numbers held
  obtain ⟨later,kept,same⟩ := grows.stays id before here
  rw [stored] at kept
  cases kept
  rw [← named,same]
  exact known _ id before here

section
variable (linked : tables.tree.Linked)
  (known : ∀ (tree : NameTree) (id : Nat) (entry : NameTree.Entry), tree.entries id = some entry → peeks tree entry.name)
include linked known

private theorem fibInsert_moves (name : Name) (safe : allowed tables.tree (.lookup name)) :
    Moves hashComponent allowed peeks tables.view (tables.fibInsert hashComponent name).view := by
  obtain ⟨id,entry,node,stored,-,old⟩ := lookup_node hashComponent linked known name
  have numbers := numbers_fib (tables.tree.lookup hashComponent name).1 id
  unfold fibInsert
  dsimp only
  rw [node]
  dsimp only
  cases present : ((tables.tree.lookup hashComponent name).1.entries id).bind NameTree.Entry.fibEntry with
  | some number =>
    rw [present] at numbers
    exact .looked tables.view name safe (old .fib number (numbers ▸ List.mem_singleton_self number))
  | none =>
    rw [present] at numbers
    convert Moves.entered tables.view .fib name id (tables.interests 0) safe node numbers using 1
    exact view_eq rfl rfl rfl rfl rfl rfl rfl

private theorem pitInsert_moves (interest : Interest) (safe : allowed tables.tree (.lookup interest.name)) :
    Moves hashComponent allowed peeks tables.view (tables.pitInsert hashComponent interest).view := by
  obtain ⟨id,entry,node,stored,named,old⟩ := lookup_node hashComponent linked known interest.name
  have numbers := numbers_pit (tables.tree.lookup hashComponent interest.name).1 id
  unfold pitInsert
  dsimp only
  rw [node]
  dsimp only
  rw [← numbers]
  split
  · rename_i present
    obtain ⟨number,held,-⟩ := List.any_eq_true.mp present
    exact .looked tables.view interest.name safe (old .pit number held)
  · rename_i absent
    have takes : tables.view.Takes (tables.tree.lookup hashComponent interest.name).1 .pit id interest := by
      refine (if_pos rfl).mpr ⟨?_,?_⟩
      · intro other same
        rw [stored] at same
        cases same
        exact named
      · intro number held same
        exact absent (List.any_eq_true.mpr ⟨number,held,decide_eq_true same⟩)
    convert Moves.entered tables.view .pit interest.name id interest safe node takes using 1
    exact view_eq rfl rfl rfl rfl rfl rfl rfl

private theorem measurementsGet_moves (name : Name) (safe : allowed tables.tree (.lookup name)) :
    Moves hashComponent allowed peeks tables.view (tables.measurementsGet hashComponent name).view := by
  obtain ⟨id,entry,node,stored,-,old⟩ := lookup_node hashComponent linked known name
  have numbers := numbers_measurements (tables.tree.lookup hashComponent name).1 id
  unfold measurementsGet measurementsGetNode
  dsimp only
  rw [node]
  dsimp only
  cases present : ((tables.tree.lookup hashComponent name).1.entries id).bind NameTree.Entry.measurementsEntry with
  | some number =>
    rw [present] at numbers
    exact .looked tables.view name safe (old .measurements number (numbers ▸ List.mem_singleton_self number))
  | none =>
    rw [present] at numbers
    convert Moves.entered tables.view .measurements name id (tables.interests 0) safe node numbers using 1
    exact view_eq rfl rfl rfl rfl rfl rfl rfl

private theorem strategyChoiceInsert_moves (longestMatch : NameTree → Name → (NameTree.Entry → Bool) → Option Nat)
    (name strategyName : Name) (safe : (tables.getStrategy strategyName).isSome → allowed tables.tree (.lookup name))
    {next : Tables} (taken : tables.strategyChoiceInsert hashComponent longestMatch name strategyName = some next) :
    Relation.ReflGen (Moves hashComponent allowed peeks) tables.view next.view := by
  unfold strategyChoiceInsert at taken
  cases got : tables.getStrategy strategyName with
  | none =>
    rw [got] at taken
    cases taken
    exact .refl
  | some strategy =>
    rw [got] at taken safe
    have safe := safe rfl
    obtain ⟨id,entry,node,stored,-,old⟩ := lookup_node hashComponent linked known name
    have numbers := numbers_strategyChoice (tables.tree.lookup hashComponent name).1 id
    dsimp only at taken
    rw [node] at taken
    dsimp only at taken
    cases present : ((tables.tree.lookup hashComponent name).1.entries id).bind
        NameTree.Entry.strategyChoiceEntry with
    | some choice =>
      rw [present] at taken numbers
      have looked : Moves hashComponent allowed peeks tables.view
          {tables.view with tree := (tables.tree.lookup hashComponent name).1} :=
        .looked tables.view name safe (old .strategyChoice choice (numbers ▸ List.mem_singleton_self choice))
      refine .single ?_
      dsimp only at taken
      split at taken
      · cases taken
        exact looked
      · cases taken
        have kept := changeStrategy_view hashComponent
          {tables with tree := (tables.tree.lookup hashComponent name).1} id name (tables.strategies choice) strategy
        exact kept ▸ looked
    | none =>
      rw [present] at taken numbers
      obtain ⟨oldStrategy,-,rfl⟩ := Option.map_eq_some_iff.mp taken
      refine .single ?_
      convert Moves.entered tables.view .strategyChoice name id (tables.interests 0) safe node numbers using 1
      refine (changeStrategy_view hashComponent _ id name oldStrategy strategy).trans ?_
      exact view_eq rfl rfl rfl rfl rfl rfl rfl

end

theorem measurementsGetNode_eq_self (tables : Tables) {id number : Nat}
    (present : (tables.tree.entries id).bind NameTree.Entry.measurementsEntry = some number) :
    tables.measurementsGetNode id = tables := by
  unfold measurementsGetNode
  rw [present]

theorem measurementsGetNode_view (tables : Tables) {id : Nat}
    (absent : (tables.tree.entries id).bind NameTree.Entry.measurementsEntry = none) :
    (tables.measurementsGetNode id).view = tables.view.attach tables.tree .measurements id (tables.interests 0) := by
  unfold measurementsGetNode
  rw [absent]
  exact view_eq rfl rfl rfl rfl rfl rfl rfl

private theorem measurementsGetNode_moves {id : Nat} (present : (tables.tree.entries id).isSome) :
    Relation.ReflGen (Moves hashComponent allowed peeks) tables.view (tables.measurementsGetNode id).view := by
  have numbers := numbers_measurements tables.tree id
  cases held : (tables.tree.entries id).bind NameTree.Entry.measurementsEntry with
  | some number =>
    rw [measurementsGetNode_eq_self tables held]
  | none =>
    rw [held] at numbers
    rw [measurementsGetNode_view tables held]
    exact .single (.attached tables.view .measurements id (tables.interests 0) present numbers)

theorem fibEraseNode_view (tables : Tables) (id number : Nat) :
    (tables.fibEraseNode id).view = tables.view.detach .fib number id := by
  exact view_eq rfl rfl rfl rfl rfl rfl rfl

private theorem fibEraseNode_moves {id number : Nat} (held : number ∈ Kind.fib.numbers (tables.tree.carried id))
    (safe : allowed (tables.tree.setFibEntry id none) (.eraseEntryIfEmpty id)) :
    Moves hashComponent allowed peeks tables.view (tables.fibEraseNode id).view := by
  rw [fibEraseNode_view tables id number]
  refine .detached tables.view .fib number id held ?_ safe
  intro other
  cases other

private theorem fibEraseEntry_moves {fibEntry : Nat} (safe : tables.AllowsErase allowed fibEntry) :
    Relation.ReflGen (Moves hashComponent allowed peeks) tables.view (tables.fibEraseEntry fibEntry).view := by
  unfold fibEraseEntry
  cases found : tables.fibNode fibEntry with
  | none => exact .refl
  | some id =>
    obtain ⟨entry,stored,holds⟩ := entry_of_holder found
    have held : fibEntry ∈ Kind.fib.numbers (tables.tree.carried id) := by
      rw [carried_of_entry stored]
      exact Option.mem_toList.mpr (of_decide_eq_true holds)
    exact .single (fibEraseNode_moves held (safe id found))

private theorem removeNextHopFromAllEntries_moves {face : Nat}
    (safe : Steps fibEraseEntry (fun state fibEntry => state.AllowsErase allowed fibEntry) (tables.withoutNextHop face)
      (tables.toErase face)) :
    Relation.ReflTransGen (Moves hashComponent allowed peeks) tables.view
      (tables.removeNextHopFromAllEntries face).view := by
  have erasures : ∀ (entries : List Nat) (state : Tables),
      Steps fibEraseEntry (fun state fibEntry => state.AllowsErase allowed fibEntry) state entries →
      Relation.ReflTransGen (Moves hashComponent allowed peeks) state.view (run fibEraseEntry state entries).view := by
    intro entries
    induction entries with
    | nil => exact fun _ _ => .refl
    | cons fibEntry rest ih =>
      intro state steps
      obtain ⟨first,later⟩ := steps_cons.mp steps
      exact (fibEraseEntry_moves first).to_reflTransGen.trans (ih _ later)
  rw [← tables.withoutNextHop_view face]
  exact erasures _ _ safe

private theorem pitErase_moves {pitEntry : Nat} (safe : ∀ id, tables.pitNode pitEntry = some id →
      allowed (tables.tree.erasePitEntry id pitEntry) (.eraseEntryIfEmpty id))
    {next : Tables} (taken : tables.pitErase pitEntry = some next) :
    Moves hashComponent allowed peeks tables.view next.view := by
  obtain ⟨id,found,rfl⟩ := Option.map_eq_some_iff.mp taken
  obtain ⟨entry,stored,held⟩ := entry_of_holder found
  have member : pitEntry ∈ Kind.pit.numbers (tables.tree.carried id) := by
    rw [carried_of_entry stored]
    exact of_decide_eq_true held
  convert Moves.detached tables.view .pit pitEntry id member (fun other => by cases other) (safe id found) using 1
  exact view_eq rfl rfl rfl rfl rfl rfl rfl

theorem cleanup_view (tables : Tables) {measurementsEntry id : Nat}
    (found : tables.measurementsNode measurementsEntry = some id) :
    measurementsEntry ∈ Kind.measurements.numbers (tables.tree.carried id) ∧
      (tables.cleanup measurementsEntry).view = tables.view.detach .measurements measurementsEntry id := by
  obtain ⟨entry,stored,held⟩ := entry_of_holder found
  constructor
  · rw [carried_of_entry stored]
    exact Option.mem_toList.mpr (of_decide_eq_true held)
  · unfold cleanup
    rw [found]
    exact view_eq rfl rfl rfl rfl rfl rfl rfl

private theorem cleanup_moves (tables : Tables) {measurementsEntry : Nat} (safe : ∀ id, tables.measurementsNode measurementsEntry = some id →
      allowed (tables.tree.setMeasurementsEntry id none) (.eraseEntryIfEmpty id)) :
    Relation.ReflGen (Moves hashComponent allowed peeks) tables.view (tables.cleanup measurementsEntry).view := by
  cases found : tables.measurementsNode measurementsEntry with
  | none =>
    unfold cleanup
    rw [found]
  | some id =>
    obtain ⟨held,view⟩ := cleanup_view tables found
    rw [view]
    exact .single (.detached tables.view .measurements measurementsEntry id held (fun other => by cases other) (safe id found))

private theorem strategyChoiceErase_moves (longestMatch : NameTree → Name → (NameTree.Entry → Bool) → Option Nat) (name : Name)
    (safe : ∀ id, tables.tree.findExactMatch hashComponent name = some id →
      allowed (tables.tree.setStrategyChoiceEntry id none) (.eraseEntryIfEmpty id))
    {next : Tables} (taken : tables.strategyChoiceErase hashComponent longestMatch name = some next) :
    Relation.ReflGen (Moves hashComponent allowed peeks) tables.view next.view := by
  unfold strategyChoiceErase at taken
  split at taken
  · cases taken
  · rename_i nonempty
    cases found : tables.tree.findExactMatch hashComponent name with
    | none =>
      rw [found] at taken
      cases taken
      exact .refl
    | some id =>
      rw [found] at taken
      dsimp only at taken
      have numbers := numbers_strategyChoice tables.tree id
      cases held : (tables.tree.entries id).bind NameTree.Entry.strategyChoiceEntry with
      | none =>
        rw [held] at taken
        cases taken
        exact .refl
      | some choice =>
        rw [held] at taken numbers
        obtain ⟨parentStrategy,-,rfl⟩ := Option.map_eq_some_iff.mp taken
        have member : choice ∈ Kind.strategyChoice.numbers (tables.tree.carried id) :=
          numbers ▸ List.mem_singleton_self choice
        have below : Kind.strategyChoice = .strategyChoice →
            ∀ entry, tables.tree.entries id = some entry → entry.name ≠ [] := by
          intro _ entry stored
          obtain ⟨-,same,here,passed⟩ := find_some tables.tree _ id _ found
          rw [stored] at here
          cases here
          exact (of_decide_eq_true passed).2 ▸ nonempty
        have kept := changeStrategy_view hashComponent tables id name (tables.strategies choice) parentStrategy
        have detached : Moves hashComponent allowed peeks tables.view (tables.view.detach .strategyChoice choice id) :=
          .detached tables.view .strategyChoice choice id member below (safe id found)
        rw [← kept] at detached ⊢
        refine .single ?_
        convert detached using 1
        exact view_eq rfl rfl rfl rfl rfl rfl rfl

/-- Every find operation but one leaves the tables as they are. -/
theorem find_tables {query : Query} (other : ∀ name, query ≠ .measurementsExact name) {next : Tables}
    (taken : (tables.find hashComponent query).map Prod.fst = some next) : next = tables := by
  obtain ⟨⟨after,found⟩,answered,rfl⟩ := Option.map_eq_some_iff.mp taken
  have unchanged : ∀ entries : Option (List Nat), (entries.map fun found => (tables,found)) = some (after,found) →
      after = tables := by
    intro entries same
    obtain ⟨list,-,same⟩ := Option.map_eq_some_iff.mp same
    cases same
    rfl
  cases query with
  | measurementsExact name => exact absurd rfl (other name)
  | fibLongestOfPit pitEntry => exact unchanged _ answered
  | fibLongestOfMeasurements measurementsEntry => exact unchanged _ answered
  | measurementsLongestOfPit pitEntry accepts => exact unchanged (some _) answered
  | effectiveStrategyOfPit pitEntry => exact unchanged _ answered
  | effectiveStrategyOfMeasurements measurementsEntry => exact unchanged _ answered
  | fibLongest name => exact unchanged (some _) answered
  | fibExact name => exact unchanged (some _) answered
  | pitAllDataMatches data => exact unchanged (some _) answered
  | measurementsLongest name accepts => exact unchanged (some _) answered
  | strategyChoiceGet name => exact unchanged (some _) answered
  | effectiveStrategy name => exact unchanged (some _) answered

private theorem find_moves (query : Query) (safe : tables.Allows hashComponent allowed peeks (.find query)) {next : Tables}
    (taken : (tables.find hashComponent query).map Prod.fst = some next) :
    Relation.ReflGen (Moves hashComponent allowed peeks) tables.view next.view := by
  by_cases exact : ∃ name, query = .measurementsExact name
  · obtain ⟨name,rfl⟩ := exact
    cases taken
    exact .single (.looked tables.view name safe.1 safe.2)
  · rw [find_tables (not_exists.mp exact) taken]

/-- What is left of an erasure where there is nothing to erase. -/
theorem step_loses (longestMatch : NameTree → Name → (NameTree.Entry → Bool) → Option Nat) {operation : Operation} {id : Nat}
    (loses : tables.Loses hashComponent operation id) {next : Tables}
    (taken : tables.step hashComponent longestMatch operation = some next) :
    next.view = tables.view.detach .fib 0 id := by
  obtain ⟨name,rfl,found,-⟩ := loses
  cases taken
  unfold fibErase
  rw [found]
  exact fibEraseNode_view tables id 0

/-- Every other operation is one move at most, if it does not take a next hop from all entries. -/
theorem step_move (longestMatch : NameTree → Name → (NameTree.Entry → Bool) → Option Nat) (linked : tables.tree.Linked)
    (known : ∀ (tree : NameTree) (id : Nat) (entry : NameTree.Entry), tree.entries id = some entry →
      peeks tree entry.name)
    {operation : Operation} (keeps : ∀ id, ¬ tables.Loses hashComponent operation id)
    (single : ∀ face, operation ≠ .removeNextHopFromAllEntries face)
    (safe : tables.Allows hashComponent allowed peeks operation) {next : Tables}
    (taken : tables.step hashComponent longestMatch operation = some next) :
    Relation.ReflGen (Moves hashComponent allowed peeks) tables.view next.view := by
  cases operation with
  | fibInsert name =>
    cases taken
    exact .single (fibInsert_moves linked known name safe)
  | fibErase name =>
    cases taken
    unfold fibErase
    cases found : tables.tree.findExactMatch hashComponent name with
    | none => exact .refl
    | some id =>
      have present : Kind.fib.numbers (tables.tree.carried id) ≠ [] := fun free => keeps id ⟨name,rfl,found,free⟩
      obtain ⟨number,held⟩ := List.exists_mem_of_ne_nil _ present
      exact .single (fibEraseNode_moves held (safe id found))
  | fibEraseEntry fibEntry =>
    cases taken
    exact fibEraseEntry_moves safe
  | addNextHop fibEntry face cost =>
    cases taken
    exact .refl
  | removeNextHop fibEntry face =>
    cases taken
    exact .refl
  | removeNextHopFromAllEntries face => exact absurd rfl (single face)
  | pitInsert interest =>
    cases taken
    exact .single (pitInsert_moves linked known interest safe)
  | pitErase pitEntry => exact .single (pitErase_moves safe taken)
  | setPitInfo pitEntry info =>
    cases taken
    exact .refl
  | measurementsGet name =>
    cases taken
    exact .single (measurementsGet_moves linked known name safe)
  | measurementsGetOfFib fibEntry =>
    obtain ⟨id,found,rfl⟩ := Option.map_eq_some_iff.mp taken
    obtain ⟨entry,stored,-⟩ := entry_of_holder found
    exact measurementsGetNode_moves (Option.isSome_of_eq_some stored)
  | measurementsGetOfPit pitEntry =>
    obtain ⟨id,found,rfl⟩ := Option.map_eq_some_iff.mp taken
    obtain ⟨entry,stored,-⟩ := entry_of_holder found
    exact measurementsGetNode_moves (Option.isSome_of_eq_some stored)
  | measurementsGetParent child =>
    obtain ⟨id,-,got⟩ := Option.bind_eq_some_iff.mp taken
    obtain ⟨entry,stored,got⟩ := Option.bind_eq_some_iff.mp got
    split at got
    · cases got
      exact .refl
    · obtain ⟨parent,above,rfl⟩ := Option.map_eq_some_iff.mp got
      obtain ⟨upper,held,-⟩ := linked.parent id entry parent stored above
      exact measurementsGetNode_moves (Option.isSome_of_eq_some held)
  | setMeasurementsInfo measurementsEntry info =>
    cases taken
    exact .refl
  | extendLifetime measurementsEntry lifetime =>
    cases taken
    unfold extendLifetime
    split
    · exact .refl
    · dsimp only
      split <;> exact .refl
  | cleanup =>
    unfold step at taken
    cases due : tables.scheduler.next with
    | none =>
      rw [due] at taken
      cases taken
      exact .refl
    | some event =>
      rw [due] at taken
      cases taken
      exact cleanup_moves {tables with scheduler := tables.scheduler.fire event} (safe event due)
  | advance time =>
    cases taken
    exact .refl
  | install strategy =>
    cases taken
    unfold install
    split <;> exact .refl
  | strategyChoiceInsert name strategyName => exact strategyChoiceInsert_moves linked known longestMatch name strategyName safe taken
  | strategyChoiceErase name => exact strategyChoiceErase_moves longestMatch name safe taken
  | find query => exact find_moves query safe taken

/-- Every other operation is a series of moves. -/
theorem step_moves (longestMatch : NameTree → Name → (NameTree.Entry → Bool) → Option Nat) (linked : tables.tree.Linked)
    (known : ∀ (tree : NameTree) (id : Nat) (entry : NameTree.Entry), tree.entries id = some entry →
      peeks tree entry.name)
    {operation : Operation} (keeps : ∀ id, ¬ tables.Loses hashComponent operation id)
    (safe : tables.Allows hashComponent allowed peeks operation) {next : Tables}
    (taken : tables.step hashComponent longestMatch operation = some next) :
    Relation.ReflTransGen (Moves hashComponent allowed peeks) tables.view next.view := by
  by_cases single : ∀ face, operation ≠ .removeNextHopFromAllEntries face
  · exact (step_move longestMatch linked known keeps single safe taken).to_reflTransGen
  · obtain ⟨face,same⟩ := not_forall.mp single
    rw [not_not.mp same] at safe taken
    cases taken
    exact removeNextHopFromAllEntries_moves safe

end

/-! The contents of the FIB entries and of the strategy choices. -/

structure Contents where
  nextHops : Nat → List (NextHop Nat)
  strategies : Nat → Strategy
  strategyInstances : List Strategy

def contents (tables : Tables) : Contents := ⟨tables.nextHops,tables.strategies,tables.strategyInstances⟩

inductive SetsContents : Operation → Prop
  | fibInsert (name : Name) : SetsContents (.fibInsert name)
  | addNextHop (fibEntry face cost : Nat) : SetsContents (.addNextHop fibEntry face cost)
  | removeNextHop (fibEntry face : Nat) : SetsContents (.removeNextHop fibEntry face)
  | removeNextHopFromAllEntries (face : Nat) : SetsContents (.removeNextHopFromAllEntries face)
  | install (strategy : Strategy) : SetsContents (.install strategy)
  | strategyChoiceInsert (name strategyName : Name) : SetsContents (.strategyChoiceInsert name strategyName)

section
variable {hashComponent : Component → UInt64}
  (longestMatch : NameTree → Name → (NameTree.Entry → Bool) → Option Nat) {tables next : Tables}

private theorem clearStrategyInfo_contents (tables : Tables) (id : Nat) :
    (tables.clearStrategyInfo id).contents = tables.contents := by
  unfold clearStrategyInfo
  split <;> rfl

private theorem measurementsGetNode_contents (tables : Tables) (id : Nat) :
    (tables.measurementsGetNode id).contents = tables.contents := by
  unfold measurementsGetNode
  split <;> rfl

theorem fibEraseEntry_contents (tables : Tables) (fibEntry : Nat) :
    (tables.fibEraseEntry fibEntry).contents = tables.contents := by
  unfold fibEraseEntry
  split <;> rfl

theorem changeStrategy_contents (tables : Tables) (root : Nat) (name : Name) (old new : Strategy) :
    (tables.changeStrategy hashComponent root name old new).contents = tables.contents :=
  changeStrategy_kept contents clearStrategyInfo_contents hashComponent tables root name old new

theorem strategyChoiceInsert_nextHops {longestMatch : NameTree → Name → (NameTree.Entry → Bool) → Option Nat}
    {name strategyName : Name} (taken : tables.strategyChoiceInsert hashComponent longestMatch name strategyName = some next) :
    next.nextHops = tables.nextHops := by
  unfold strategyChoiceInsert at taken
  split at taken
  · cases taken
    rfl
  · dsimp only at taken
    split at taken
    · cases taken
      rfl
    · split at taken
      · split at taken
        · cases taken
          rfl
        · cases taken
          exact congrArg Contents.nextHops (changeStrategy_contents ..)
      · obtain ⟨old,-,rfl⟩ := Option.map_eq_some_iff.mp taken
        exact congrArg Contents.nextHops (changeStrategy_contents ..)

theorem step_contents {operation : Operation} (other : ¬ SetsContents operation)
    (taken : tables.step hashComponent longestMatch operation = some next) : next.contents = tables.contents := by
  cases operation with
  | fibInsert name => exact absurd (.fibInsert name) other
  | addNextHop fibEntry face cost => exact absurd (.addNextHop fibEntry face cost) other
  | removeNextHop fibEntry face => exact absurd (.removeNextHop fibEntry face) other
  | removeNextHopFromAllEntries face => exact absurd (.removeNextHopFromAllEntries face) other
  | install strategy => exact absurd (.install strategy) other
  | strategyChoiceInsert name strategyName => exact absurd (.strategyChoiceInsert name strategyName) other
  | fibErase name =>
    cases taken
    unfold fibErase
    split <;> rfl
  | fibEraseEntry fibEntry =>
    cases taken
    exact fibEraseEntry_contents tables fibEntry
  | pitInsert interest =>
    cases taken
    unfold pitInsert
    dsimp only
    split
    · rfl
    · split <;> rfl
  | pitErase pitEntry =>
    obtain ⟨id,-,rfl⟩ := Option.map_eq_some_iff.mp taken
    rfl
  | measurementsGet name =>
    cases taken
    unfold measurementsGet
    dsimp only
    split
    · rfl
    · exact measurementsGetNode_contents _ _
  | measurementsGetOfFib fibEntry =>
    obtain ⟨id,-,rfl⟩ := Option.map_eq_some_iff.mp taken
    exact measurementsGetNode_contents tables id
  | measurementsGetOfPit pitEntry =>
    obtain ⟨id,-,rfl⟩ := Option.map_eq_some_iff.mp taken
    exact measurementsGetNode_contents tables id
  | measurementsGetParent child =>
    obtain ⟨id,-,got⟩ := Option.bind_eq_some_iff.mp taken
    obtain ⟨entry,-,got⟩ := Option.bind_eq_some_iff.mp got
    split at got
    · cases got
      rfl
    · obtain ⟨parent,-,rfl⟩ := Option.map_eq_some_iff.mp got
      exact measurementsGetNode_contents tables parent
  | extendLifetime measurementsEntry lifetime =>
    cases taken
    unfold extendLifetime
    split
    · rfl
    · dsimp only
      split <;> rfl
  | cleanup =>
    unfold step at taken
    cases due : tables.scheduler.next with
    | none =>
      rw [due] at taken
      cases taken
      rfl
    | some event =>
      rw [due] at taken
      cases taken
      unfold cleanup
      split <;> rfl
  | strategyChoiceErase name =>
    change tables.strategyChoiceErase hashComponent longestMatch name = some next at taken
    unfold strategyChoiceErase at taken
    split at taken
    · cases taken
    · split at taken
      · cases taken
        rfl
      · split at taken
        · cases taken
          rfl
        · obtain ⟨parent,-,rfl⟩ := Option.map_eq_some_iff.mp taken
          exact changeStrategy_contents ..
  | find query =>
    by_cases exact : ∃ name, query = .measurementsExact name
    · obtain ⟨name,rfl⟩ := exact
      cases taken
      rfl
    · rw [find_tables (not_exists.mp exact) taken]
  | setPitInfo pitEntry info =>
    cases taken
    rfl
  | setMeasurementsInfo measurementsEntry info =>
    cases taken
    rfl
  | advance time =>
    cases taken
    rfl

end

end Tables

end Ncfcc.Nfd.Table
