import Ncfcc.Nfd.Table.NameTreeInvariant

/-! What the tables have attached to the nodes of the name tree. Nodes come and go without
attachments, so that a lookup and the erasure of empty nodes leave everything attached. -/
namespace Ncfcc.Nfd.NameTree
open Ncfcc.Library

def Attached.none : Attached := ⟨.none,[],.none,.none⟩

def Entry.attached (entry : Entry) : Attached :=
  ⟨entry.fibEntry,entry.pitEntries,entry.measurementsEntry,entry.strategyChoiceEntry⟩

def carried (tree : NameTree) (id : Nat) : Attached := ((tree.entries id).map Entry.attached).getD .none

def Entry.alter (change : Attached → Attached) (entry : Entry) : Entry :=
  {entry with
    fibEntry := (change entry.attached).fibEntry
    pitEntries := (change entry.attached).pitEntries
    measurementsEntry := (change entry.attached).measurementsEntry
    strategyChoiceEntry := (change entry.attached).strategyChoiceEntry}

def alter (tree : NameTree) (id : Nat) (change : Attached → Attached) : NameTree :=
  tree.modify id (Entry.alter change)

/-- The numbers of nodes are not used before they are given out, and the parent of a node is
there with the node among its children. -/
structure Linked (tree : NameTree) : Prop where
  fresh : ∀ id, tree.nextEntry ≤ id → tree.entries id = none
  parent : ∀ id entry parent, tree.entries id = some entry → entry.parent = some parent →
    ∃ above, tree.entries parent = some above ∧ id ∈ above.children

section
variable (tree : NameTree)

theorem Entry.isEmpty_iff (entry : Entry) :
    entry.isEmpty = true ↔ entry.children = [] ∧ entry.attached = .none := by
  simp [Entry.isEmpty,Entry.attached,Attached.none,and_assoc]

theorem carried_of_entry {tree : NameTree} {id : Nat} {entry : Entry} (stored : tree.entries id = some entry) :
    tree.carried id = entry.attached := by
  rw [carried,stored]
  rfl

theorem carried_of_none {tree : NameTree} {id : Nat} (missing : tree.entries id = none) :
    tree.carried id = .none := by
  rw [carried,missing]
  rfl

theorem alter_entries (id other : Nat) (change : Attached → Attached) :
    (tree.alter id change).entries other =
      if other = id then (tree.entries id).map (Entry.alter change) else tree.entries other :=
  modify_entries tree id other _

theorem alter_carried {tree : NameTree} {id : Nat} {entry : Entry} (stored : tree.entries id = some entry)
    (change : Attached → Attached) :
    (tree.alter id change).carried = Function.update tree.carried id (change (tree.carried id)) := by
  funext other
  rw [carried,alter_entries]
  by_cases same : other = id
  · rw [if_pos same,same,Function.update_self,stored,carried_of_entry stored]
    rfl
  · rw [if_neg same,Function.update_of_ne same]
    rfl

theorem alter_self {tree : NameTree} {id : Nat} {change : Attached → Attached}
    (same : change (tree.carried id) = tree.carried id) : tree.alter id change = tree := by
  have kept : (tree.entries id).map (Entry.alter change) = tree.entries id := by
    cases stored : tree.entries id with
    | none => rfl
    | some entry =>
      rw [carried_of_entry stored] at same
      rw [Option.map_some,Entry.alter,same]
      rfl
  unfold alter modify
  rw [kept,Function.update_eq_self]

theorem alter_linked {tree : NameTree} (linked : tree.Linked) (id : Nat) (change : Attached → Attached) :
    (tree.alter id change).Linked := by
  have entries := tree.alter_entries id
  constructor
  · intro other later
    rw [entries]
    have missing := linked.fresh other later
    split
    · rename_i same
      rw [same] at missing
      rw [missing]
      rfl
    · exact missing
  · intro other entry parent stored above
    have before : ∃ old, tree.entries other = some old ∧ old.parent = some parent := by
      rw [entries] at stored
      split at stored
      · rename_i same
        obtain ⟨old,found,rfl⟩ := Option.map_eq_some_iff.mp stored
        exact ⟨old,same ▸ found,above⟩
      · exact ⟨entry,stored,above⟩
    obtain ⟨old,found,upper⟩ := before
    obtain ⟨top,held,inside⟩ := linked.parent other old parent found upper
    rw [entries]
    split
    · rename_i same
      rw [← same,held]
      exact ⟨_,rfl,inside⟩
    · exact ⟨top,held,inside⟩

private theorem alter_keys (id : Nat) (change : Attached → Attached) : (tree.alter id change).keys = tree.keys :=
  modify_keys tree id _ fun _ => rfl

theorem Consistent.alter {hashComponent : Component → UInt64} {tree : NameTree}
    (consistent : Consistent hashComponent tree) (id : Nat) (change : Attached → Attached) :
    Consistent hashComponent (tree.alter id change) := by
  constructor
  · rw [alter_keys]
    exact consistent.names
  · rw [alter_keys]
    exact consistent.chains
  · intro other entry stored
    rw [alter_entries] at stored
    rw [alter_keys]
    split at stored
    · rename_i same
      obtain ⟨before,found,rfl⟩ := Option.map_eq_some_iff.mp stored
      rw [same]
      exact consistent.children id before found
    · exact consistent.children other entry stored
  · exact consistent.minimum

end

/-! Lookups. -/

section
variable {hashComponent : Component → UInt64} {tree : NameTree}

/-- No attachment changes and no node goes. -/
structure Grows (before after : NameTree) : Prop where
  linked : after.Linked
  carried : after.carried = before.carried
  stays : ∀ id entry, before.entries id = some entry → ∃ later, after.entries id = some later ∧ later.name = entry.name

theorem Grows.refl (linked : tree.Linked) : Grows tree tree := ⟨linked,rfl,fun _ entry stored => ⟨entry,stored,rfl⟩⟩

theorem Grows.trans {first second third : NameTree} (one : Grows first second) (two : Grows second third) :
    Grows first third := by
  refine ⟨two.linked,two.carried.trans one.carried,?_⟩
  intro id entry stored
  obtain ⟨later,kept,named⟩ := one.stays id entry stored
  obtain ⟨last,again,same⟩ := two.stays id later kept
  exact ⟨last,again,same.trans named⟩

theorem Grows.of_entries {first second : NameTree} (linked : first.Linked) (entries : second.entries = first.entries)
    (next : second.nextEntry = first.nextEntry) : Grows first second := by
  refine ⟨⟨?_,?_⟩,?_,?_⟩
  · intro id later
    rw [entries]
    exact linked.fresh id (next ▸ later)
  · rw [entries]
    exact linked.parent
  · funext id
    rw [NameTree.carried,NameTree.carried,entries]
  · intro id entry stored
    exact ⟨entry,entries ▸ stored,rfl⟩

theorem enlarge_entries (tree : NameTree) :
    tree.enlarge.entries = tree.entries ∧ tree.enlarge.nextEntry = tree.nextEntry := by
  unfold enlarge
  split <;> exact ⟨rfl,rfl⟩

theorem shrink_entries (tree : NameTree) :
    tree.shrink.entries = tree.entries ∧ tree.shrink.nextEntry = tree.nextEntry := by
  unfold shrink
  split <;> exact ⟨rfl,rfl⟩

private theorem link_grows (linked : tree.Linked) (hash : UInt64) (name : Name) (parent : Option Nat)
    (valid : ∀ id, parent = some id → ∃ entry, tree.entries id = some entry) :
    Grows tree (tree.link hash name parent) ∧
      (tree.link hash name parent).entries tree.nextEntry = some ⟨hash,name,parent,[],none,[],none,none⟩ := by
  have unused := linked.fresh tree.nextEntry (Nat.le_refl _)
  have other : parent ≠ some tree.nextEntry := by
    intro same
    obtain ⟨entry,stored⟩ := valid _ same
    rw [unused] at stored
    cases stored
  have entries := tree.link_entries hash name parent other
  have next : (tree.link hash name parent).nextEntry = tree.nextEntry + 1 := by
    unfold link addChild
    split <;> rfl
  have old : ∀ id entry, tree.entries id = some entry → ∃ later, (tree.link hash name parent).entries id = some later ∧
      later.name = entry.name ∧ (∀ child ∈ entry.children, child ∈ later.children) ∧
        (parent = some id → tree.nextEntry ∈ later.children) := by
    intro id entry stored
    have apart : id ≠ tree.nextEntry := by
      intro same
      rw [same,unused] at stored
      cases stored
    rw [entries,if_neg apart]
    split
    · rw [stored]
      exact ⟨_,rfl,rfl,fun _ inside => List.mem_append_left _ inside,fun _ => List.mem_append_right _ (List.mem_singleton_self _)⟩
    · rename_i elsewhere
      exact ⟨entry,stored,rfl,fun _ inside => inside,fun here => absurd here elsewhere⟩
  refine ⟨⟨⟨?_,?_⟩,?_,?_⟩,(entries _).trans (if_pos rfl)⟩
  · intro id later
    rw [next] at later
    rw [entries,if_neg (by omega),linked.fresh id (by omega)]
    split <;> rfl
  · intro id entry up stored above
    by_cases new : id = tree.nextEntry
    · rw [entries,if_pos new] at stored
      cases stored
      obtain ⟨before,found⟩ := valid up above
      obtain ⟨later,kept,-,-,child⟩ := old up before found
      exact ⟨later,kept,new ▸ child above⟩
    · have before : ∃ earlier, tree.entries id = some earlier ∧ earlier.parent = some up := by
        rw [entries,if_neg new] at stored
        split at stored
        · obtain ⟨earlier,found,rfl⟩ := Option.map_eq_some_iff.mp stored
          exact ⟨earlier,found,above⟩
        · exact ⟨entry,stored,above⟩
      obtain ⟨earlier,found,upper⟩ := before
      obtain ⟨top,held,inside⟩ := linked.parent id earlier up found upper
      obtain ⟨later,kept,-,children,-⟩ := old up top held
      exact ⟨later,kept,children id inside⟩
  · funext id
    rw [NameTree.carried,entries]
    split
    · rename_i new
      rw [carried_of_none (linked.fresh id (by omega))]
      rfl
    · split
      · rw [Option.map_map]
        rfl
      · rfl
  · intro id entry stored
    obtain ⟨later,kept,named,-⟩ := old id entry stored
    exact ⟨later,kept,named⟩

/-- The node given back has the name looked up, whatever the chains are like. -/
theorem visit_grows (hashComponent : Component → UInt64) (linked : tree.Linked) (parent : Option Nat) (name : Name)
    (valid : ∀ id, parent = some id → ∃ entry, tree.entries id = some entry) :
    Grows tree (tree.visit hashComponent parent name).2 ∧ ∃ entry,
      (tree.visit hashComponent parent name).2.entries (tree.visit hashComponent parent name).1 = some entry ∧
        entry.name = name := by
  unfold NameTree.visit NameTree.insert
  dsimp only
  cases found : tree.find (tree.location (computeHash hashComponent name)) (fun entry => entry.name = name) with
  | some id =>
    obtain ⟨-,entry,stored,named⟩ := find_some tree _ id _ found
    exact ⟨Grows.refl linked,entry,stored,of_decide_eq_true named⟩
  | none =>
    obtain ⟨grows,stored⟩ := link_grows linked (computeHash hashComponent name) name parent valid
    exact ⟨grows,_,stored,rfl⟩

private theorem lookupStep_grows (hashComponent : Component → UInt64) (state : NameTree × Option Nat) (linked : state.1.Linked) (name : Name)
    (valid : ∀ id, state.2 = some id → ∃ entry, state.1.entries id = some entry) :
    Grows state.1 (lookupStep hashComponent state name).1 ∧ ∃ id entry,
      (lookupStep hashComponent state name).2 = some id ∧
        (lookupStep hashComponent state name).1.entries id = some entry ∧ entry.name = name := by
  obtain ⟨grows,entry,stored,named⟩ := visit_grows hashComponent linked state.2 name valid
  obtain ⟨entries,next⟩ := enlarge_entries (state.1.visit hashComponent state.2 name).2
  refine ⟨grows.trans (Grows.of_entries grows.linked entries next),_,entry,rfl,?_,named⟩
  exact (congrFun entries _).trans stored

theorem lookup_grows (hashComponent : Component → UInt64) (linked : tree.Linked) (name : Name) :
    Grows tree (tree.lookup hashComponent name).1 ∧ ∃ id entry, (tree.lookup hashComponent name).2 = some id ∧
      (tree.lookup hashComponent name).1.entries id = some entry ∧ entry.name = name := by
  have rounds : ∀ count, Grows tree (run (lookupStep hashComponent) (tree,none)
        ((List.range count).map name.getPrefix)).1 ∧
      ∀ id, (run (lookupStep hashComponent) (tree,none) ((List.range count).map name.getPrefix)).2 = some id →
        ∃ entry, (run (lookupStep hashComponent) (tree,none)
          ((List.range count).map name.getPrefix)).1.entries id = some entry := by
    intro count
    induction count with
    | zero => exact ⟨Grows.refl linked,fun id none => by cases none⟩
    | succ count ih =>
      rw [List.range_succ,List.map_append,List.map_singleton,run_concat]
      obtain ⟨grows,valid⟩ := ih
      obtain ⟨grown,id,entry,last,stored,-⟩ := lookupStep_grows hashComponent _ grows.linked
        (name.getPrefix count) valid
      refine ⟨grows.trans grown,?_⟩
      intro other same
      rw [last] at same
      cases same
      exact ⟨entry,stored⟩
  obtain ⟨grows,valid⟩ := rounds name.length
  obtain ⟨grown,id,entry,last,stored,named⟩ := lookupStep_grows hashComponent _ grows.linked
    (name.getPrefix name.length) valid
  have whole : tree.lookup hashComponent name = lookupStep hashComponent (run (lookupStep hashComponent) (tree,none)
      ((List.range name.length).map name.getPrefix)) (name.getPrefix name.length) := by
    rw [lookup,prefixes,List.range_succ,List.map_append,List.map_singleton,run_concat]
  rw [whole]
  refine ⟨grows.trans grown,id,entry,last,stored,?_⟩
  rw [named,Name.getPrefix,List.take_length]

/-! Erasure of empty nodes. -/

private theorem unlink_carried {id : Nat} {entry : Entry} (stored : tree.entries id = some entry)
    (bare : entry.attached = .none) : (tree.unlink id entry).carried = tree.carried := by
  funext other
  rw [carried,unlink_entries]
  split
  · rename_i same
    rw [same,carried_of_entry stored,bare]
    rfl
  · split
    · rw [Option.map_map]
      rfl
    · rfl

private theorem unlink_linked (linked : tree.Linked) {id : Nat} {entry : Entry} (stored : tree.entries id = some entry)
    (childless : entry.children = []) : (tree.unlink id entry).Linked := by
  have entries := tree.unlink_entries id entry
  constructor
  · intro other later
    rw [(tree.unlink_frame id entry).1] at later
    rw [entries,linked.fresh other later]
    split
    · rfl
    · split <;> rfl
  · intro other found parent here above
    rw [entries] at here
    split at here
    · cases here
    · rename_i apart
      have before : ∃ earlier, tree.entries other = some earlier ∧ earlier.parent = some parent := by
        split at here
        · obtain ⟨earlier,was,rfl⟩ := Option.map_eq_some_iff.mp here
          exact ⟨earlier,was,above⟩
        · exact ⟨found,here,above⟩
      obtain ⟨earlier,was,upper⟩ := before
      obtain ⟨top,held,inside⟩ := linked.parent other earlier parent was upper
      have stays : parent ≠ id := by
        rintro rfl
        rw [stored] at held
        cases held
        rw [childless] at inside
        cases inside
      rw [entries,if_neg stays]
      split
      · rw [held]
        exact ⟨_,rfl,(swapRemove_perm _ id).mem_iff.mpr ((List.mem_erase_of_ne apart).mpr inside)⟩
      · exact ⟨top,held,inside⟩

/-- No attachment changes and no node comes. -/
structure Prunes (before after : NameTree) : Prop where
  linked : after.Linked
  carried : after.carried = before.carried
  stays : ∀ id later, after.entries id = some later → ∃ entry, before.entries id = some entry ∧ later.name = entry.name

theorem Prunes.refl (linked : tree.Linked) : Prunes tree tree := ⟨linked,rfl,fun _ entry stored => ⟨entry,stored,rfl⟩⟩

theorem Prunes.trans {first second third : NameTree} (one : Prunes first second) (two : Prunes second third) :
    Prunes first third := by
  refine ⟨two.linked,two.carried.trans one.carried,?_⟩
  intro id last stored
  obtain ⟨later,found,same⟩ := two.stays id last stored
  obtain ⟨entry,was,named⟩ := one.stays id later found
  exact ⟨entry,was,same.trans named⟩

private theorem unlink_prunes (linked : tree.Linked) {id : Nat} {entry : Entry} (stored : tree.entries id = some entry)
    (empty : entry.isEmpty = true) : Prunes tree (tree.unlink id entry) := by
  obtain ⟨childless,bare⟩ := entry.isEmpty_iff.mp empty
  refine ⟨unlink_linked linked stored childless,unlink_carried stored bare,?_⟩
  intro other later found
  rw [unlink_entries] at found
  split at found
  · cases found
  · split at found
    · obtain ⟨earlier,was,rfl⟩ := Option.map_eq_some_iff.mp found
      exact ⟨earlier,was,rfl⟩
    · exact ⟨later,found,rfl⟩

private theorem shrink_prunes (linked : tree.Linked) : Prunes tree tree.shrink := by
  obtain ⟨entries,next⟩ := shrink_entries tree
  have grows := Grows.of_entries linked entries next
  exact ⟨grows.linked,grows.carried,fun id later found => ⟨later,entries ▸ found,rfl⟩⟩

private theorem eraseIfEmpty_prunes (fuel : Nat) (linked : tree.Linked) (id : Nat) :
    Prunes tree (eraseIfEmpty fuel tree id).2 := by
  induction fuel generalizing tree id with
  | zero => exact Prunes.refl linked
  | succ fuel ih =>
    unfold eraseIfEmpty
    cases stored : tree.entries id with
    | none => exact Prunes.refl linked
    | some entry =>
      dsimp only
      split
      · rename_i empty
        have unlinked := unlink_prunes linked stored empty
        cases entry.parent with
        | none => exact unlinked.trans (shrink_prunes unlinked.linked)
        | some parent =>
          have above := unlinked.trans (ih unlinked.linked parent)
          exact above.trans (shrink_prunes above.linked)
      · exact Prunes.refl linked

theorem eraseEntryIfEmpty_prunes (linked : tree.Linked) (id : Nat) : Prunes tree (tree.eraseEntryIfEmpty id).2 := by
  unfold eraseEntryIfEmpty
  cases tree.entries id with
  | none => exact Prunes.refl linked
  | some entry => exact eraseIfEmpty_prunes _ linked id

end

end Ncfcc.Nfd.NameTree
