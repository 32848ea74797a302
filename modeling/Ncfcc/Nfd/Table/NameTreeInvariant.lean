import Mathlib.Data.Set.Card
import Ncfcc.Nfd.Table.NameTreeTable

/-! The representation invariant of the name tree over whole runs of `lookup` and
`eraseEntryIfEmpty`, with any changes of the attached table entries between them.
Only a resize can break it, through the 32-bit hash it computes buckets from. -/
namespace Ncfcc.Nfd.NameTree
open Ncfcc.Library

def Entry.key (entry : Entry) : Key := ⟨entry.hash,entry.name,entry.parent⟩

def keys (tree : NameTree) (id : Nat) : Option Key := (tree.entries id).map Entry.key

structure Consistent (hashComponent : Component → UInt64) (tree : NameTree) : Prop where
  names : Names hashComponent tree.keys tree.nextEntry
  chains : Chained tree.keys tree.buckets tree.nBuckets tree.nItems
  children : ∀ id entry, tree.entries id = some entry → entry.children.Nodup ∧
    ∀ child, child ∈ entry.children ↔ ∃ key, tree.keys child = some key ∧ key.parent = some id
  minimum : 0 < tree.minNBuckets

theorem keys_of_entry {tree : NameTree} {id : Nat} {entry : Entry} (stored : tree.entries id = some entry) :
    tree.keys id = some entry.key := by
  rw [keys,stored]
  rfl

theorem entry_of_keys {tree : NameTree} {id : Nat} {key : Key} (stored : tree.keys id = some key) :
    ∃ entry, tree.entries id = some entry ∧ entry.key = key := by
  rw [keys,Option.map_eq_some_iff] at stored
  exact stored

theorem modify_entries (tree : NameTree) (id other : Nat) (change : Entry → Entry) :
    (tree.modify id change).entries other =
      if other = id then (tree.entries id).map change else tree.entries other := by
  by_cases same : other = id
  · rw [if_pos same,same]
    exact Function.update_self ..
  · rw [if_neg same]
    exact Function.update_of_ne same ..

theorem modify_keys (tree : NameTree) (id : Nat) (change : Entry → Entry)
    (kept : ∀ entry, (change entry).key = entry.key) : (tree.modify id change).keys = tree.keys := by
  funext other
  rw [keys,modify_entries,keys]
  split
  · rename_i same
    rw [same,Option.map_map]
    congr 1
    funext entry
    exact kept entry
  · rfl

theorem find_some (tree : NameTree) (bucket id : Nat) (test : Entry → Bool)
    (found : tree.find bucket test = some id) :
    id ∈ tree.buckets bucket ∧ ∃ entry, tree.entries id = some entry ∧ test entry = true := by
  refine ⟨List.mem_of_find?_eq_some found,?_⟩
  have passed := List.find?_some found
  simpa [Option.any_eq_true] using passed

private theorem find_none (tree : NameTree) (bucket : Nat) (test : Entry → Bool)
    (missing : tree.find bucket test = none) (id : Nat) (member : id ∈ tree.buckets bucket) (entry : Entry)
    (stored : tree.entries id = some entry) : test entry = false := by
  have failed := List.find?_eq_none.mp missing id member
  rw [stored] at failed
  simpa using failed

section
variable {hashComponent : Component → UInt64} {tree : NameTree}

theorem initial_consistent (nBuckets : Nat) (positive : 0 < nBuckets) :
    Consistent hashComponent (initial nBuckets) where
  names := Names.empty
  chains := Chained.empty positive
  children := by
    intro id entry stored
    cases stored
  minimum := positive

theorem Consistent.not_missing (consistent : Consistent hashComponent tree) (test : Entry → Bool) (id : Nat)
    (entry : Entry) (stored : tree.entries id = some entry) (passes : test entry = true) :
    tree.find (tree.location entry.hash) test ≠ none := by
  intro missing
  have member := consistent.chains.chained id entry.key (keys_of_entry stored)
  have failed := find_none tree _ test missing id member entry stored
  rw [passes] at failed
  cases failed

theorem Consistent.hash_eq (consistent : Consistent hashComponent tree) (id : Nat) (entry : Entry)
    (stored : tree.entries id = some entry) : entry.hash = computeHash hashComponent entry.name :=
  consistent.names.hashed id entry.key (keys_of_entry stored)

/-- `insert` finds the entry of a stored name and creates one for any other. -/
theorem Consistent.insert_cases (consistent : Consistent hashComponent tree) (name : Name) :
    (∃ id entry, tree.entries id = some entry ∧ entry.name = name ∧
        tree.insert hashComponent name = (id,false,tree)) ∨
      (∀ id key, tree.keys id = some key → key.name ≠ name) ∧ tree.insert hashComponent name =
        (tree.nextEntry,true,tree.create (computeHash hashComponent name) name) := by
  unfold insert
  dsimp only
  cases found : tree.find (tree.location (computeHash hashComponent name)) (fun entry => entry.name = name) with
  | some id =>
    obtain ⟨-,entry,stored,passed⟩ := find_some tree _ id _ found
    exact Or.inl ⟨id,entry,stored,of_decide_eq_true passed,rfl⟩
  | none =>
    refine Or.inr ⟨?_,rfl⟩
    intro id key known named
    obtain ⟨entry,stored,rfl⟩ := entry_of_keys known
    refine consistent.not_missing (fun entry => entry.name = name) id entry stored (decide_eq_true named) ?_
    rw [consistent.hash_eq id entry stored,show entry.name = name from named]
    exact found

def link (tree : NameTree) (hash : UInt64) (name : Name) (parent : Option Nat) : NameTree :=
  (({ tree.create hash name with nItems := tree.nItems + 1 } : NameTree).modify tree.nextEntry
    fun entry => { entry with parent }).addChild parent tree.nextEntry

theorem link_entries (tree : NameTree) (hash : UInt64) (name : Name) (parent : Option Nat)
    (other : parent ≠ some tree.nextEntry) (id : Nat) :
    (tree.link hash name parent).entries id =
      if id = tree.nextEntry then some ⟨hash,name,parent,[],none,[],none,none⟩
      else if parent = some id then (tree.entries id).map fun entry =>
        { entry with children := entry.children ++ [tree.nextEntry] }
      else tree.entries id := by
  have created : ∀ id, (tree.create hash name).entries id =
      if id = tree.nextEntry then some ⟨hash,name,none,[],none,[],none,none⟩ else tree.entries id := by
    intro id
    by_cases new : id = tree.nextEntry
    · rw [if_pos new,new]
      exact Function.update_self ..
    · rw [if_neg new]
      exact Function.update_of_ne new ..
  unfold link addChild
  cases parent with
  | none =>
    dsimp only
    rw [modify_entries]
    simp only [created,if_true,Option.map_some,reduceCtorEq,if_false]
    split
    · rfl
    · rfl
  | some above =>
    have apart : above ≠ tree.nextEntry := fun same => other (congrArg some same)
    dsimp only
    rw [modify_entries,modify_entries,modify_entries]
    simp only [created,if_true,Option.map_some,Option.some.injEq,apart,if_false]
    by_cases new : id = tree.nextEntry
    · simp [new,apart.symm]
    · by_cases here : id = above
      · simp [here,apart]
      · simp [new,here,Ne.symm here]

private theorem link_keys (tree : NameTree) (hash : UInt64) (name : Name) (parent : Option Nat)
    (other : parent ≠ some tree.nextEntry) :
    (tree.link hash name parent).keys = Function.update tree.keys tree.nextEntry (some ⟨hash,name,parent⟩) := by
  funext id
  rw [keys,link_entries tree hash name parent other]
  by_cases new : id = tree.nextEntry
  · rw [if_pos new,new,Function.update_self]
    rfl
  · rw [if_neg new,Function.update_of_ne new,keys]
    split
    · rw [Option.map_map]
      rfl
    · rfl

/-- The visited name is linked under the entry of the name one shorter. -/
def Above (tree : NameTree) (parent : Option Nat) (name : Name) : Prop :=
  (parent = none ↔ name = []) ∧
    ∀ id, parent = some id → ∃ key, tree.keys id = some key ∧ key.name = name.dropLast

theorem Consistent.link (consistent : Consistent hashComponent tree) (name : Name) (parent : Option Nat)
    (absent : ∀ id key, tree.keys id = some key → key.name ≠ name) (above : tree.Above parent name) :
    Consistent hashComponent (tree.link (computeHash hashComponent name) name parent) := by
  have other : parent ≠ some tree.nextEntry := by
    intro same
    obtain ⟨key,stored,-⟩ := above.2 _ same
    rw [consistent.names.unused] at stored
    cases stored
  have entries := tree.link_entries (computeHash hashComponent name) name parent other
  have newKeys := tree.link_keys (computeHash hashComponent name) name parent other
  have frame : ∀ tree : NameTree, ∀ id, (tree.addChild parent id).buckets = tree.buckets ∧
      (tree.addChild parent id).nextEntry = tree.nextEntry ∧ (tree.addChild parent id).nBuckets = tree.nBuckets ∧
      (tree.addChild parent id).nItems = tree.nItems ∧
      (tree.addChild parent id).minNBuckets = tree.minNBuckets := by
    intro tree id
    unfold addChild
    split <;> exact ⟨rfl,rfl,rfl,rfl,rfl⟩
  obtain ⟨buckets,next,count,items,minimum⟩ := frame (({ tree.create (computeHash hashComponent name) name with
    nItems := tree.nItems + 1 } : NameTree).modify tree.nextEntry fun entry => { entry with parent }) tree.nextEntry
  constructor
  · rw [newKeys,NameTree.link,next]
    exact consistent.names.create name parent absent above.1 above.2
  · rw [newKeys,NameTree.link,buckets,count,items]
    exact consistent.chains.create tree.nextEntry ⟨computeHash hashComponent name,name,parent⟩
      consistent.names.unused (consistent.names.create_before name parent absent)
  · intro id entry stored
    rw [newKeys]
    rw [entries] at stored
    have childless : ∀ child key, tree.keys child = some key → key.parent ≠ some tree.nextEntry := by
      intro child key known parented
      obtain ⟨upper,found,-⟩ := consistent.names.above child key _ known parented
      rw [consistent.names.unused] at found
      cases found
    by_cases new : id = tree.nextEntry
    · rw [if_pos new] at stored
      cases Option.some.inj stored
      refine ⟨List.nodup_nil,?_⟩
      intro child
      simp only [List.not_mem_nil,false_iff,not_exists,not_and]
      intro key known parented
      rw [new] at parented
      rcases Names.update_cases _ key child known with ⟨-,rfl⟩ | before
      · exact other parented
      · exact childless child key before parented
    · rw [if_neg new] at stored
      by_cases under : parent = some id
      · rw [if_pos under,Option.map_eq_some_iff] at stored
        obtain ⟨before,found,rfl⟩ := stored
        obtain ⟨nodup,members⟩ := consistent.children id before found
        have fresh : tree.nextEntry ∉ before.children := by
          rw [members,consistent.names.unused]
          simp
        refine ⟨?_,?_⟩
        · rw [← List.concat_eq_append]
          exact List.Nodup.concat fresh nodup
        · intro child
          rw [List.mem_append,List.mem_singleton,members]
          constructor
          · rintro (⟨key,known,parented⟩ | rfl)
            · exact ⟨key,consistent.names.update_old _ child key known,parented⟩
            · exact ⟨_,Function.update_self ..,under⟩
          · rintro ⟨key,known,parented⟩
            rcases Names.update_cases _ key child known with ⟨same,-⟩ | earlier
            · exact Or.inr same
            · exact Or.inl ⟨key,earlier,parented⟩
      · rw [if_neg under] at stored
        obtain ⟨nodup,members⟩ := consistent.children id entry stored
        refine ⟨nodup,?_⟩
        intro child
        rw [members]
        constructor
        · rintro ⟨key,known,parented⟩
          exact ⟨key,consistent.names.update_old _ child key known,parented⟩
        · rintro ⟨key,known,parented⟩
          rcases Names.update_cases _ key child known with ⟨-,rfl⟩ | earlier
          · exact absurd parented under
          · exact ⟨key,earlier,parented⟩
  · rw [NameTree.link,minimum]
    exact consistent.minimum

/-- Every chained entry has the same bucket by its hash and by the low half of it. -/
def Rehashable (tree : NameTree) (newNBuckets : Nat) : Prop :=
  ∀ id ∈ Chains.walk tree.nBuckets tree.buckets, ∀ entry ∈ tree.entries id,
    entry.hash.toUInt32.toNat % newNBuckets = entry.hash.toNat % newNBuckets

theorem Consistent.resize (consistent : Consistent hashComponent tree) (newNBuckets : Nat)
    (positive : 0 < newNBuckets) (rehashable : tree.Rehashable newNBuckets) :
    Consistent hashComponent (tree.resize newNBuckets) where
  names := consistent.names
  chains := by
    refine consistent.chains.rehash newNBuckets positive _ ?_
    intro id key known
    obtain ⟨entry,stored,rfl⟩ := entry_of_keys known
    have member := (consistent.chains.mem_walk id).mpr ⟨_,known⟩
    rw [stored]
    exact rehashable id member entry (by rw [stored]; rfl)
  children := consistent.children
  minimum := consistent.minimum

theorem Consistent.attach (consistent : Consistent hashComponent tree) (id : Nat) (attached : Attached) :
    Consistent hashComponent (tree.attach id attached) := by
  have kept := tree.modify_keys id (fun entry => { entry with
    fibEntry := attached.fibEntry
    pitEntries := attached.pitEntries
    measurementsEntry := attached.measurementsEntry
    strategyChoiceEntry := attached.strategyChoiceEntry }) (fun _ => rfl)
  constructor
  · rw [NameTree.attach,kept]
    exact consistent.names
  · rw [NameTree.attach,kept]
    exact consistent.chains
  · intro other entry stored
    rw [NameTree.attach,modify_entries] at stored
    rw [NameTree.attach,kept]
    split at stored
    · rename_i same
      rw [Option.map_eq_some_iff] at stored
      obtain ⟨before,found,rfl⟩ := stored
      rw [same]
      exact consistent.children id before found
    · exact consistent.children other entry stored
  · exact consistent.minimum

theorem swapRemove_perm (children : List Nat) (child : Nat) :
    (swapRemove children child).Perm (children.erase child) := by
  unfold swapRemove
  split
  · rename_i member
    obtain ⟨before,after,split,fresh⟩ := List.eq_append_cons_of_mem member
    have position : children.idxOf child = before.length := by
      rw [split,List.idxOf_append_of_notMem fresh,List.idxOf_cons_self,Nat.add_zero]
    have erased : children.erase child = before ++ after := by
      rw [split,List.erase_append_right _ fresh,List.erase_cons_head]
    rw [position,erased,split,List.set_append_right _ _ (Nat.le_refl _),Nat.sub_self,List.set_cons_zero]
    induction after using List.reverseRecOn with
    | nil => simp
    | append_singleton rest last =>
      have shortened : (before ++ last :: (rest ++ [last])).dropLast = before ++ last :: rest := by
        rw [← List.cons_append,← List.append_assoc,List.dropLast_concat]
      have final : (before ++ child :: (rest ++ [last])).getLastD child = last := by
        rw [← List.cons_append,← List.append_assoc,List.getLastD_concat]
      rw [final,shortened]
      exact List.Perm.append_left before (List.perm_append_singleton last rest).symm
  · rename_i absent
    rw [List.erase_of_not_mem absent]

private theorem mem_swapRemove (children : List Nat) (child other : Nat) (nodup : children.Nodup) :
    other ∈ swapRemove children child ↔ other ≠ child ∧ other ∈ children := by
  rw [(swapRemove_perm children child).mem_iff,nodup.mem_erase_iff]

theorem Consistent.unchain_eq (consistent : Consistent hashComponent tree) (id : Nat) (entry : Entry)
    (stored : tree.entries id = some entry) :
    tree.unchain id entry.hash = Function.update tree.buckets (entry.hash.toNat % tree.nBuckets)
      ((tree.buckets (entry.hash.toNat % tree.nBuckets)).erase id) := by
  have here : id ∈ tree.buckets (entry.hash.toNat % tree.nBuckets) :=
    consistent.chains.chained id entry.key (keys_of_entry stored)
  have bound := consistent.chains.location_lt entry.hash
  unfold unchain
  cases found : (List.range tree.nBuckets).find? (fun bucket => id ∈ tree.buckets bucket) with
  | none =>
    have missing := List.find?_eq_none.mp found _ (List.mem_range.mpr bound)
    exact absurd here (by simpa using missing)
  | some bucket =>
    have member : id ∈ tree.buckets bucket := by simpa using List.find?_some found
    have inside := List.mem_range.mp (List.mem_of_find?_eq_some found)
    obtain ⟨key,known,place⟩ := consistent.chains.placed bucket inside id member
    rw [keys_of_entry stored] at known
    cases Option.some.inj known
    have same : entry.hash.toNat % tree.nBuckets = bucket := place
    rw [same]
    dsimp only
    split
    · rename_i head
      obtain ⟨rest,split⟩ := List.head?_eq_some_iff.mp head
      rw [location,same,split]
      simp
    · rfl

theorem unlink_entries (tree : NameTree) (id : Nat) (entry : Entry) (other : Nat) :
    (tree.unlink id entry).entries other =
      if other = id then none
      else if entry.parent = some other then (tree.entries other).map fun above =>
        { above with children := swapRemove above.children id }
      else tree.entries other := by
  unfold unlink
  dsimp only
  by_cases same : other = id
  · rw [if_pos same,same]
    exact Function.update_self ..
  · rw [if_neg same,Function.update_of_ne same]
    cases entry.parent with
    | none => simp
    | some parent =>
      dsimp only
      rw [modify_entries]
      by_cases here : other = parent
      · simp [here]
      · simp [here,Ne.symm here]

theorem unlink_keys (tree : NameTree) (id : Nat) (entry : Entry) :
    (tree.unlink id entry).keys = Function.update tree.keys id none := by
  funext other
  rw [keys,unlink_entries]
  by_cases same : other = id
  · rw [if_pos same,same,Function.update_self]
    rfl
  · rw [if_neg same,Function.update_of_ne same,keys]
    split
    · rw [Option.map_map]
      rfl
    · rfl

theorem unlink_frame (tree : NameTree) (id : Nat) (entry : Entry) :
    (tree.unlink id entry).nextEntry = tree.nextEntry ∧ (tree.unlink id entry).nBuckets = tree.nBuckets ∧
      (tree.unlink id entry).nItems = tree.nItems - 1 ∧ (tree.unlink id entry).minNBuckets = tree.minNBuckets ∧
      (tree.unlink id entry).buckets = tree.unchain id entry.hash := by
  unfold unlink
  dsimp only
  split <;> exact ⟨rfl,rfl,rfl,rfl,rfl⟩

theorem Consistent.unlink (consistent : Consistent hashComponent tree) (id : Nat) (entry : Entry)
    (stored : tree.entries id = some entry) (childless : entry.children = []) :
    Consistent hashComponent (tree.unlink id entry) := by
  obtain ⟨next,count,items,minimum,buckets⟩ := tree.unlink_frame id entry
  have leaf : ∀ other key, tree.keys other = some key → key.parent ≠ some id := by
    intro other key known parented
    have child := ((consistent.children id entry stored).2 other).mpr ⟨key,known,parented⟩
    rw [childless] at child
    cases child
  constructor
  · rw [unlink_keys,next]
    exact consistent.names.remove id leaf
  · rw [unlink_keys,count,items,buckets,consistent.unchain_eq id entry stored]
    exact consistent.chains.remove id entry.key (keys_of_entry stored)
  · intro other above found
    rw [unlink_entries] at found
    rw [unlink_keys]
    have rest : ∀ child key, (Function.update tree.keys id none child = some key) ↔
        child ≠ id ∧ tree.keys child = some key := by
      intro child key
      by_cases same : child = id
      · simp [same]
      · simp [same]
    simp only [rest]
    by_cases same : other = id
    · rw [if_pos same] at found
      cases found
    · rw [if_neg same] at found
      by_cases under : entry.parent = some other
      · rw [if_pos under,Option.map_eq_some_iff] at found
        obtain ⟨before,known,rfl⟩ := found
        obtain ⟨nodup,members⟩ := consistent.children other before known
        refine ⟨(swapRemove_perm before.children id).nodup_iff.mpr (nodup.erase id),?_⟩
        intro child
        rw [mem_swapRemove before.children id child nodup,members]
        exact ⟨fun ⟨apart,key,named,parented⟩ => ⟨key,⟨apart,named⟩,parented⟩,
          fun ⟨key,⟨apart,named⟩,parented⟩ => ⟨apart,key,named,parented⟩⟩
      · rw [if_neg under] at found
        obtain ⟨nodup,members⟩ := consistent.children other above found
        refine ⟨nodup,?_⟩
        intro child
        rw [members]
        constructor
        · rintro ⟨key,named,parented⟩
          refine ⟨key,⟨?_,named⟩,parented⟩
          rintro rfl
          rw [keys_of_entry stored] at named
          cases Option.some.inj named
          exact under parented
        · rintro ⟨key,⟨-,named⟩,parented⟩
          exact ⟨key,named,parented⟩
  · rw [minimum]
    exact consistent.minimum

theorem Consistent.visit (consistent : Consistent hashComponent tree) (parent : Option Nat) (name : Name)
    (above : tree.Above parent name) :
    Consistent hashComponent (tree.visit hashComponent parent name).2 ∧
      ∃ key, (tree.visit hashComponent parent name).2.keys (tree.visit hashComponent parent name).1 = some key ∧
        key.name = name := by
  unfold NameTree.visit
  rcases consistent.insert_cases name with ⟨id,entry,stored,named,found⟩ | ⟨absent,created⟩
  · rw [found]
    exact ⟨consistent,entry.key,keys_of_entry stored,named⟩
  · rw [created]
    refine ⟨consistent.link name parent absent above,⟨computeHash hashComponent name,name,parent⟩,?_,rfl⟩
    refine (congrFun (tree.link_keys _ name parent ?_) tree.nextEntry).trans (Function.update_self ..)
    intro same
    obtain ⟨key,stored,-⟩ := above.2 _ same
    rw [consistent.names.unused] at stored
    cases stored

/-- A resize that the load calls for finds every entry rehashable. -/
def EnlargeSafe (tree : NameTree) : Prop :=
  tree.nItems > tree.enlargeThreshold → tree.Rehashable (2 * tree.nBuckets)

def ShrinkSafe (tree : NameTree) : Prop :=
  tree.nBuckets / 2 ≥ tree.minNBuckets ∧ tree.nItems < tree.shrinkThreshold →
    tree.Rehashable (tree.nBuckets / 2)

theorem Consistent.enlarge (consistent : Consistent hashComponent tree) (safe : tree.EnlargeSafe) :
    Consistent hashComponent tree.enlarge := by
  unfold NameTree.enlarge
  split
  · rename_i loaded
    have positive := consistent.chains.positive
    exact consistent.resize _ (by omega) (safe loaded)
  · exact consistent

theorem Consistent.shrink (consistent : Consistent hashComponent tree) (safe : tree.ShrinkSafe) :
    Consistent hashComponent tree.shrink := by
  unfold NameTree.shrink
  split
  · rename_i unloaded
    have positive := consistent.minimum
    exact consistent.resize _ (by omega) (safe unloaded)
  · exact consistent

private theorem enlarge_keys (tree : NameTree) : tree.enlarge.keys = tree.keys := by
  unfold enlarge
  split
  · rfl
  · rfl

/-- Every resize made by the loop of `lookup` is safe. -/
def LookupSafe (hashComponent : Component → UInt64) (tree : NameTree) (name : Name) : Prop :=
  Steps (lookupStep hashComponent) (fun state level => (state.1.visit hashComponent state.2 level).2.EnlargeSafe)
    (tree,none) (prefixes name)

/-- Every resize made on the way back from the recursion is safe. -/
def EraseSafe : (fuel : Nat) → NameTree → Nat → Prop
  | 0, _, _ => True
  | fuel + 1, tree, id => ∀ entry ∈ tree.entries id, entry.isEmpty = true →
    (∀ parent ∈ entry.parent, EraseSafe fuel (tree.unlink id entry) parent) ∧
      (match entry.parent with
        | none => tree.unlink id entry
        | some parent => (eraseIfEmpty fuel (tree.unlink id entry) parent).2).ShrinkSafe

/-- The resizes of one call are to numbers of buckets for which every entry stored at
that moment has the same bucket by its hash and by the low 32 bits of it. -/
def ResizesSafely (hashComponent : Component → UInt64) (tree : NameTree) : Call → Prop
  | .lookup name => LookupSafe hashComponent tree name
  | .attach _ _ => True
  | .eraseEntryIfEmpty id => ∀ entry ∈ tree.entries id, EraseSafe (entry.name.length + 1) tree id

private theorem take_above (name : Name) (length : Nat) (bound : length + 1 ≤ name.length) :
    (name.getPrefix (length + 1)).dropLast = name.getPrefix length ∧ name.getPrefix (length + 1) ≠ [] := by
  unfold Name.getPrefix
  constructor
  · rw [List.dropLast_eq_take,List.length_take,List.take_take]
    congr 1
    omega
  · intro empty
    have size := congrArg List.length empty
    rw [List.length_take,List.length_nil] at size
    omega

/-- After the first `count` rounds the last entry visited has the name of the last round,
and what every round keeps holds. -/
private theorem lookup_rounds {motive : NameTree × Option Nat → Prop} (consistent : Consistent hashComponent tree)
    (name : Name) (safe : LookupSafe hashComponent tree name) (start : motive (tree,none))
    (round : ∀ state level, level <+: name → Consistent hashComponent state.1 → state.1.Above state.2 level →
      motive state → motive (lookupStep hashComponent state level))
    (count : Nat) (bound : count ≤ name.length + 1) :
    let state := run (lookupStep hashComponent) (tree,none) ((List.range count).map name.getPrefix)
    motive state ∧ Consistent hashComponent state.1 ∧ (state.2 = none ↔ count = 0) ∧
      ∀ id, state.2 = some id → ∃ key, state.1.keys id = some key ∧ key.name = name.getPrefix (count - 1) := by
  induction count with
  | zero => exact ⟨start,consistent,by simp,by simp⟩
  | succ count ih =>
    obtain ⟨holds,before,first,named⟩ := ih (by omega)
    have inside : (List.range count).map name.getPrefix ++ [name.getPrefix count] <+: prefixes name := by
      rw [← List.map_singleton,← List.map_append,← List.range_succ]
      apply List.IsPrefix.map
      refine ⟨(List.range (name.length + 1 - (count + 1))).map (count + 1 + ·),?_⟩
      rw [← List.range_add]
      congr 1
      omega
    have step := safe _ _ inside
    rw [List.range_succ,List.map_append,List.map_singleton,run_concat]
    generalize run (lookupStep hashComponent) (tree,none) ((List.range count).map name.getPrefix) = state at *
    have above : state.1.Above state.2 (name.getPrefix count) := by
      cases count with
      | zero =>
        have start := first.mpr rfl
        refine ⟨by simp [start,Name.getPrefix],?_⟩
        intro id same
        rw [start] at same
        cases same
      | succ length =>
        obtain ⟨shortened,nonempty⟩ := take_above name length (by omega)
        refine ⟨?_,?_⟩
        · simp only [nonempty,iff_false]
          exact fun none => absurd (first.mp none) (by omega)
        · intro id same
          rw [shortened]
          exact named id same
    obtain ⟨visited,key,stored,current⟩ := before.visit state.2 (name.getPrefix count) above
    refine ⟨round state _ (List.take_prefix _ _) before above holds,visited.enlarge step,by simp [lookupStep],?_⟩
    intro id same
    cases Option.some.inj same
    refine ⟨key,?_,current⟩
    change (state.1.visit hashComponent state.2 (name.getPrefix count)).2.enlarge.keys _ = _
    rw [enlarge_keys]
    exact stored

/-- What every round of a safe lookup keeps holds of its result. -/
theorem Consistent.lookup_rule {motive : NameTree × Option Nat → Prop} (consistent : Consistent hashComponent tree)
    (name : Name) (safe : LookupSafe hashComponent tree name) (start : motive (tree,none))
    (round : ∀ state level, level <+: name → Consistent hashComponent state.1 → state.1.Above state.2 level →
      motive state → motive (lookupStep hashComponent state level)) : motive (tree.lookup hashComponent name) :=
  (lookup_rounds consistent name safe start round (name.length + 1) (Nat.le_refl _)).1

theorem Consistent.lookup (consistent : Consistent hashComponent tree) (name : Name)
    (safe : LookupSafe hashComponent tree name) :
    Consistent hashComponent (tree.lookup hashComponent name).1 :=
  (lookup_rounds (motive := fun _ => True) consistent name safe trivial (fun _ _ _ _ _ _ => trivial)
    (name.length + 1) (Nat.le_refl _)).2.1

theorem Consistent.eraseIfEmpty (fuel : Nat) (consistent : Consistent hashComponent tree) (id : Nat)
    (safe : EraseSafe fuel tree id) : Consistent hashComponent (eraseIfEmpty fuel tree id).2 := by
  induction fuel generalizing tree id with
  | zero => exact consistent
  | succ fuel ih =>
    unfold NameTree.eraseIfEmpty
    cases stored : tree.entries id with
    | none => exact consistent
    | some entry =>
      dsimp only
      by_cases empty : entry.isEmpty = true
      · rw [if_pos empty]
        obtain ⟨recursion,shrinks⟩ := safe entry stored empty
        have childless : entry.children = [] := by
          simp only [Entry.isEmpty,Bool.and_eq_true,List.isEmpty_iff] at empty
          exact empty.1.1.1.1
        have unlinked := consistent.unlink id entry stored childless
        cases parent : entry.parent with
        | none =>
          rw [parent] at shrinks
          exact unlinked.shrink shrinks
        | some above =>
          rw [parent] at shrinks recursion
          exact (ih unlinked above (recursion above rfl)).shrink shrinks
      · rw [if_neg empty]
        exact consistent

/-- One call keeps the invariant if the resizes it makes are safe. -/
theorem Consistent.call (consistent : Consistent hashComponent tree) (next : Call)
    (safe : ResizesSafely hashComponent tree next) : Consistent hashComponent (tree.call hashComponent next) := by
  cases next with
  | lookup name => exact consistent.lookup name safe
  | attach id attached => exact consistent.attach id attached
  | eraseEntryIfEmpty id =>
    change Consistent hashComponent (tree.eraseEntryIfEmpty id).2
    unfold eraseEntryIfEmpty
    cases stored : tree.entries id with
    | none => exact consistent
    | some entry => exact consistent.eraseIfEmpty _ id (safe entry stored)

theorem Consistent.findExactMatch_iff (consistent : Consistent hashComponent tree) (name : Name) (id : Nat) :
    tree.findExactMatch hashComponent name = some id ↔
      ∃ entry, tree.entries id = some entry ∧ entry.name = name := by
  constructor
  · intro found
    obtain ⟨-,entry,stored,passed⟩ := find_some tree _ id _ found
    exact ⟨entry,stored,(of_decide_eq_true passed).2.symm⟩
  · rintro ⟨entry,stored,rfl⟩
    have hashed := consistent.hash_eq id entry stored
    have present := consistent.not_missing (fun other => computeHash hashComponent entry.name = other.hash ∧
      entry.name = other.name) id entry stored (by simp [hashed])
    rw [hashed] at present
    obtain ⟨other,found⟩ := Option.ne_none_iff_exists'.mp present
    obtain ⟨-,otherEntry,known,passed⟩ := find_some tree _ other _ found
    have same := consistent.names.distinct other id _ _ (keys_of_entry known) (keys_of_entry stored)
      (of_decide_eq_true passed).2.symm
    rw [same] at found
    exact found

end

/-- The representation invariant, and that the exact match finds the stored names. -/
structure Sound (hashComponent : Component → UInt64) (tree : NameTree) : Prop where
  placed : ∀ id entry, tree.entries id = some entry → entry.hash = computeHash hashComponent entry.name ∧
    id ∈ tree.buckets (entry.hash.toNat % tree.nBuckets)
  distinct : ∀ first second a b, tree.entries first = some a → tree.entries second = some b →
    a.name = b.name → first = second
  closed : ∀ id entry, tree.entries id = some entry → ∀ name, name <+: entry.name →
    ∃ other above, tree.entries other = some above ∧ above.name = name
  parent : ∀ id entry, tree.entries id = some entry → (entry.parent = none ↔ entry.name = []) ∧
    ∀ other, entry.parent = some other →
      ∃ above, tree.entries other = some above ∧ above.name = entry.name.dropLast
  children : ∀ id entry, tree.entries id = some entry → entry.children.Nodup ∧
    ∀ child, child ∈ entry.children ↔ ∃ below, tree.entries child = some below ∧ below.parent = some id
  counted : tree.nItems = Set.ncard { id | ∃ entry, tree.entries id = some entry }
  exact : ∀ name id, tree.findExactMatch hashComponent name = some id ↔
    ∃ entry, tree.entries id = some entry ∧ entry.name = name

section
variable {hashComponent : Component → UInt64} {tree : NameTree}

private theorem exists_key (id : Nat) (P : Key → Prop) :
    (∃ key, tree.keys id = some key ∧ P key) ↔ ∃ entry, tree.entries id = some entry ∧ P entry.key := by
  constructor
  · rintro ⟨key,known,holds⟩
    obtain ⟨entry,stored,rfl⟩ := entry_of_keys known
    exact ⟨entry,stored,holds⟩
  · rintro ⟨entry,stored,holds⟩
    exact ⟨entry.key,keys_of_entry stored,holds⟩

theorem Consistent.sound (consistent : Consistent hashComponent tree) : Sound hashComponent tree where
  placed id entry stored :=
    ⟨consistent.hash_eq id entry stored,consistent.chains.chained id entry.key (keys_of_entry stored)⟩
  distinct first second a b left right same :=
    consistent.names.distinct first second a.key b.key (keys_of_entry left) (keys_of_entry right) same
  closed id entry stored name shorter := by
    obtain ⟨other,key,known,named⟩ :=
      consistent.names.closed entry.name name shorter id entry.key (keys_of_entry stored) rfl
    obtain ⟨above,found,rfl⟩ := entry_of_keys known
    exact ⟨other,above,found,named⟩
  parent id entry stored := by
    refine ⟨consistent.names.root id entry.key (keys_of_entry stored),?_⟩
    intro other parented
    exact (exists_key other fun key => key.name = entry.name.dropLast).mp
      (consistent.names.above id entry.key other (keys_of_entry stored) parented)
  children id entry stored := by
    obtain ⟨nodup,members⟩ := consistent.children id entry stored
    exact ⟨nodup,fun child => (members child).trans (exists_key child fun key => key.parent = some id)⟩
  counted := by
    have members : { id | ∃ entry, tree.entries id = some entry } =
        ((Chains.walk tree.nBuckets tree.buckets).toFinset : Set Nat) := by
      ext id
      rw [Finset.mem_coe,List.mem_toFinset,consistent.chains.mem_walk]
      simp [keys]
    rw [members,Set.ncard_coe_finset,List.toFinset_card_of_nodup consistent.chains.walk_nodup]
    exact consistent.chains.counted
  exact := consistent.findExactMatch_iff

theorem consistent_of_resizesSafely (nBuckets : Nat) (positive : 0 < nBuckets) (calls : List Call)
    (safe : Steps (call hashComponent) (ResizesSafely hashComponent) (initial nBuckets) calls) :
    Along (call hashComponent) (Consistent hashComponent) (initial nBuckets) calls :=
  along_of_steps (fun _ next consistent safe => consistent.call next safe)
    (initial_consistent nBuckets positive) safe

theorem rehashable_of_dvd (tree : NameTree) (newNBuckets : Nat) (divides : newNBuckets ∣ 2^32) :
    tree.Rehashable newNBuckets := by
  intro id _ entry _
  rw [UInt64.toNat_toUInt32]
  exact Nat.mod_mod_of_dvd _ divides

end

instance (tree : NameTree) (newNBuckets : Nat) : Decidable (tree.Rehashable newNBuckets) :=
  inferInstanceAs (Decidable (∀ _ ∈ _, _))

instance (tree : NameTree) : Decidable tree.EnlargeSafe := inferInstanceAs (Decidable (_ → _))

instance (tree : NameTree) : Decidable tree.ShrinkSafe := inferInstanceAs (Decidable (_ → _))

instance (hashComponent : Component → UInt64) (tree : NameTree) (name : Name) :
    Decidable (LookupSafe hashComponent tree name) := inferInstanceAs (Decidable (Steps _ _ _ _))

instance decidableEraseSafe : (fuel : Nat) → (tree : NameTree) → (id : Nat) → Decidable (EraseSafe fuel tree id)
  | 0, _, _ => isTrue trivial
  | fuel + 1, tree, id =>
    have := decidableEraseSafe fuel
    inferInstanceAs (Decidable (∀ entry ∈ tree.entries id, entry.isEmpty = true →
      (∀ parent ∈ entry.parent, EraseSafe fuel (tree.unlink id entry) parent) ∧ ShrinkSafe _))

instance (hashComponent : Component → UInt64) (tree : NameTree) :
    (next : Call) → Decidable (ResizesSafely hashComponent tree next)
  | .lookup name => inferInstanceAs (Decidable (LookupSafe hashComponent tree name))
  | .attach _ _ => isTrue trivial
  | .eraseEntryIfEmpty id =>
    inferInstanceAs (Decidable (∀ entry ∈ tree.entries id, EraseSafe (entry.name.length + 1) tree id))

end Ncfcc.Nfd.NameTree
