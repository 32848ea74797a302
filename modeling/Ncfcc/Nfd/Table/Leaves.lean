import Ncfcc.Nfd.Table.EntryNumbers

/-! The leaves of the name tree that the tables share. A lookup leaves at most one node without
children and attachments behind, the one that an entry is then attached to; an erasure goes up
to the first node that is not empty. -/
namespace Ncfcc.Nfd.NameTree
open Ncfcc.Library

/-- Every leaf but the root, and but an excepted one, has something attached. -/
def LeavesCarryBut (except : Option Nat) (tree : NameTree) : Prop :=
  ∀ id entry, tree.entries id = some entry → entry.isEmpty = true → entry.name ≠ [] → except = some id

def LeavesCarry (tree : NameTree) : Prop :=
  ∀ id entry, tree.entries id = some entry → entry.children = [] → entry.name ≠ [] →
    entry.fibEntry.isSome ∨ entry.pitEntries ≠ [] ∨ entry.measurementsEntry.isSome ∨ entry.strategyChoiceEntry.isSome

/-- The thresholds are those of the number of buckets, and the table is not overloaded. -/
structure Loaded (tree : NameTree) : Prop where
  enlarge : tree.enlargeThreshold = tree.nBuckets / 2
  shrink : tree.shrinkThreshold = tree.nBuckets / 10
  load : tree.nItems ≤ tree.nBuckets / 2

def Stored (tree : NameTree) (name : Name) : Prop := ∃ id entry, tree.entries id = some entry ∧ entry.name = name

section
variable {hashComponent : Component → UInt64} {tree : NameTree}

private theorem leavesCarry_iff : tree.LeavesCarry ↔ LeavesCarryBut none tree := by
  constructor
  · intro leaves id entry stored empty below
    obtain ⟨childless,bare⟩ := entry.isEmpty_iff.mp empty
    have carries := leaves id entry stored childless below
    simp only [Entry.attached,Attached.none,Attached.mk.injEq] at bare
    simp [bare] at carries
  · intro leaves id entry stored childless below
    by_contra carries
    have empty : entry.isEmpty = true := by
      simp only [not_or,Bool.not_eq_true,Option.isSome_eq_false_iff,Option.isNone_iff_eq_none,not_not,ne_eq] at carries
      rw [Entry.isEmpty_iff,Entry.attached,Attached.none]
      simp [carries,childless]
    cases leaves id entry stored empty below

theorem LeavesCarryBut.of_entries {except : Option Nat} {next : NameTree} (leaves : LeavesCarryBut except tree)
    (entries : next.entries = tree.entries) : LeavesCarryBut except next := by
  unfold LeavesCarryBut
  rw [entries]
  exact leaves

theorem LeavesCarryBut.weaken (leaves : LeavesCarryBut none tree) (except : Option Nat) : LeavesCarryBut except tree := by
  intro id entry stored empty below
  cases leaves id entry stored empty below

/-! Lookups. -/

/-- The node visited before is no leaf any more: the node of the next level is its child. -/
theorem Consistent.visit_leaves (consistent : Consistent hashComponent tree) {parent : Option Nat} {level : Name}
    (above : tree.Above parent level) (leaves : LeavesCarryBut parent tree) :
    LeavesCarryBut (some (tree.visit hashComponent parent level).1) (tree.visit hashComponent parent level).2 := by
  unfold NameTree.visit
  rcases consistent.insert_cases level with ⟨id,entry,stored,named,found⟩ | ⟨absent,created⟩
  · rw [found]
    intro other leaf here empty below
    have exception := leaves other leaf here empty below
    obtain ⟨key,known,shorter⟩ := above.2 other exception
    have child : entry.parent = some other := by
      cases upper : entry.parent with
      | none =>
        have root : level = [] := named ▸ (consistent.names.root id entry.key (keys_of_entry stored)).mp upper
        rw [exception] at above
        exact absurd (above.1.mpr root) (by simp)
      | some node =>
        obtain ⟨top,held,short⟩ := consistent.names.above id entry.key node (keys_of_entry stored) upper
        have same : top.name = key.name := by
          rw [short,shorter,← named]
          rfl
        rw [consistent.names.distinct node other top key held known same]
    have inside := ((consistent.children other leaf here).2 id).mpr ⟨entry.key,keys_of_entry stored,child⟩
    rw [(leaf.isEmpty_iff.mp empty).1] at inside
    cases inside
  · rw [created]
    have other : parent ≠ some tree.nextEntry := by
      intro same
      obtain ⟨key,known,-⟩ := above.2 _ same
      rw [consistent.names.unused] at known
      cases known
    intro id leaf here empty below
    change (tree.link (computeHash hashComponent level) level parent).entries id = some leaf at here
    rw [link_entries tree _ level parent other] at here
    split at here
    · rename_i new
      exact congrArg some new.symm
    · split at here
      · obtain ⟨before,-,rfl⟩ := Option.map_eq_some_iff.mp here
        have children := (Entry.isEmpty_iff _).mp empty
        simp at children
      · rename_i elsewhere
        exact absurd (leaves id leaf here empty below) elsewhere

theorem Consistent.lookup_leaves (consistent : Consistent hashComponent tree) (leaves : LeavesCarryBut none tree)
    (name : Name) (safe : LookupSafe hashComponent tree name) :
    LeavesCarryBut (tree.lookup hashComponent name).2 (tree.lookup hashComponent name).1 := by
  refine consistent.lookup_rule (motive := fun state => LeavesCarryBut state.2 state.1) name safe leaves ?_
  intro state level _ consistent above leaves
  exact (consistent.visit_leaves above leaves).of_entries (enlarge_entries _).1

/-! The load. -/

theorem Loaded.enlarge_self (loaded : tree.Loaded) : tree.enlarge = tree := by
  unfold NameTree.enlarge
  rw [if_neg]
  have := loaded.enlarge
  have := loaded.load
  omega

/-- One entry more than allowed is made up for by the doubled table. -/
theorem enlarge_loaded (positive : 0 < tree.nBuckets) (enlarge : tree.enlargeThreshold = tree.nBuckets / 2)
    (shrink : tree.shrinkThreshold = tree.nBuckets / 10) (load : tree.nItems ≤ tree.nBuckets / 2 + 1) :
    tree.enlarge.Loaded := by
  unfold NameTree.enlarge
  split
  · refine ⟨rfl,rfl,?_⟩
    change tree.nItems ≤ 2 * tree.nBuckets / 2
    omega
  · exact ⟨enlarge,shrink,by omega⟩

private theorem lookupStep_loaded (state : NameTree × Option Nat) (level : Name) (loaded : state.1.Loaded)
    (positive : 0 < state.1.nBuckets) : (lookupStep hashComponent state level).1.Loaded := by
  have frame : ∀ (tree : NameTree) (parent : Option Nat) (id : Nat), (tree.addChild parent id).nBuckets = tree.nBuckets ∧
      (tree.addChild parent id).nItems = tree.nItems ∧
      (tree.addChild parent id).enlargeThreshold = tree.enlargeThreshold ∧
      (tree.addChild parent id).shrinkThreshold = tree.shrinkThreshold := by
    intro tree parent id
    unfold addChild
    split <;> exact ⟨rfl,rfl,rfl,rfl⟩
  have load := loaded.load
  unfold lookupStep NameTree.visit NameTree.insert
  dsimp only
  cases state.1.find (state.1.location (computeHash hashComponent level)) (fun entry => entry.name = level) with
  | some id => exact enlarge_loaded positive loaded.enlarge loaded.shrink (Nat.le_succ_of_le load)
  | none =>
    dsimp only
    refine enlarge_loaded ?_ ?_ ?_ ?_
    · rw [(frame _ _ _).1]
      exact positive
    · rw [(frame _ _ _).1,(frame _ _ _).2.2.1]
      exact loaded.enlarge
    · rw [(frame _ _ _).1,(frame _ _ _).2.2.2]
      exact loaded.shrink
    · rw [(frame _ _ _).1,(frame _ _ _).2.1]
      exact Nat.succ_le_succ load

theorem Consistent.lookup_loaded (consistent : Consistent hashComponent tree) (loaded : tree.Loaded) (name : Name)
    (safe : LookupSafe hashComponent tree name) : (tree.lookup hashComponent name).1.Loaded := by
  refine consistent.lookup_rule (motive := fun state => state.1.Loaded) name safe loaded ?_
  intro state level _ consistent _ loaded
  exact lookupStep_loaded state level loaded consistent.chains.positive

/-- The lookup of a stored name changes nothing. -/
theorem Consistent.lookup_stored (consistent : Consistent hashComponent tree) (loaded : tree.Loaded) {name : Name}
    (stored : tree.Stored name) (safe : LookupSafe hashComponent tree name) :
    (tree.lookup hashComponent name).1 = tree := by
  refine consistent.lookup_rule (motive := fun state => state.1 = tree) name safe rfl ?_
  rintro ⟨current,parent⟩ level shorter _ _ rfl
  obtain ⟨id,entry,here,named⟩ := stored
  obtain ⟨other,key,known,same⟩ := consistent.names.closed name level shorter id entry.key (keys_of_entry here) named
  have visited : (current.visit hashComponent parent level).2 = current := by
    unfold NameTree.visit
    rcases consistent.insert_cases level with ⟨found,_,_,_,inserted⟩ | ⟨absent,_⟩
    · rw [inserted]
    · exact absurd same (absent other key known)
  change (current.visit hashComponent parent level).2.enlarge = current
  rw [visited]
  exact loaded.enlarge_self

private theorem unlink_loaded (loaded : tree.Loaded) (id : Nat) (entry : Entry) : (tree.unlink id entry).Loaded := by
  have frame : (tree.unlink id entry).enlargeThreshold = tree.enlargeThreshold ∧
      (tree.unlink id entry).shrinkThreshold = tree.shrinkThreshold := by
    unfold unlink
    dsimp only
    split <;> exact ⟨rfl,rfl⟩
  obtain ⟨-,count,items,-,-⟩ := tree.unlink_frame id entry
  refine ⟨?_,?_,?_⟩
  · rw [frame.1,count]
    exact loaded.enlarge
  · rw [frame.2,count]
    exact loaded.shrink
  · rw [count,items]
    exact (Nat.sub_le _ _).trans loaded.load

private theorem shrink_loaded (loaded : tree.Loaded) : tree.shrink.Loaded := by
  unfold NameTree.shrink
  split
  · rename_i unloaded
    have few := unloaded.2
    rw [loaded.shrink] at few
    refine ⟨rfl,rfl,?_⟩
    change tree.nItems ≤ tree.nBuckets / 2 / 2
    omega
  · exact loaded

/-! Erasures. -/

private theorem eraseIfEmpty_loaded (fuel : Nat) (loaded : tree.Loaded) (id : Nat) : (eraseIfEmpty fuel tree id).2.Loaded := by
  induction fuel generalizing tree id with
  | zero => exact loaded
  | succ fuel ih =>
    unfold eraseIfEmpty
    cases tree.entries id with
    | none => exact loaded
    | some entry =>
      dsimp only
      split
      · cases entry.parent with
        | none => exact shrink_loaded (unlink_loaded loaded id entry)
        | some parent => exact shrink_loaded (ih (unlink_loaded loaded id entry) parent)
      · exact loaded

/-- What an unlinked leaf leaves behind: its parent may be a leaf now. -/
theorem unlink_leaves {id : Nat} (entry : Entry) (leaves : LeavesCarryBut (some id) tree) :
    LeavesCarryBut entry.parent (tree.unlink id entry) := by
  intro other leaf here empty below
  rw [unlink_entries] at here
  split at here
  · cases here
  · rename_i apart
    split at here
    · assumption
    · exact absurd (Option.some.inj (leaves other leaf here empty below)).symm apart

/-- The recursion ends at a node that is not empty, or at the root. -/
theorem Consistent.eraseIfEmpty_leaves (fuel : Nat) (consistent : Consistent hashComponent tree) (id : Nat)
    (leaves : LeavesCarryBut (some id) tree) (enough : ∀ entry, tree.entries id = some entry → entry.name.length < fuel) :
    LeavesCarryBut none (NameTree.eraseIfEmpty fuel tree id).2 := by
  induction fuel generalizing tree id with
  | zero =>
    intro other leaf here empty below
    cases leaves other leaf here empty below
    exact absurd (enough leaf here) (Nat.not_lt_zero _)
  | succ fuel ih =>
    unfold NameTree.eraseIfEmpty
    cases stored : tree.entries id with
    | none =>
      intro other leaf here empty below
      cases leaves other leaf here empty below
      rw [stored] at here
      cases here
    | some entry =>
      dsimp only
      split
      · rename_i vacant
        have after := unlink_leaves entry leaves
        have unlinked := consistent.unlink id entry stored (entry.isEmpty_iff.mp vacant).1
        cases upper : entry.parent with
        | none =>
          rw [upper] at after
          exact after.of_entries (shrink_entries _).1
        | some parent =>
          rw [upper] at after
          refine (ih unlinked parent after ?_).of_entries (shrink_entries _).1
          intro top here
          have nonempty : entry.name ≠ [] := by
            intro root
            have top : entry.parent = none := (consistent.names.root id entry.key (keys_of_entry stored)).mpr root
            rw [top] at upper
            cases upper
          obtain ⟨key,known,shorter⟩ := consistent.names.above id entry.key parent (keys_of_entry stored) upper
          have same : top.name = key.name := by
            have now := keys_of_entry here
            rw [unlink_keys] at now
            by_cases self : parent = id
            · rw [self,Function.update_self] at now
              cases now
            · rw [Function.update_of_ne self,known] at now
              cases now
              rfl
          have size := enough entry stored
          have positive := List.length_pos_iff.mpr nonempty
          rw [same,shorter]
          change entry.name.dropLast.length < fuel
          rw [List.length_dropLast]
          omega
      · rename_i occupied
        intro other leaf here empty below
        cases leaves other leaf here empty below
        rw [stored] at here
        cases here
        exact absurd empty occupied

theorem Consistent.eraseEntryIfEmpty_leaves (consistent : Consistent hashComponent tree) (id : Nat)
    (leaves : LeavesCarryBut (some id) tree) : LeavesCarryBut none (tree.eraseEntryIfEmpty id).2 := by
  unfold NameTree.eraseEntryIfEmpty
  cases stored : tree.entries id with
  | none =>
    intro other leaf here empty below
    cases leaves other leaf here empty below
    rw [stored] at here
    cases here
  | some entry =>
    refine consistent.eraseIfEmpty_leaves _ id leaves ?_
    intro same here
    rw [stored] at here
    cases here
    exact Nat.lt_succ_self _

private theorem eraseEntryIfEmpty_loaded (loaded : tree.Loaded) (id : Nat) : (tree.eraseEntryIfEmpty id).2.Loaded := by
  unfold eraseEntryIfEmpty
  cases tree.entries id with
  | none => exact loaded
  | some entry => exact eraseIfEmpty_loaded _ loaded id

/-! Attachments. -/

private theorem alter_loaded (loaded : tree.Loaded) (id : Nat) (change : Attached → Attached) : (tree.alter id change).Loaded :=
  ⟨loaded.enlarge,loaded.shrink,loaded.load⟩

/-- Only the altered node may become a bare leaf, and only if nothing is left on it. -/
theorem alter_leaves {id : Nat} {entry : Entry} (stored : tree.entries id = some entry)
    (leaves : LeavesCarryBut (some id) tree) (change : Attached → Attached) {except : Option Nat}
    (bare : change entry.attached = .none → except = some id) : LeavesCarryBut except (tree.alter id change) := by
  intro other leaf here empty below
  rw [alter_entries] at here
  split at here
  · rename_i same
    rw [stored] at here
    cases here
    rw [same]
    exact bare ((Entry.isEmpty_iff _).mp empty).2
  · rename_i apart
    exact absurd (Option.some.inj (leaves other leaf here empty below)).symm apart

end

end Ncfcc.Nfd.NameTree

namespace Ncfcc.Nfd.Table
open Ncfcc.Library NameTree

/-- The tables are settled, and every leaf carries something. -/
structure Tended (hashComponent : Component → UInt64) (view : View) : Prop where
  settled : Tables.Settled hashComponent view
  loaded : view.tree.Loaded
  leaves : LeavesCarryBut none view.tree

theorem Kind.attach_ne_none (kind : Kind) (number : Nat) (attached : Attached) : kind.attach number attached ≠ .none := by
  cases kind <;> simp [Kind.attach,Attached.none]

theorem Tended.moves {hashComponent : Component → UInt64} {view next : View} (tended : Tended hashComponent view)
    (move : Moves hashComponent (NameTree.ResizesSafely hashComponent) Stored view next) : Tended hashComponent next := by
  have consistent := tended.settled.consistent
  have linked := tended.settled.numbered.linked
  refine ⟨tended.settled.moves move,?_,?_⟩
  · cases move with
    | looked name safe peek => exact consistent.lookup_loaded tended.loaded name safe
    | entered kind name id interest safe node takes =>
      exact alter_loaded (consistent.lookup_loaded tended.loaded name safe) id _
    | attached kind id interest present takes => exact alter_loaded tended.loaded id _
    | detached kind number id held below safe => exact eraseEntryIfEmpty_loaded (alter_loaded tended.loaded id _) id
  · cases move with
    | looked name safe peek =>
      change LeavesCarryBut none (view.tree.lookup hashComponent name).1
      rw [consistent.lookup_stored tended.loaded peek safe]
      exact tended.leaves
    | entered kind name id interest safe node takes =>
      obtain ⟨-,other,entry,same,stored,-⟩ := lookup_grows hashComponent linked name
      rw [node] at same
      cases same
      have leaves := consistent.lookup_leaves tended.leaves name safe
      rw [node] at leaves
      exact alter_leaves stored leaves _ fun bare => absurd bare (kind.attach_ne_none _ _)
    | attached kind id interest present takes =>
      obtain ⟨entry,stored⟩ := Option.isSome_iff_exists.mp present
      exact alter_leaves stored (tended.leaves.weaken _) _ fun bare => absurd bare (kind.attach_ne_none _ _)
    | detached kind number id held below safe =>
      obtain ⟨entry,stored⟩ := Tables.entry_of_numbers held
      exact (consistent.alter id _).eraseEntryIfEmpty_leaves id (alter_leaves stored (tended.leaves.weaken _) _ fun _ => rfl)

namespace Tables

section
variable {hashComponent : Component → UInt64}

/-- An exact match of the measurements is for a name that the tree has. -/
def PeeksStored (tables : Tables) (operation : Operation) : Prop :=
  ∀ name, operation = .find (.measurementsExact name) → tables.tree.Stored name

def FindsUnchanged (hashComponent : Component → UInt64)
    (longestMatch : NameTree → Name → (NameTree.Entry → Bool) → Option Nat) (tables : Tables) (operation : Operation) :
    Prop :=
  ∀ query next, operation = .find query → tables.step hashComponent longestMatch operation = some next →
    next.tree = tables.tree

private theorem allows_stored {tables : Tables} {operation : Operation} (safe : tables.ResizesSafely hashComponent operation)
    (peeks : tables.PeeksStored operation) :
    tables.Allows hashComponent (NameTree.ResizesSafely hashComponent) Stored operation := by
  cases operation with
  | find query =>
    cases query with
    | measurementsExact name => exact ⟨safe.1,peeks name rfl⟩
    | _ => trivial
  | _ => exact safe

private theorem new_tended {nBuckets : Nat} (positive : 0 < nBuckets) (now : Int) (defaultStrategy : Strategy) :
    Tended hashComponent (new hashComponent nBuckets now defaultStrategy).view := by
  have move : Moves hashComponent (NameTree.ResizesSafely hashComponent) Stored _ _ :=
    new_moves nBuckets now defaultStrategy (lookup_root_safe nBuckets)
  refine Tended.moves ⟨⟨View.initial_numbered nBuckets,initial_consistent nBuckets positive⟩,⟨rfl,rfl,Nat.zero_le _⟩,?_⟩ move
  intro id entry stored
  cases stored

private theorem step_tended (longestMatch : NameTree → Name → (NameTree.Entry → Bool) → Option Nat) {tables next : Tables}
    {operation : Operation} (tended : Tended hashComponent tables.view)
    (safe : tables.ResizesSafely hashComponent operation) (peeks : tables.PeeksStored operation)
    (taken : tables.step hashComponent longestMatch operation = some next) : Tended hashComponent next.view := by
  refine step_invariant (fun _ holds => holds.settled.numbered) (fun _ _ holds move => holds.moves move)
    (fun tree id entry stored => ⟨id,entry,stored,rfl⟩) longestMatch ?_ tended (allows_stored safe peeks) taken
  rintro id ⟨name,rfl,found,free⟩
  have settled := tended.settled.lost free (safe id found)
  have consistent := tended.settled.consistent.alter id (Kind.fib.detach 0)
  obtain ⟨-,entry,stored,-⟩ := find_some tables.tree _ id _ found
  refine ⟨settled,eraseEntryIfEmpty_loaded (alter_loaded tended.loaded id _) id,?_⟩
  exact consistent.eraseEntryIfEmpty_leaves id (alter_leaves stored (tended.leaves.weaken _) _ fun _ => rfl)

/-- A find operation leaves the tree unchanged exactly if it is for a stored name, where that matters. -/
theorem findsUnchanged_iff (longestMatch : NameTree → Name → (NameTree.Entry → Bool) → Option Nat) {tables : Tables}
    {operation : Operation} (tended : Tended hashComponent tables.view)
    (safe : tables.ResizesSafely hashComponent operation) :
    tables.FindsUnchanged hashComponent longestMatch operation ↔ tables.PeeksStored operation := by
  constructor
  · rintro unchanged name rfl
    have same : (tables.tree.lookup hashComponent name).1 = tables.tree := unchanged _ _ rfl rfl
    obtain ⟨-,id,entry,-,stored,named⟩ := lookup_grows hashComponent tended.settled.numbered.linked name
    change (tables.tree.lookup hashComponent name).1.entries id = some entry at stored
    rw [same] at stored
    exact ⟨id,entry,stored,named⟩
  · rintro peeks query next rfl taken
    by_cases exact : ∃ name, query = .measurementsExact name
    · obtain ⟨name,rfl⟩ := exact
      cases taken
      exact tended.settled.consistent.lookup_stored tended.loaded (peeks name rfl) safe.1
    · rw [find_tables (not_exists.mp exact) taken]

end

section
variable (hashComponent : Component → UInt64)
  (longestMatch : NameTree → Name → (NameTree.Entry → Bool) → Option Nat)

end

end Tables

end Ncfcc.Nfd.Table
