import Ncfcc.Nfd.Rib.RibTree

/-! `Rib::insert` and `Rib::erase` with the assertions of `addChild` and `removeChild`:
a call ends with `none` when an assertion on its way fails. -/
namespace Ncfcc.Nfd.Rib

/-- `getParent` of the entry of a name, as it is when it is asked for. -/
def parentOf (rib : Rib) (name : Name) : Option Name := (rib.find name).bind RibEntry.parent

/-- The child has no parent yet. -/
def addChildAsserting (rib : Rib) (parent child : Name) : Option Rib :=
  if rib.parentOf child = none then some (rib.addChild parent child) else none

/-- The child is a child of this entry. -/
def removeChildAsserting (rib : Rib) (parent child : Name) : Option Rib :=
  if rib.parentOf child = some parent then some (rib.removeChild parent child) else none

def attachAsserting (rib : Rib) (parent : Option Name) (name : Name) : Option Rib :=
  match parent with
  | some above => rib.addChildAsserting above name
  | none => some rib

def detachAsserting (rib : Rib) (parent : Option Name) (name : Name) : Option Rib :=
  match parent with
  | some above => rib.removeChildAsserting above name
  | none => some rib

def adoptAsserting (parent : Option Name) (name : Name) (rib : Rib) (child : Name) : Option Rib :=
  if rib.parentOf child = parent then
    (rib.detachAsserting parent child).bind fun rib => rib.addChildAsserting name child
  else some rib

def insertNameAsserting (rib : Rib) (name : Name) (route : Route) : Option Rib :=
  let rib := rib.insertEntry ⟨name,[route],[],if route.capture then 1 else 0,none,[]⟩
  let parent := rib.findParent name
  (rib.attachAsserting parent name).bind fun rib =>
    (((rib.findDescendants name).map RibEntry.name).foldlM (adoptAsserting parent name) rib).map fun rib =>
      rib.addFace route.faceId name

def insertAsserting (rib : Rib) (name : Name) (route : Route) : Option Rib :=
  match rib.find name with
  | none => rib.insertNameAsserting name route
  | some _ => some (rib.insert name route)

/-- The loop over the list of children that it empties. The iterator stands on the rest of the
list when the child is taken out, so the rest must not hold the child again. -/
def releaseAsserting (parent : Option Name) (name : Name) : List Name → Rib → Option Rib
  | [], rib => some rib
  | child :: rest, rib =>
    if child ∈ rest then none
    else
      (rib.removeChildAsserting name child).bind fun rib =>
        (rib.attachAsserting parent child).bind (releaseAsserting parent name rest)

def eraseEntryAsserting (rib : Rib) (entry : RibEntry) : Option Rib :=
  (rib.detachAsserting entry.parent entry.name).bind fun rib =>
    (releaseAsserting entry.parent entry.name entry.children rib).map fun rib =>
      {rib with entries := rib.entries.filter fun other => other.name ≠ entry.name}

def eraseAsserting (rib : Rib) (name : Name) (route : Route) : Option Rib :=
  match rib.find name with
  | none => some rib
  | some entry =>
    match entry.findRoute route with
    | none => some rib
    | some _ =>
      let erased := entry.eraseRoute route
      let rib := rib.modify name fun entry => entry.eraseRoute route
      let rib := if erased.hasFaceId route.faceId then rib else rib.removeFace route.faceId name
      if erased.routes.isEmpty then rib.eraseEntryAsserting erased else some rib

inductive Call
  | insert (name : Name) (route : Route)
  | erase (name : Name) (route : Route)

def call (rib : Rib) : Call → Option Rib
  | .insert name route => rib.insertAsserting name route
  | .erase name route => rib.eraseAsserting name route

/-! Which parents the two operations change. -/

private theorem parentOf_addChild (rib : Rib) (parent child name : Name) (different : name ≠ child) :
    (rib.addChild parent child).parentOf name = rib.parentOf name := by
  unfold parentOf
  rw [find_addChild]
  cases rib.find name with
  | none => rfl
  | some entry =>
    simp only [Option.map_some,Option.bind_some,RibEntry.place]
    rw [if_neg different]

private theorem parentOf_removeChild (rib : Rib) (parent child name : Name) :
    (rib.removeChild parent child).parentOf name = if name = child then none else rib.parentOf name := by
  unfold parentOf
  rw [find_removeChild]
  cases rib.find name with
  | none => simp
  | some entry => simp only [Option.map_some,Option.bind_some,RibEntry.place]

private theorem adoptAsserting_eq {rib : Rib} {parent : Option Name} {name : Name} {child : RibEntry}
    (live : rib.parentOf child.name = child.parent) :
    adoptAsserting parent name rib child.name = some (adopt parent name rib child) := by
  unfold adoptAsserting adopt
  rw [live]
  split
  · rename_i same
    rw [same] at live
    cases parent with
    | none =>
      unfold detachAsserting addChildAsserting
      rw [Option.bind_some,if_pos live]
    | some above =>
      unfold detachAsserting removeChildAsserting addChildAsserting
      dsimp only
      rw [if_pos live,Option.bind_some,parentOf_removeChild,if_pos rfl,if_pos rfl]
  · rfl

private theorem parentOf_adopt (parent : Option Name) (name : Name) (rib : Rib) (child : RibEntry) {other : Name}
    (different : other ≠ child.name) : (adopt parent name rib child).parentOf other = rib.parentOf other := by
  unfold adopt
  split
  · cases parent with
    | none => exact parentOf_addChild rib name child.name other different
    | some above =>
      dsimp only
      rw [parentOf_addChild _ _ _ _ different,parentOf_removeChild,if_neg different]
  · rfl

private theorem foldlM_adoptAsserting (parent : Option Name) (name : Name) (children : List RibEntry)
    (distinct : (children.map RibEntry.name).Nodup) (rib : Rib)
    (live : ∀ child ∈ children, rib.parentOf child.name = child.parent) :
    (children.map RibEntry.name).foldlM (adoptAsserting parent name) rib =
      some (children.foldl (adopt parent name) rib) := by
  induction children generalizing rib with
  | nil => rfl
  | cons child children ih =>
    rw [List.map_cons,List.nodup_cons] at distinct
    rw [List.map_cons,List.foldlM_cons,adoptAsserting_eq (live child List.mem_cons_self),List.foldl_cons]
    apply ih distinct.2
    intro other inside
    have different : other.name ≠ child.name := by
      intro same
      exact distinct.1 (same ▸ List.mem_map_of_mem inside)
    rw [parentOf_adopt parent name rib child different]
    exact live other (List.mem_cons_of_mem child inside)

private theorem releaseAsserting_eq (parent : Option Name) (name : Name) (children : List Name) (distinct : children.Nodup)
    (rib : Rib) (live : ∀ child ∈ children, rib.parentOf child = some name) :
    releaseAsserting parent name children rib = some (children.foldl (release parent name) rib) := by
  induction children generalizing rib with
  | nil => rfl
  | cons child rest ih =>
    rw [List.nodup_cons] at distinct
    have removed : rib.removeChildAsserting name child = some (rib.removeChild name child) :=
      if_pos (live child List.mem_cons_self)
    have attached : (rib.removeChild name child).attachAsserting parent child =
        some (release parent name rib child) := by
      cases parent with
      | none => rfl
      | some above =>
        apply if_pos
        rw [parentOf_removeChild,if_pos rfl]
    unfold releaseAsserting
    rw [if_neg distinct.1,removed,Option.bind_some,attached,Option.bind_some,List.foldl_cons]
    apply ih distinct.2
    intro other inside
    have different : other ≠ child := by
      intro same
      exact distinct.1 (same ▸ inside)
    have kept : (release parent name rib child).parentOf other = (rib.removeChild name child).parentOf other := by
      cases parent with
      | none => rfl
      | some above => exact parentOf_addChild _ above child other different
    rw [kept,parentOf_removeChild,if_neg different]
    exact live other (List.mem_cons_of_mem child inside)

/-! No assertion fails in a tree. -/

theorem Tree.parentOf_eq {rib : Rib} (tree : Tree rib) {name : Name} {entry : RibEntry}
    (found : rib.find name = some entry) : rib.parentOf name = rib.findParent name := by
  unfold parentOf
  rw [found,Option.bind_some]
  exact tree.parent name entry found

private theorem foldlM_findDescendants {rib : Rib} (parent : Option Name) (name : Name)
    (ordered : (rib.entries.map RibEntry.name).Pairwise fun first second => Name.key first < Name.key second) :
    ((rib.findDescendants name).map RibEntry.name).foldlM (adoptAsserting parent name) rib =
      some ((rib.findDescendants name).foldl (adopt parent name) rib) := by
  apply foldlM_adoptAsserting
  · exact (nodup_of_ordered ordered).sublist ((descendants_sublist rib name).map RibEntry.name)
  · intro child descends
    unfold parentOf
    rw [(mem_entries_iff ordered).mp ((descendants_sublist rib name).subset descends)]
    rfl

private theorem insertNameAsserting_eq {rib : Rib} (tree : Tree rib) {name : Name} (absent : rib.find name = none)
    (route : Route) : rib.insertNameAsserting name route = some (rib.insertName name route) := by
  unfold insertNameAsserting insertName
  have looked := rib.find_insertEntry ⟨name,[route],[],if route.capture then 1 else 0,none,[]⟩ absent name
  have ordered := ordered_insertEntry tree ⟨name,[route],[],if route.capture then 1 else 0,none,[]⟩ absent
  generalize rib.insertEntry ⟨name,[route],[],if route.capture then 1 else 0,none,[]⟩ = grown at looked ordered
  have fresh : grown.parentOf name = none := by
    unfold parentOf
    rw [looked,if_pos rfl]
    rfl
  dsimp only
  cases grown.findParent name with
  | none =>
    unfold attachAsserting
    dsimp only
    rw [Option.bind_some,foldlM_findDescendants none name ordered]
    rfl
  | some above =>
    unfold attachAsserting addChildAsserting
    dsimp only
    rw [if_pos fresh,Option.bind_some,foldlM_findDescendants (some above) name]
    · rfl
    · rw [names_addChild]
      exact ordered

private theorem eraseEntryAsserting_eq {rib : Rib} (tree : Tree rib) {name : Name} {entry : RibEntry}
    (found : rib.find name = some entry) : rib.eraseEntryAsserting entry = some (rib.eraseEntry entry) := by
  have named := find_name found
  have own := tree.parentOf_eq found
  rw [← tree.parent name entry found] at own
  have live : ∀ child ∈ entry.children, child ≠ name ∧ rib.parentOf child = some name := by
    intro child inside
    obtain ⟨present,parent⟩ := (tree.children name entry child found).mp inside
    obtain ⟨below,stored⟩ := Option.isSome_iff_exists.mp present
    refine ⟨?_,(tree.parentOf_eq stored).trans parent⟩
    intro same
    rw [same] at parent
    exact Nat.lt_irrefl _ (findParent_eq_some.mp parent).shorter
  unfold eraseEntryAsserting eraseEntry
  rw [named]
  cases parent : entry.parent with
  | none =>
    unfold detachAsserting
    dsimp only
    rw [Option.bind_some,releaseAsserting_eq none name entry.children (tree.distinct name entry found) rib
      fun child inside => (live child inside).2]
    rfl
  | some above =>
    unfold detachAsserting removeChildAsserting
    dsimp only
    rw [if_pos (own.trans parent),Option.bind_some,releaseAsserting_eq (some above) name entry.children
      (tree.distinct name entry found)]
    · rfl
    · intro child inside
      rw [parentOf_removeChild,if_neg (live child inside).1]
      exact (live child inside).2

theorem insertAsserting_eq {rib : Rib} (tree : Tree rib) (name : Name) (route : Route) :
    rib.insertAsserting name route = some (rib.insert name route) := by
  unfold insertAsserting
  cases found : rib.find name with
  | none =>
    dsimp only
    rw [insertNameAsserting_eq tree found]
    unfold insert
    rw [found]
  | some entry => rfl

theorem eraseAsserting_eq {rib : Rib} (tree : Tree rib) (name : Name) (route : Route) :
    rib.eraseAsserting name route = some (rib.erase name route) := by
  unfold eraseAsserting erase
  cases found : rib.find name with
  | none => rfl
  | some entry =>
    dsimp only
    cases entry.findRoute route with
    | none => rfl
    | some existing =>
      have changed := modify_tree tree name (fun entry => entry.eraseRoute route)
        fun entry => eraseRoute_place entry route
      have held := find_eraseRoute found route
      dsimp only
      split_ifs
      · exact eraseEntryAsserting_eq changed held
      · exact eraseEntryAsserting_eq (tree_of_find changed rfl : Tree (Rib.removeFace _ _ _)) held
      · rfl
      · rfl

/-- A call on a tree passes its assertions and leaves a tree. -/
theorem call_tree {rib : Rib} (tree : Tree rib) (made : Call) : ∃ changed, rib.call made = some changed ∧ Tree changed := by
  cases made with
  | insert name route => exact ⟨_,insertAsserting_eq tree name route,insert_tree tree name route⟩
  | erase name route => exact ⟨_,eraseAsserting_eq tree name route,erase_tree tree name route⟩

private theorem calls_tree {rib : Rib} (tree : Tree rib) (calls : List Call) :
    ∃ reached, calls.foldlM call rib = some reached ∧ Tree reached := by
  induction calls generalizing rib with
  | nil => exact ⟨rib,rfl,tree⟩
  | cons made calls ih =>
    obtain ⟨changed,passes,kept⟩ := call_tree tree made
    obtain ⟨reached,rest,final⟩ := ih kept
    refine ⟨reached,?_,final⟩
    rw [List.foldlM_cons,passes]
    exact rest

end Ncfcc.Nfd.Rib
