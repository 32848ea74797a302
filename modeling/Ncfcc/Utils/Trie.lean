import Mathlib.Data.List.Nodup
import Mathlib.Data.List.Perm.Basic

/-! Tries over arbitrary keys and payloads. A node is its key, its payload and its
children; the children stand in the order in which their unordered container is
iterated, which a layout fixes in an arbitrary way whenever a child is added. -/
namespace Ncfcc.Utils

inductive Trie (κ α : Type) where
  | node (key : κ) (payload : Option α) (children : List (Trie κ α))

namespace Trie

/-- The iteration order of the children after an insertion. -/
structure Layout (κ α : Type) where
  arrange : List (Trie κ α) → List (Trie κ α)
  perm : ∀ children, (arrange children).Perm children

variable {κ α : Type}

def key : Trie κ α → κ
  | node key _ _ => key

def payload : Trie κ α → Option α
  | node _ payload _ => payload

def children : Trie κ α → List (Trie κ α)
  | node _ _ children => children

/-- A node that `prune` would remove. -/
def dead (trie : Trie κ α) : Bool := trie.payload.isNone && trie.children.isEmpty

def first : Trie κ α → Option (List κ × α)
  | node _ (some payload) _ => some ([],payload)
  | node _ none children => firstOf children
where
  firstOf : List (Trie κ α) → Option (List κ × α)
    | [] => none
    | child :: rest =>
      match first child with
      | some (path,payload) => some (child.key :: path,payload)
      | none => firstOf rest

section
variable [DecidableEq κ]

def childOf (children : List (Trie κ α)) (key : κ) : Option (Trie κ α) :=
  children.find? (fun child => child.key = key)

def setChild (children : List (Trie κ α)) (key : κ) (changed : Trie κ α) : List (Trie κ α) :=
  children.map (fun child => if child.key = key then changed else child)

def removeChild (children : List (Trie κ α)) (key : κ) : List (Trie κ α) :=
  children.filter (fun child => child.key ≠ key)

/-- `insert`: the payload of an occupied node is kept, and the insertion reported as failed. -/
def insert (layout : Layout κ α) : Trie κ α → List κ → α → Bool × Trie κ α
  | node key none children, [], new => (true,node key (some new) children)
  | node key (some old) children, [], _ => (false,node key (some old) children)
  | node key payload children, subkey :: rest, new =>
    match childOf children subkey with
    | none =>
      let (inserted,child) := insert layout (node subkey none []) rest new
      (inserted,node key payload (layout.arrange (child :: children)))
    | some child =>
      let (inserted,child) := insert layout child rest new
      (inserted,node key payload (setChild children subkey child))

/-- `erase` of the node at the end of the path, and the pruning up from it. -/
def erase : Trie κ α → List κ → Trie κ α
  | node key _ children, [] => node key none children
  | node key payload children, subkey :: rest =>
    match childOf children subkey with
    | none => node key payload children
    | some child =>
      let child := erase child rest
      node key payload (if child.dead then removeChild children subkey else setChild children subkey child)

/-- What `find` returns: the last payload on the path, whether the whole key was
walked, and the node reached; the nodes with their paths. -/
structure Found (κ α : Type) where
  found : Option (List κ × α)
  reachLast : Bool
  path : List κ
  last : Trie κ α

def findFrom (path : List κ) (found : Option (List κ × α)) : Trie κ α → List κ → Found κ α
  | trie, [] => ⟨found,true,path,trie⟩
  | trie, subkey :: rest =>
    match childOf trie.children subkey with
    | none => ⟨found,false,path,trie⟩
    | some child =>
      let path := path ++ [subkey]
      let found := match child.payload with
        | some payload => some (path,payload)
        | none => found
      findFrom path found child rest

def find (trie : Trie κ α) (key : List κ) : Found κ α :=
  findFrom [] (trie.payload.map fun payload => ([],payload)) trie key

/-- `find_if` with a key: the payloads below the node it starts from are tested. -/
def findIfFrom (pred : α → Bool) (path : List κ) (found : Option (List κ × α)) : Trie κ α → List κ → Found κ α
  | trie, [] => ⟨found,true,path,trie⟩
  | trie, subkey :: rest =>
    match childOf trie.children subkey with
    | none => ⟨found,false,path,trie⟩
    | some child =>
      let path := path ++ [subkey]
      let found := match child.payload with
        | some payload => if pred payload then some (path,payload) else found
        | none => found
      findIfFrom pred path found child rest

def findIf (trie : Trie κ α) (key : List κ) (pred : α → Bool) : Found κ α :=
  findIfFrom pred [] (trie.payload.map fun payload => ([],payload)) trie key

/-- Of the children whose key passes the test, only the first is searched. -/
def findIfNextLevel (trie : Trie κ α) (test : κ → Bool) : Option (List κ × α) :=
  match trie.children.find? (fun child => test child.key) with
  | none => none
  | some child => child.first.map fun (path,payload) => (child.key :: path,payload)

def descend : Trie κ α → List κ → Option (Trie κ α)
  | trie, [] => some trie
  | trie, subkey :: rest => (childOf trie.children subkey).bind fun child => descend child rest

/-- The map from keys to payloads that the trie stands for. -/
def get (trie : Trie κ α) (key : List κ) : Option α := (trie.descend key).bind payload

end

/-- Sibling keys are distinct and no node but the root is without payload and children. -/
inductive WellFormed : Trie κ α → Prop
  | node (key : κ) (payload : Option α) (children : List (Trie κ α)) (distinct : (children.map Trie.key).Nodup)
      (live : ∀ child ∈ children, child.dead = false) (below : ∀ child ∈ children, WellFormed child) :
      WellFormed (node key payload children)

inductive Distinct : Trie κ α → Prop
  | node (key : κ) (payload : Option α) (children : List (Trie κ α)) (distinct : (children.map Trie.key).Nodup)
      (below : ∀ child ∈ children, Distinct child) : Distinct (node key payload children)

theorem WellFormed.distinct {trie : Trie κ α} (wellFormed : trie.WellFormed) : trie.Distinct := by
  induction wellFormed with
  | node key payload children distinct _ _ ih => exact .node key payload children distinct ih

/-! Children by key. -/

section
variable [DecidableEq κ] {children : List (Trie κ α)} {subkey : κ} {child : Trie κ α}

theorem childOf_some (found : childOf children subkey = some child) : child ∈ children ∧ child.key = subkey := by
  have named := List.find?_some found
  exact ⟨List.mem_of_find?_eq_some found,of_decide_eq_true named⟩

private theorem childOf_none : childOf children subkey = none ↔ ∀ child ∈ children, child.key ≠ subkey := by
  simp [childOf]

theorem childOf_iff (distinct : (children.map key).Nodup) :
    childOf children subkey = some child ↔ child ∈ children ∧ child.key = subkey := by
  refine ⟨childOf_some,?_⟩
  rintro ⟨member,named⟩
  cases found : childOf children subkey with
  | none => exact absurd named (childOf_none.mp found child member)
  | some other =>
    obtain ⟨present,same⟩ := childOf_some found
    rw [List.inj_on_of_nodup_map distinct present member (same.trans named.symm)]

theorem setChild_keys (changed : Trie κ α) (kept : changed.key = subkey) :
    (setChild children subkey changed).map key = children.map key := by
  rw [setChild,List.map_map]
  apply List.map_congr_left
  intro child _
  dsimp only [Function.comp]
  split
  · rename_i same
    exact kept.trans same.symm
  · rfl

private theorem childOf_setChild (distinct : (children.map key).Nodup) (changed : Trie κ α)
    (kept : changed.key = subkey) (present : childOf children subkey = some child) (other : κ) :
    childOf (setChild children subkey changed) other =
      if other = subkey then some changed else childOf children other := by
  obtain ⟨member,named⟩ := childOf_some present
  have unique : ((setChild children subkey changed).map key).Nodup := by
    rw [setChild_keys changed kept]
    exact distinct
  by_cases same : other = subkey
  · rw [if_pos same]
    refine (childOf_iff unique).mpr ⟨?_,kept.trans same.symm⟩
    exact List.mem_map.mpr ⟨child,member,if_pos named⟩
  · rw [if_neg same]
    ext sibling
    rw [childOf_iff unique,childOf_iff distinct]
    constructor
    · rintro ⟨inside,rfl⟩
      obtain ⟨old,before,rfl⟩ := List.mem_map.mp inside
      by_cases here : old.key = subkey
      · rw [if_pos here] at same
        exact absurd kept same
      · rw [if_neg here]
        exact ⟨before,rfl⟩
    · rintro ⟨inside,rfl⟩
      exact ⟨List.mem_map.mpr ⟨sibling,inside,if_neg same⟩,rfl⟩

theorem removeChild_keys (distinct : (children.map key).Nodup) :
    ((removeChild children subkey).map key).Nodup := distinct.sublist (List.filter_sublist.map key)

private theorem childOf_removeChild (distinct : (children.map key).Nodup) (other : κ) :
    childOf (removeChild children subkey) other = if other = subkey then none else childOf children other := by
  by_cases same : other = subkey
  · rw [if_pos same]
    apply childOf_none.mpr
    intro child inside
    rw [same]
    simpa using (List.mem_filter.mp inside).2
  · rw [if_neg same]
    ext sibling
    rw [childOf_iff (removeChild_keys distinct),childOf_iff distinct,
      removeChild,List.mem_filter]
    constructor
    · rintro ⟨⟨inside,-⟩,named⟩
      exact ⟨inside,named⟩
    · rintro ⟨inside,rfl⟩
      exact ⟨⟨inside,by simpa using same⟩,rfl⟩

private theorem arrange_keys (layout : Layout κ α) (distinct : (children.map key).Nodup)
    (absent : childOf children child.key = none) :
    ((layout.arrange (child :: children)).map key).Nodup := by
  rw [((layout.perm (child :: children)).map key).nodup_iff,List.map_cons,List.nodup_cons]
  refine ⟨?_,distinct⟩
  intro member
  obtain ⟨other,inside,same⟩ := List.mem_map.mp member
  exact childOf_none.mp absent other inside same

private theorem childOf_arrange (layout : Layout κ α) (distinct : (children.map key).Nodup)
    (absent : childOf children child.key = none) (other : κ) :
    childOf (layout.arrange (child :: children)) other =
      if other = child.key then some child else childOf children other := by
  have unique := arrange_keys layout distinct absent
  by_cases same : other = child.key
  · rw [if_pos same]
    refine (childOf_iff unique).mpr ⟨?_,same.symm⟩
    exact (layout.perm _).mem_iff.mpr List.mem_cons_self
  · rw [if_neg same]
    ext sibling
    rw [childOf_iff unique,childOf_iff distinct,(layout.perm _).mem_iff,
      List.mem_cons]
    constructor
    · rintro ⟨rfl | inside,rfl⟩
      · exact absurd rfl same
      · exact ⟨inside,rfl⟩
    · rintro ⟨inside,named⟩
      exact ⟨Or.inr inside,named⟩

end

/-! The trie as a map. -/

section
variable [DecidableEq κ]

theorem get_cons (own : κ) (payload : Option α) (children : List (Trie κ α)) (subkey : κ) (rest : List κ) :
    (node own payload children).get (subkey :: rest) =
      (childOf children subkey).bind fun child => child.get rest := by
  rw [get,descend,Option.bind_assoc]
  rfl

private theorem get_of_child (own : κ) (payload : Option α) {children : List (Trie κ α)} {child : Trie κ α} {subkey : κ}
    (found : childOf children subkey = some child) (rest : List κ) :
    (node own payload children).get (subkey :: rest) = child.get rest := by
  rw [get_cons,found]
  rfl

private theorem get_of_no_child (own : κ) (payload : Option α) {children : List (Trie κ α)} {subkey : κ}
    (missing : childOf children subkey = none) (rest : List κ) :
    (node own payload children).get (subkey :: rest) = none := by
  rw [get_cons,missing]
  rfl

theorem get_dead (trie : Trie κ α) (dead : trie.dead = true) (key : List κ) : trie.get key = none := by
  obtain ⟨own,payload,children⟩ := trie
  simp only [Trie.dead,Bool.and_eq_true,Option.isNone_iff_eq_none,List.isEmpty_iff] at dead
  cases key with
  | nil => exact dead.1
  | cons subkey rest =>
    apply get_of_no_child
    rw [show children = [] from dead.2]
    rfl

theorem insert_new (layout : Layout κ α) (own : κ) (payload : Option α) {children : List (Trie κ α)} {subkey : κ}
    (rest : List κ) (new : α) (missing : childOf children subkey = none) :
    insert layout (node own payload children) (subkey :: rest) new =
      ((insert layout (node subkey none []) rest new).1,
        node own payload (layout.arrange ((insert layout (node subkey none []) rest new).2 :: children))) := by
  cases payload <;> simp only [insert,missing]

theorem insert_old (layout : Layout κ α) (own : κ) (payload : Option α) {children : List (Trie κ α)} {subkey : κ}
    {child : Trie κ α} (rest : List κ) (new : α) (found : childOf children subkey = some child) :
    insert layout (node own payload children) (subkey :: rest) new =
      ((insert layout child rest new).1,
        node own payload (setChild children subkey (insert layout child rest new).2)) := by
  cases payload <;> simp only [insert,found]

private theorem insert_key (layout : Layout κ α) (trie : Trie κ α) (key : List κ) (new : α) :
    (trie.insert layout key new).2.key = trie.key := by
  obtain ⟨own,payload,children⟩ := trie
  cases key with
  | nil => cases payload <;> rfl
  | cons subkey rest =>
    cases found : childOf children subkey with
    | none =>
      rw [insert_new layout own payload rest new found]
      rfl
    | some child =>
      rw [insert_old layout own payload rest new found]
      rfl

private theorem insert_live (layout : Layout κ α) (trie : Trie κ α) (key : List κ) (new : α) :
    (trie.insert layout key new).2.dead = false := by
  obtain ⟨own,payload,children⟩ := trie
  cases key with
  | nil => cases payload <;> rfl
  | cons subkey rest =>
    cases found : childOf children subkey with
    | none =>
      rw [insert_new layout own payload rest new found]
      have size := (layout.perm ((insert layout (node subkey none []) rest new).2 :: children)).length_eq
      simp only [dead,Trie.children,Bool.and_eq_false_iff,List.isEmpty_eq_false_iff]
      right
      intro empty
      rw [empty] at size
      simp at size
    | some child =>
      rw [insert_old layout own payload rest new found]
      have member := (childOf_some found).1
      simp only [dead,Trie.children,Bool.and_eq_false_iff,List.isEmpty_eq_false_iff]
      right
      intro empty
      rw [setChild,List.map_eq_nil_iff] at empty
      rw [empty] at member
      cases member

theorem insert_wellFormed (layout : Layout κ α) (trie : Trie κ α) (wellFormed : trie.WellFormed) (key : List κ)
    (new : α) : (trie.insert layout key new).2.WellFormed := by
  induction key generalizing trie with
  | nil =>
    obtain ⟨own,payload,children,distinct,live,below⟩ := wellFormed
    cases payload with
    | none => exact .node own (some new) children distinct live below
    | some old => exact .node own (some old) children distinct live below
  | cons subkey rest ih =>
    obtain ⟨own,payload,children,distinct,live,below⟩ := wellFormed
    cases found : childOf children subkey with
    | none =>
      rw [insert_new layout own payload rest new found]
      have named := insert_key layout (node subkey none []) rest new
      have fresh := ih (node subkey none []) (.node _ _ [] (by simp) (by simp) (by simp))
      have absent : childOf children (insert layout (node subkey none []) rest new).2.key = none := by
        rw [named]
        exact found
      refine .node own payload _ (arrange_keys layout distinct absent) ?_ ?_
      · intro child member
        rcases List.mem_cons.mp ((layout.perm _).mem_iff.mp member) with rfl | old
        · exact insert_live layout _ rest new
        · exact live child old
      · intro child member
        rcases List.mem_cons.mp ((layout.perm _).mem_iff.mp member) with rfl | old
        · exact fresh
        · exact below child old
    | some child =>
      rw [insert_old layout own payload rest new found]
      obtain ⟨member,named⟩ := childOf_some found
      have kept := (insert_key layout child rest new).trans named
      refine .node own payload _ (by rw [setChild_keys _ kept]; exact distinct) ?_ ?_
      · intro other inside
        obtain ⟨old,before,rfl⟩ := List.mem_map.mp inside
        split
        · exact insert_live layout child rest new
        · exact live old before
      · intro other inside
        obtain ⟨old,before,rfl⟩ := List.mem_map.mp inside
        split
        · exact ih child (below child member)
        · exact below old before

theorem get_insert (layout : Layout κ α) (trie : Trie κ α) (wellFormed : trie.WellFormed) (key other : List κ)
    (new : α) :
    (trie.insert layout key new).1 = (trie.get key).isNone ∧
      (trie.insert layout key new).2.get other =
        if other = key then some ((trie.get key).getD new) else trie.get other := by
  induction key generalizing trie other with
  | nil =>
    obtain ⟨own,payload,children⟩ := trie
    cases payload with
    | none =>
      refine ⟨rfl,?_⟩
      cases other with
      | nil => rfl
      | cons subkey rest => rfl
    | some old =>
      refine ⟨rfl,?_⟩
      cases other with
      | nil => rfl
      | cons subkey rest => rfl
  | cons subkey rest ih =>
    obtain ⟨own,payload,children,distinct,live,below⟩ := wellFormed
    cases found : childOf children subkey with
    | none =>
      have named : (insert layout (node subkey none []) rest new).2.key = subkey := insert_key layout _ rest new
      obtain ⟨inserted,-⟩ := ih (node subkey none []) (.node _ _ [] (by simp) (by simp) (by simp)) rest
      have empty : ∀ key, (node subkey none [] : Trie κ α).get key = none := get_dead _ rfl
      have before : (node own payload children).get (subkey :: rest) = none :=
        get_of_no_child own payload found rest
      have absent : childOf children (insert layout (node subkey none []) rest new).2.key = none := by
        rw [named]
        exact found
      rw [insert_new layout own payload rest new found,before]
      refine ⟨?_,?_⟩
      · rw [inserted,empty]
      · cases other with
        | nil => rfl
        | cons head tail =>
          rw [get_cons,childOf_arrange layout distinct absent,named]
          by_cases here : head = subkey
          · rw [if_pos here,here,Option.bind_some,
              (ih (node subkey none []) (.node _ _ [] (by simp) (by simp) (by simp)) tail).2,empty,empty]
            by_cases same : tail = rest
            · simp [same]
            · rw [if_neg same,if_neg (by simpa using same)]
              exact (get_of_no_child own payload found tail).symm
          · rw [if_neg here,if_neg (by simp [here]),get_cons]
    | some child =>
      obtain ⟨member,named⟩ := childOf_some found
      have kept := (insert_key layout child rest new).trans named
      have before : ∀ key, (node own payload children).get (subkey :: key) = child.get key :=
        get_of_child own payload found
      rw [insert_old layout own payload rest new found,before]
      refine ⟨(ih child (below child member) rest).1,?_⟩
      cases other with
      | nil => rfl
      | cons head tail =>
        rw [get_cons,childOf_setChild distinct _ kept found]
        by_cases here : head = subkey
        · rw [if_pos here,here,Option.bind_some,(ih child (below child member) tail).2,before]
          by_cases same : tail = rest
          · simp [same]
          · rw [if_neg same,if_neg (by simpa using same)]
        · rw [if_neg here,if_neg (by simp [here]),get_cons]

private theorem setChild_self {children : List (Trie κ α)} {subkey : κ} {child : Trie κ α}
    (distinct : (children.map key).Nodup) (found : childOf children subkey = some child) :
    setChild children subkey child = children := by
  obtain ⟨member,named⟩ := childOf_some found
  rw [setChild]
  nth_rewrite 2 [← List.map_id children]
  apply List.map_congr_left
  intro sibling inside
  dsimp only [id]
  split
  · rename_i same
    exact List.inj_on_of_nodup_map distinct member inside (named.trans same.symm)
  · rfl

theorem insert_occupied (layout : Layout κ α) (trie : Trie κ α) (wellFormed : trie.WellFormed) (key : List κ)
    (old new : α) (occupied : trie.get key = some old) : trie.insert layout key new = (false,trie) := by
  induction key generalizing trie with
  | nil =>
    obtain ⟨own,payload,children⟩ := trie
    have here : payload = some old := occupied
    rw [here]
    rfl
  | cons subkey rest ih =>
    obtain ⟨own,payload,children,distinct,live,below⟩ := wellFormed
    cases found : childOf children subkey with
    | none =>
      rw [get_of_no_child own payload found] at occupied
      cases occupied
    | some child =>
      rw [get_of_child own payload found] at occupied
      rw [insert_old layout own payload rest new found,
        ih child (below child (childOf_some found).1) occupied,setChild_self distinct found]

theorem erase_key (trie : Trie κ α) (key : List κ) : (trie.erase key).key = trie.key := by
  obtain ⟨own,payload,children⟩ := trie
  cases key with
  | nil => rfl
  | cons subkey rest =>
    unfold erase
    split <;> rfl

theorem erase_wellFormed (trie : Trie κ α) (wellFormed : trie.WellFormed) (key : List κ) :
    (trie.erase key).WellFormed := by
  induction key generalizing trie with
  | nil =>
    obtain ⟨own,payload,children,distinct,live,below⟩ := wellFormed
    exact .node own none children distinct live below
  | cons subkey rest ih =>
    obtain ⟨own,payload,children,distinct,live,below⟩ := wellFormed
    unfold erase
    cases found : childOf children subkey with
    | none => exact .node own payload children distinct live below
    | some child =>
      obtain ⟨member,named⟩ := childOf_some found
      have kept := (erase_key child rest).trans named
      dsimp only
      by_cases dead : (child.erase rest).dead = true
      · rw [if_pos dead]
        refine .node own payload _ (removeChild_keys distinct) ?_ ?_
        · intro other inside
          exact live other (List.mem_filter.mp inside).1
        · intro other inside
          exact below other (List.mem_filter.mp inside).1
      · rw [if_neg dead]
        refine .node own payload _ (by rw [setChild_keys _ kept]; exact distinct) ?_ ?_
        · intro other inside
          obtain ⟨old,before,rfl⟩ := List.mem_map.mp inside
          split
          · exact Bool.eq_false_iff.mpr dead
          · exact live old before
        · intro other inside
          obtain ⟨old,before,rfl⟩ := List.mem_map.mp inside
          split
          · exact ih child (below child member)
          · exact below old before

/-- Pruning removes nodes and no payload but the one erased. -/
theorem get_erase (trie : Trie κ α) (distinct : trie.Distinct) (key other : List κ) :
    (trie.erase key).get other = if other = key then none else trie.get other := by
  induction key generalizing trie other with
  | nil =>
    obtain ⟨own,payload,children⟩ := trie
    cases other with
    | nil => rfl
    | cons subkey rest => rfl
  | cons subkey rest ih =>
    obtain ⟨own,payload,children,distinct,below⟩ := distinct
    unfold erase
    cases found : childOf children subkey with
    | none =>
      dsimp only
      split
      · rename_i same
        rw [same]
        exact get_of_no_child own payload found rest
      · rfl
    | some child =>
      obtain ⟨member,named⟩ := childOf_some found
      have kept := (erase_key child rest).trans named
      have erased := ih child (below child member)
      cases other with
      | nil => rfl
      | cons head tail =>
        dsimp only
        rw [get_cons,get_cons own payload children]
        have looked : childOf (if (child.erase rest).dead then removeChild children subkey
            else setChild children subkey (child.erase rest)) head =
              if head = subkey then (if (child.erase rest).dead then none else some (child.erase rest))
              else childOf children head := by
          split
          · rw [childOf_removeChild distinct]
          · rw [childOf_setChild distinct _ kept found]
        rw [looked]
        by_cases here : head = subkey
        · rw [if_pos here,here,found,Option.bind_some]
          have rest_eq : (subkey :: tail = subkey :: rest) ↔ tail = rest := by simp
          simp only [rest_eq]
          rw [← erased tail]
          split
          · rename_i dead
            exact (get_dead _ dead tail).symm
          · rfl
        · rw [if_neg here,if_neg (by simp [here])]

theorem get_erase_update (trie : Trie κ α) (wellFormed : trie.WellFormed) (key : List κ) :
    (trie.erase key).get = Function.update trie.get key none := by
  funext other
  rw [trie.get_erase wellFormed.distinct,Function.update_apply]

theorem get_insert_update (layout : Layout κ α) (trie : Trie κ α) (wellFormed : trie.WellFormed)
    (key : List κ) (payload : α) (free : trie.get key = none) :
    (trie.insert layout key payload).1 = true ∧
      (trie.insert layout key payload).2.get = Function.update trie.get key (some payload) := by
  refine ⟨?_,?_⟩
  · rw [(trie.get_insert layout wellFormed key key payload).1,free]
    rfl
  · funext other
    rw [(trie.get_insert layout wellFormed key other payload).2,free,Function.update_apply]
    rfl

theorem first_spec (trie : Trie κ α) (wellFormed : trie.WellFormed) :
    (trie.first = none → trie.dead = true) ∧
      ∀ path found, trie.first = some (path,found) → trie.get path = some found := by
  induction wellFormed with
  | node own payload children distinct live below ih =>
    cases payload with
    | some new =>
      refine ⟨fun missing => by simp [first] at missing,?_⟩
      intro path found same
      rw [first,Option.some.injEq,Prod.mk.injEq] at same
      rw [← same.1,← same.2]
      rfl
    | none =>
      rw [first]
      cases children with
      | nil =>
        refine ⟨fun _ => rfl,?_⟩
        intro path found same
        cases same
      | cons child rest =>
        obtain ⟨missing,got⟩ := ih child List.mem_cons_self
        cases inner : child.first with
        | none =>
          have dead := missing inner
          rw [live child List.mem_cons_self] at dead
          cases dead
        | some result =>
          obtain ⟨path,found⟩ := result
          rw [first.firstOf,inner]
          refine ⟨fun nothing => (Option.some_ne_none _ nothing).elim,?_⟩
          intro whole value same
          rw [Option.some.injEq,Prod.mk.injEq] at same
          rw [← same.1,← same.2]
          refine (get_of_child own none ?_ path).trans (got path found inner)
          exact (childOf_iff distinct).mpr ⟨List.mem_cons_self,rfl⟩

private theorem first_of_live (trie : Trie κ α) (wellFormed : trie.WellFormed) (live : trie.dead = false) :
    ∃ path found, trie.first = some (path,found) ∧ trie.get path = some found := by
  obtain ⟨missing,got⟩ := trie.first_spec wellFormed
  cases same : trie.first with
  | none =>
    have dead := missing same
    rw [live] at dead
    cases dead
  | some result => exact ⟨result.1,result.2,rfl,got _ _ same⟩

theorem descend_append (trie : Trie κ α) (first second : List κ) :
    trie.descend (first ++ second) = (trie.descend first).bind fun node => node.descend second := by
  induction first generalizing trie with
  | nil => rfl
  | cons subkey rest ih =>
    rw [List.cons_append,descend,descend,Option.bind_assoc]
    congr 1
    funext child
    exact ih child

theorem get_append {trie node : Trie κ α} {key : List κ} (reached : trie.descend key = some node)
    (rest : List κ) : trie.get (key ++ rest) = node.get rest := by
  rw [get,descend_append,reached]
  rfl

theorem descend_wellFormed {trie node : Trie κ α} {key : List κ} (wellFormed : trie.WellFormed)
    (reached : trie.descend key = some node) : node.WellFormed ∧ (key = [] ∨ node.dead = false) := by
  induction key generalizing trie with
  | nil =>
    cases Option.some.inj reached
    exact ⟨wellFormed,Or.inl rfl⟩
  | cons subkey rest ih =>
    obtain ⟨own,payload,children,distinct,live,below⟩ := wellFormed
    obtain ⟨child,found,further⟩ := Option.bind_eq_some_iff.mp reached
    obtain ⟨member,-⟩ := childOf_some found
    obtain ⟨good,either⟩ := ih (below child member) further
    refine ⟨good,Or.inr ?_⟩
    rcases either with rfl | alive
    · rw [← Option.some.inj further]
      exact live child member
    · exact alive

theorem descend_isSome (trie : Trie κ α) (wellFormed : trie.WellFormed) (key : List κ) :
    (trie.descend key).isSome ↔ key = [] ∨ ∃ rest, trie.get (key ++ rest) ≠ none := by
  constructor
  · intro reached
    obtain ⟨node,found⟩ := Option.isSome_iff_exists.mp reached
    obtain ⟨good,root | live⟩ := descend_wellFormed wellFormed found
    · exact Or.inl root
    · obtain ⟨path,payload,-,got⟩ := node.first_of_live good live
      refine Or.inr ⟨path,?_⟩
      rw [get_append found,got]
      simp
  · rintro (rfl | ⟨rest,stored⟩)
    · rfl
    · cases found : trie.descend key with
      | some node => rfl
      | none =>
        rw [get,descend_append,found] at stored
        exact absurd rfl stored

private theorem findFrom_last (path : List κ) (found : Option (List κ × α)) (trie : Trie κ α) (key : List κ) :
    (findFrom path found trie key).reachLast = (trie.descend key).isSome ∧
      ∀ node, trie.descend key = some node →
        (findFrom path found trie key).last = node ∧ (findFrom path found trie key).path = path ++ key := by
  induction key generalizing path found trie with
  | nil =>
    refine ⟨rfl,?_⟩
    intro node reached
    exact ⟨Option.some.inj reached,(List.append_nil path).symm⟩
  | cons subkey rest ih =>
    unfold findFrom descend
    cases next : childOf trie.children subkey with
    | none =>
      refine ⟨rfl,?_⟩
      intro node reached
      cases reached
    | some child =>
      dsimp only [Option.bind_some]
      obtain ⟨walked,reaches⟩ := ih (path ++ [subkey]) (match child.payload with
        | some payload => some (path ++ [subkey],payload)
        | none => found) child
      refine ⟨walked,?_⟩
      intro node reached
      obtain ⟨last,whole⟩ := reaches node reached
      exact ⟨last,whole.trans (List.append_assoc path [subkey] rest)⟩

/-- Without a test `find_if` is `find`. -/
theorem findIfFrom_true (path : List κ) (found : Option (List κ × α)) (trie : Trie κ α) (key : List κ) :
    findIfFrom (fun _ => true) path found trie key = findFrom path found trie key := by
  induction key generalizing path found trie with
  | nil => rfl
  | cons subkey rest ih =>
    unfold findIfFrom findFrom
    cases next : childOf trie.children subkey with
    | none => rfl
    | some child => exact ih _ _ child

/-- The last payload on the path that passes the test is that of the longest prefix of the key, else the one passed on. -/
theorem findIfFrom_found (pred : α → Bool) (path : List κ) (found : Option (List κ × α)) (trie : Trie κ α) (key : List κ) :
    (∃ below payload, below <+: key ∧ below ≠ [] ∧ trie.get below = some payload ∧ pred payload = true ∧
        (findIfFrom pred path found trie key).found = some (path ++ below,payload) ∧
        ∀ other value, other <+: key → trie.get other = some value → pred value = true → other.length ≤ below.length) ∨
      (findIfFrom pred path found trie key).found = found ∧
        ∀ below value, below <+: key → below ≠ [] → trie.get below = some value → pred value = false := by
  induction key generalizing path found trie with
  | nil =>
    refine Or.inr ⟨rfl,?_⟩
    intro below _ inside nonempty
    exact absurd (List.prefix_nil.mp inside) nonempty
  | cons subkey rest ih =>
    obtain ⟨own,payload,children⟩ := trie
    unfold findIfFrom
    cases next : childOf children subkey with
    | none =>
      refine Or.inr ⟨by simp only [Trie.children,next],?_⟩
      intro below value inside nonempty stored
      cases below with
      | nil => exact absurd rfl nonempty
      | cons head tail =>
        obtain ⟨rfl,-⟩ := List.cons_prefix_cons.mp inside
        rw [get_of_no_child own payload next tail] at stored
        cases stored
    | some child =>
      have step : ∀ tail, (node own payload children).get (subkey :: tail) = child.get tail :=
        get_of_child own payload next
      simp only [Trie.children,next]
      rcases ih (path ++ [subkey]) (match child.payload with
          | some payload => if pred payload then some (path ++ [subkey],payload) else found
          | none => found) child with
        ⟨below,deeper,inside,nonempty,got,passes,same,longest⟩ | ⟨same,nothing⟩
      · refine Or.inl ⟨subkey :: below,deeper,List.cons_prefix_cons.mpr ⟨rfl,inside⟩,by simp,?_,passes,?_,?_⟩
        · rw [step,got]
        · rw [same,List.append_assoc,List.singleton_append]
        · intro other value within stored accepted
          cases other with
          | nil => exact Nat.zero_le _
          | cons head tail =>
            obtain ⟨rfl,further⟩ := List.cons_prefix_cons.mp within
            rw [step] at stored
            exact Nat.succ_le_succ (longest tail value further stored accepted)
      · -- nothing below the child passes, so that the child itself decides
        have below_child : ∀ head tail value, head :: tail <+: subkey :: rest → tail ≠ [] →
            (node own payload children).get (head :: tail) = some value → pred value = false := by
          intro head tail value within nonempty stored
          obtain ⟨rfl,further⟩ := List.cons_prefix_cons.mp within
          rw [step] at stored
          exact nothing tail value further nonempty stored
        cases accepted : child.payload.any pred with
        | true =>
          obtain ⟨value,here,passes⟩ := (Option.any_eq_true _ _).mp accepted
          simp only [here,passes,↓reduceIte] at same ⊢
          refine Or.inl ⟨[subkey],value,List.cons_prefix_cons.mpr ⟨rfl,List.nil_prefix⟩,by simp,?_,passes,same,?_⟩
          · rw [step]
            exact here
          · intro other value within stored accepted
            cases other with
            | nil => exact Nat.zero_le _
            | cons head tail =>
              cases tail with
              | nil => exact Nat.le_refl _
              | cons second more =>
                have refused := below_child head (second :: more) value within (by simp) stored
                rw [accepted] at refused
                cases refused
        | false =>
          have passed : (match child.payload with
              | some payload => if pred payload then some (path ++ [subkey],payload) else found
              | none => found) = found := by
            cases here : child.payload with
            | none => rfl
            | some value =>
              rw [here,Option.any_some] at accepted
              simp only [accepted,Bool.false_eq_true,↓reduceIte]
          rw [passed] at same ⊢
          refine Or.inr ⟨same,?_⟩
          intro below value within nonempty stored
          cases below with
          | nil => exact absurd rfl nonempty
          | cons head tail =>
            cases tail with
            | nil =>
              obtain ⟨rfl,-⟩ := List.cons_prefix_cons.mp within
              rw [step] at stored
              rw [show child.payload = some value from stored,Option.any_some] at accepted
              exact accepted
            | cons second more => exact below_child head (second :: more) value within (by simp) stored

/-- The last payload on the path is that of the longest prefix of the key, else the one passed on. -/
theorem findFrom_found (path : List κ) (found : Option (List κ × α)) (trie : Trie κ α) (key : List κ) :
    (∃ below payload, below <+: key ∧ below ≠ [] ∧ trie.get below = some payload ∧
        (findFrom path found trie key).found = some (path ++ below,payload) ∧
        ∀ other, other <+: key → trie.get other ≠ none → other.length ≤ below.length) ∨
      (findFrom path found trie key).found = found ∧ ∀ below, below <+: key → below ≠ [] → trie.get below = none := by
  rw [← findIfFrom_true]
  rcases findIfFrom_found (fun _ => true) path found trie key with
    ⟨below,payload,inside,nonempty,got,-,same,longest⟩ | ⟨same,nothing⟩
  · refine Or.inl ⟨below,payload,inside,nonempty,got,same,?_⟩
    intro other within stored
    obtain ⟨value,here⟩ := Option.ne_none_iff_exists'.mp stored
    exact longest other value within here rfl
  · refine Or.inr ⟨same,?_⟩
    intro below inside nonempty
    apply Option.eq_none_iff_forall_ne_some.mpr
    intro value stored
    exact Bool.noConfusion (nothing below value inside nonempty stored)

/-- `find` as a search of the map: the longest prefix of the key that has a payload. -/
theorem find_found (trie : Trie κ α) (key : List κ) :
    ((trie.find key).found = none ∧ ∀ below, below <+: key → trie.get below = none) ∨
      ∃ below payload, (trie.find key).found = some (below,payload) ∧ below <+: key ∧
        trie.get below = some payload ∧
        ∀ other, other <+: key → trie.get other ≠ none → other.length ≤ below.length := by
  unfold find
  rcases findFrom_found [] (trie.payload.map fun payload => ([],payload)) trie key with
    ⟨below,payload,inside,-,got,same,longest⟩ | ⟨same,nothing⟩
  · exact Or.inr ⟨below,payload,same,inside,got,longest⟩
  · cases here : trie.payload with
    | none =>
      rw [here] at same
      refine Or.inl ⟨by rw [← here] at same ⊢; exact same.trans (by rw [here]; rfl),?_⟩
      intro below inside
      cases below with
      | nil => exact here
      | cons head tail => exact nothing _ inside (by simp)
    | some value =>
      rw [here] at same
      refine Or.inr ⟨[],value,same,List.nil_prefix,here,?_⟩
      intro other within stored
      cases other with
      | nil => exact Nat.le_refl _
      | cons head tail => exact absurd (nothing _ within (by simp)) stored

theorem find_last (trie : Trie κ α) (key : List κ) :
    (trie.find key).reachLast = (trie.descend key).isSome ∧
      ∀ node, trie.descend key = some node → (trie.find key).last = node ∧ (trie.find key).path = key :=
  findFrom_last [] _ trie key

/-- A search one level below finds a payload whenever one has a key that passes the test. -/
theorem findIfNextLevel_spec (trie : Trie κ α) (wellFormed : trie.WellFormed) (test : κ → Bool) :
    (trie.findIfNextLevel test = none ∧ ∀ key rest, test key = true → trie.get (key :: rest) = none) ∨
      ∃ key rest payload, test key = true ∧ trie.findIfNextLevel test = some (key :: rest,payload) ∧
        trie.get (key :: rest) = some payload := by
  obtain ⟨own,payload,children,distinct,live,below⟩ := wellFormed
  unfold findIfNextLevel
  cases found : (node own payload children).children.find? (fun child => test child.key) with
  | none =>
    refine Or.inl ⟨rfl,?_⟩
    intro key rest passes
    apply get_of_no_child
    apply childOf_none.mpr
    rintro child member rfl
    exact List.find?_eq_none.mp found child member passes
  | some child =>
    have member : child ∈ children := List.mem_of_find?_eq_some found
    have passes := List.find?_some found
    obtain ⟨path,value,first,got⟩ := child.first_of_live (below child member) (live child member)
    refine Or.inr ⟨child.key,path,value,passes,?_,?_⟩
    · dsimp only
      rw [first]
      rfl
    · rw [get_of_child own payload ((childOf_iff distinct).mpr ⟨member,rfl⟩)]
      exact got

end

end Trie

end Ncfcc.Utils
