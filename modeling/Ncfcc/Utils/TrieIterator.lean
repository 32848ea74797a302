import Ncfcc.Library.Iteration
import Ncfcc.Utils.Trie

/-! The recursive iterator of a trie: it goes to the first child, else to the next sibling of the node
or of the nearest node above it that has one. -/
namespace Ncfcc.Utils.Trie
open Ncfcc.Library
variable {κ α : Type}

section
variable [DecidableEq κ] (trie : Trie κ α)

/-- A node is given by the keys from its own up to that of the child of the root. -/
def nodeAt (position : List κ) : Option (Trie κ α) := trie.descend position.reverse

def childrenAt (position : List κ) : List (Trie κ α) := ((trie.nodeAt position).map children).getD []

def siblingAfter (key : κ) : List (Trie κ α) → Option (Trie κ α)
  | [] => none
  | child :: rest => if child.key = key then rest.head? else siblingAfter key rest

def goUp : List κ → Option (List κ)
  | [] => none
  | key :: up =>
    match siblingAfter key (trie.childrenAt up) with
    | some sibling => some (sibling.key :: up)
    | none => goUp up

/-- `operator++`; none is the end. -/
def next (position : List κ) : Option (List κ) :=
  match trie.childrenAt position with
  | child :: _ => some (child.key :: position)
  | [] => trie.goUp position

/-- The next node with a payload, from a node on; none if it goes on after this many steps. -/
def seek : (steps : Nat) → Option (List κ) → Option (Option (List κ × α))
  | _, none => some none
  | 0, some _ => none
  | steps + 1, some position =>
    match (trie.nodeAt position).bind payload with
    | some payload => some (some (position,payload))
    | none => seek steps (trie.next position)

end

def positions (up : List κ) : Trie κ α → List (List κ)
  | node _ _ children => up :: positionsOf up children
where
  positionsOf (up : List κ) : List (Trie κ α) → List (List κ)
    | [] => []
    | child :: rest => positions (child.key :: up) child ++ positionsOf up rest

/-! The order of the iterator. -/

theorem head_positions (up : List κ) (trie : Trie κ α) : (trie.positions up).head? = some up := by
  cases trie
  rfl

private theorem head_positionsOf (up : List κ) (children : List (Trie κ α)) :
    (positions.positionsOf up children).head? = children.head?.map fun child => child.key :: up := by
  cases children with
  | nil => rfl
  | cons child rest =>
    rw [positions.positionsOf,List.head?_append,head_positions]
    rfl

theorem positionsOf_append (up : List κ) (front back : List (Trie κ α)) :
    positions.positionsOf up (front ++ back) = positions.positionsOf up front ++ positions.positionsOf up back := by
  induction front with
  | nil => rfl
  | cons child front ih => rw [List.cons_append,positions.positionsOf,positions.positionsOf,ih,List.append_assoc]

private theorem mem_positionsOf {up position : List κ} {children : List (Trie κ α)} :
    position ∈ positions.positionsOf up children ↔ ∃ child ∈ children, position ∈ child.positions (child.key :: up) := by
  induction children with
  | nil => simp [positions.positionsOf]
  | cons child rest ih => simp [positions.positionsOf,ih]

section
variable [DecidableEq κ]

private theorem siblingAfter_append {front rest : List (Trie κ α)} {child : Trie κ α}
    (distinct : ((front ++ child :: rest).map key).Nodup) : siblingAfter child.key (front ++ child :: rest) = rest.head? := by
  induction front with
  | nil => exact if_pos rfl
  | cons first front ih =>
    rw [List.cons_append,List.map_cons,List.nodup_cons] at distinct
    have other : first.key ≠ child.key := by
      intro same
      apply distinct.1
      rw [same]
      exact List.mem_map_of_mem (List.mem_append_right front List.mem_cons_self)
    rw [List.cons_append,siblingAfter,if_neg other]
    exact ih distinct.2

private theorem childrenAt_of_nodeAt {root : Trie κ α} {up : List κ} {own : κ} {payload : Option α} {children : List (Trie κ α)}
    (here : root.nodeAt up = some (node own payload children)) : root.childrenAt up = children := by
  rw [childrenAt,here]
  rfl

private theorem nodeAt_child {root : Trie κ α} {up : List κ} {own : κ} {payload : Option α} {children : List (Trie κ α)}
    (here : root.nodeAt up = some (node own payload children)) (subkey : κ) :
    root.nodeAt (subkey :: up) = childOf children subkey := by
  unfold nodeAt at here ⊢
  rw [List.reverse_cons,descend_append,here,Option.bind_some,descend]
  exact Option.bind_fun_some _

private theorem positionsOf_follow {root : Trie κ α} {up : List κ} {own : κ} {payload : Option α} {children : List (Trie κ α)}
    (here : root.nodeAt up = some (node own payload children)) (distinct : (children.map key).Nodup)
    (inner : ∀ child ∈ children, Follows root.next (root.goUp (child.key :: up)) (child.positions (child.key :: up)))
    (front rest : List (Trie κ α)) (split : children = front ++ rest) :
    Follows root.next (root.goUp up) (positions.positionsOf up rest) := by
  induction rest generalizing front with
  | nil => exact trivial
  | cons child rest ih =>
    rw [positions.positionsOf]
    apply Follows.append
    · have behind : root.goUp (child.key :: up) = (positions.positionsOf up rest).head?.or (root.goUp up) := by
        have sibling : siblingAfter child.key (root.childrenAt up) = rest.head? := by
          rw [childrenAt_of_nodeAt here,split]
          exact siblingAfter_append (split ▸ distinct)
        rw [goUp,sibling,head_positionsOf]
        cases rest <;> rfl
      rw [← behind]
      exact inner child (split ▸ List.mem_append_right front List.mem_cons_self)
    · exact ih (front ++ [child]) (by rw [split,List.append_assoc]; rfl)

/-- The iterator goes through a subtree in preorder, and on to what is behind it. -/
theorem positions_follow {root tree : Trie κ α} (distinct : tree.Distinct) {up : List κ} (here : root.nodeAt up = some tree) :
    Follows root.next (root.goUp up) (tree.positions up) := by
  induction distinct generalizing up with
  | node own payload children distinct _ ih =>
    have behind : Follows root.next (root.goUp up) (positions.positionsOf up children) := by
      refine positionsOf_follow here distinct ?_ [] children rfl
      intro child inside
      apply ih child inside
      rw [nodeAt_child here]
      exact (childOf_iff distinct).mpr ⟨inside,rfl⟩
    refine ⟨?_,behind⟩
    rw [next,childrenAt_of_nodeAt here,head_positionsOf]
    cases children <;> rfl

/-! The nodes it comes to. -/

/-- The positions of a subtree are those of its nodes. -/
theorem mem_positions {tree : Trie κ α} (distinct : tree.Distinct) {up position : List κ} :
    position ∈ tree.positions up ↔ ∃ path, position = path.reverse ++ up ∧ (tree.descend path).isSome := by
  induction distinct generalizing up with
  | node own payload children distinct _ ih =>
    rw [positions,List.mem_cons,mem_positionsOf]
    constructor
    · rintro (rfl | ⟨child,inside,below⟩)
      · exact ⟨[],rfl,rfl⟩
      · obtain ⟨path,rfl,reached⟩ := (ih child inside).mp below
        refine ⟨child.key :: path,by simp,?_⟩
        have found := (childOf_iff distinct).mpr ⟨inside,rfl⟩
        rw [descend,Trie.children,found]
        exact reached
    · rintro ⟨path,rfl,reached⟩
      cases path with
      | nil => exact Or.inl rfl
      | cons subkey rest =>
        obtain ⟨node,arrived⟩ := Option.isSome_iff_exists.mp reached
        obtain ⟨child,found,further⟩ := Option.bind_eq_some_iff.mp arrived
        obtain ⟨inside,named⟩ := childOf_some found
        refine Or.inr ⟨child,inside,(ih child inside).mpr ⟨rest,?_,Option.isSome_iff_exists.mpr ⟨node,further⟩⟩⟩
        rw [named,List.reverse_cons,List.append_assoc]
        rfl

theorem mem_root_positions {trie : Trie κ α} (distinct : trie.Distinct) {position : List κ} :
    position ∈ trie.positions [] ↔ (trie.nodeAt position).isSome := by
  rw [mem_positions distinct]
  constructor
  · rintro ⟨path,rfl,reached⟩
    rw [nodeAt,List.append_nil,List.reverse_reverse]
    exact reached
  · intro reached
    exact ⟨position.reverse,by simp,reached⟩

theorem positions_nodup {tree : Trie κ α} (distinct : tree.Distinct) (up : List κ) : (tree.positions up).Nodup := by
  induction distinct generalizing up with
  | node own payload children distinct inner ih =>
    have longer : ∀ child ∈ children, ∀ position ∈ child.positions (child.key :: up),
        ∃ path, position = path ++ child.key :: up := by
      intro child inside position member
      obtain ⟨path,rfl,-⟩ := (mem_positions (inner child inside)).mp member
      exact ⟨path.reverse,rfl⟩
    have behind : (positions.positionsOf up children).Nodup := by
      clear inner
      induction children with
      | nil => exact List.nodup_nil
      | cons child rest step =>
        obtain ⟨absent,distinct⟩ := List.nodup_cons.mp distinct
        rw [positions.positionsOf,List.nodup_append']
        refine ⟨ih child List.mem_cons_self _,step distinct (fun other inside => ih other (List.mem_cons_of_mem _ inside))
          (fun other inside => longer other (List.mem_cons_of_mem _ inside)),?_⟩
        intro position first second
        obtain ⟨path,same⟩ := longer child List.mem_cons_self position first
        obtain ⟨other,inside,member⟩ := mem_positionsOf.mp second
        obtain ⟨away,also⟩ := longer other (List.mem_cons_of_mem _ inside) position member
        -- the keys of the children are at the same depth
        have keys := List.append_inj_right' (same.symm.trans also) (by simp)
        apply absent
        rw [show child.key = other.key from (List.cons.inj keys).1]
        exact List.mem_map_of_mem inside
    refine List.nodup_cons.mpr ⟨?_,behind⟩
    intro member
    obtain ⟨child,inside,below⟩ := mem_positionsOf.mp member
    obtain ⟨path,same⟩ := longer child inside up below
    have length := congrArg List.length same
    rw [List.length_append,List.length_cons] at length
    omega

def itemAt (trie : Trie κ α) (position : List κ) : Option (List κ × α) :=
  ((trie.nodeAt position).bind payload).map fun payload => (position,payload)

theorem seek_of_follows {trie : Trie κ α} {items : List (List κ)} (follows : Follows trie.next none items) {steps : Nat}
    (enough : items.length ≤ steps) : trie.seek steps items.head? = some (items.findSome? trie.itemAt) := by
  induction items generalizing steps with
  | nil => cases steps <;> rfl
  | cons position rest ih =>
    cases steps with
    | zero => exact absurd enough (Nat.not_succ_le_zero _)
    | succ steps =>
      obtain ⟨followed,later⟩ := follows
      rw [Option.or_none] at followed
      rw [List.head?_cons,seek,List.findSome?_cons,itemAt]
      cases (trie.nodeAt position).bind payload with
      | none =>
        dsimp only [Option.map_none]
        rw [followed]
        exact ih later (Nat.le_of_succ_le_succ enough)
      | some payload => rfl

end

end Ncfcc.Utils.Trie
