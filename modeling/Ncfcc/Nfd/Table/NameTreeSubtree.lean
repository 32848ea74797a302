import Ncfcc.Library.Emission
import Ncfcc.Nfd.Table.NameTreeEnumeration

/-! The partial enumeration meets the part of a subtree that its selector does not cut off.
The iterator comes to an entry from above or from a sibling, goes through what is below it,
and is back at the entry with nothing left to visit under it. -/
namespace Ncfcc.Nfd.NameTree
open Ncfcc.Library

section
variable (tree : NameTree) (selector : Nat → Bool × Bool)

def childrenOf (id : Nat) : List Nat := ((tree.entries id).map Entry.children).getD []

def descends (id : Nat) : Bool := (selector id).2 && tree.hasChildren id

def below : (depth : Nat) → Nat → List Nat
  | 0, _ => []
  | depth + 1, id =>
    if tree.descends selector id then (tree.childrenOf id).flatMap fun child => child :: below depth child else []

/-- No name under an entry's is longer by more than this. -/
def Deep (entry : Entry) (depth : Nat) : Prop :=
  ∀ other found, tree.entries other = some found → entry.name <+: found.name → found.name.length ≤ entry.name.length + depth

def come (id : Nat) : List Nat × Option (Nat × Bool) := (if (selector id).1 then [id] else [],some (id,tree.descends selector id))

/-- One round of `operator++` of a partial enumeration, at an entry and with the flag whether its children are to be
visited. None where a child, a parent or the place among its children is missing. -/
def round (root : Nat) (state : Nat × Bool) : Option (List Nat × Option (Nat × Bool)) :=
  (tree.entries state.1).bind fun entry =>
    if state.2 then entry.children.head?.map (tree.come selector)
    else if state.1 = root then some ([],none)
    else
      entry.parent.bind fun parent => (tree.entries parent).bind fun above =>
        if state.1 ∈ above.children then
          match above.children[above.children.idxOf state.1 + 1]? with
          | some sibling => some (tree.come selector sibling)
          | none => some ([],some (parent,false))
        else none

/-- Within a number of rounds the iterator emits the accepted ones of some entries and is at a place. -/
def Walks (root : Nat) (rounds : Nat) (start : Nat × Bool) (met : List Nat) (stop : Nat × Bool) : Prop :=
  Passes (tree.round selector root) rounds start (met.filter fun id => (selector id).1) stop

end

section
variable {hashComponent : Component → UInt64} {tree : NameTree} {selector : Nat → Bool × Bool} {root : Nat}

theorem Walks.trans {first second : Nat} {start middle stop : Nat × Bool} {met more : List Nat}
    (one : tree.Walks selector root first start met middle) (two : tree.Walks selector root second middle more stop) :
    tree.Walks selector root (first + second) start (met ++ more) stop := by
  unfold Walks
  rw [List.filter_append]
  exact Passes.trans one two

theorem Deep.child {entry lower : Entry} {depth : Nat} (deep : tree.Deep entry (depth + 1)) (under : entry.name <+: lower.name)
    (length : lower.name.length = entry.name.length + 1) : tree.Deep lower depth := by
  intro other last there further
  have bound := deep other last there (under.trans further)
  omega

private theorem walks_come {id next : Nat} {visit : Bool} (moved : tree.round selector root (id,visit) = some (tree.come selector next)) :
    tree.Walks selector root 1 (id,visit) [next] (next,tree.descends selector next) := by
  have emitted : [next].filter (fun id => (selector id).1) = if (selector next).1 then [next] else [] := List.filter_cons
  unfold Walks
  rw [emitted]
  exact Passes.one moved

private theorem walks_back {id parent : Nat} (moved : tree.round selector root (id,false) = some ([],some (parent,false))) :
    tree.Walks selector root 1 (id,false) [] (parent,false) := Passes.one moved

/-- At the root with nothing left to visit under it, the enumeration ends. -/
theorem round_root {entry : Entry} (stored : tree.entries root = some entry) :
    tree.round selector root (root,false) = some ([],none) := by
  unfold round
  dsimp only
  rw [stored,Option.bind_some,if_neg Bool.false_ne_true,if_pos rfl]

/-- A defined round is one of the enumeration. -/
theorem advance_of_round {state next : Nat × Bool} {items : List Nat}
    (moved : tree.round selector root state = some (items,some next)) :
    ∃ accepted, tree.advance root selector state.1 state.2 = some (next.1,next.2,accepted) ∧ items = if accepted then [next.1] else [] := by
  obtain ⟨id,visit⟩ := state
  obtain ⟨entry,stored,moved⟩ := Option.bind_eq_some_iff.mp moved
  unfold advance
  dsimp only at stored moved ⊢
  rw [stored,Option.bind_some]
  split at moved
  · rename_i visits
    obtain ⟨child,first,same⟩ := Option.map_eq_some_iff.mp moved
    cases same
    rw [if_pos visits,first]
    exact ⟨_,rfl,rfl⟩
  · rename_i skips
    rw [if_neg skips]
    split at moved
    · cases moved
    · rename_i apart
      obtain ⟨parent,parented,moved⟩ := Option.bind_eq_some_iff.mp moved
      obtain ⟨above,found,moved⟩ := Option.bind_eq_some_iff.mp moved
      rw [if_neg apart,parented,Option.bind_some,found,Option.map_some]
      split at moved
      · cases next : above.children[List.idxOf id above.children + 1]? with
        | some sibling =>
          rw [next] at moved
          cases moved
          exact ⟨_,rfl,rfl⟩
        | none =>
          rw [next] at moved
          cases moved
          exact ⟨false,rfl,rfl⟩
      · cases moved

private theorem walkSubtree_of_passes {rounds : Nat} {start stop : Nat × Bool} {items : List Nat}
    (passes : Passes (tree.round selector root) rounds start items stop) (fuel : Nat) :
    tree.walkSubtree root selector (rounds + fuel) start.1 start.2 = items ++ tree.walkSubtree root selector fuel stop.1 stop.2 := by
  induction passes with
  | none => simp
  | more goes _ ih =>
    obtain ⟨accepted,moved,rfl⟩ := advance_of_round goes
    rw [Nat.add_right_comm,walkSubtree,moved]
    dsimp only
    rw [ih]
    cases accepted <;> rfl

private theorem descends_of_child {id child : Nat} {entry : Entry} (stored : tree.entries id = some entry)
    (entered : (selector id).2 = true) (member : child ∈ tree.childrenOf id) : tree.descends selector id = true := by
  have children : entry.children ≠ [] := by
    rw [childrenOf,stored] at member
    exact List.ne_nil_of_mem member
  simp [descends,entered,hasChildren,stored,children]

section
variable (consistent : Consistent hashComponent tree)
include consistent

/-- The children of an entry have its name and one component more. -/
theorem Consistent.mem_childrenOf {id : Nat} {entry : Entry} (stored : tree.entries id = some entry) (child : Nat) :
    child ∈ tree.childrenOf id ↔ ∃ lower, tree.entries child = some lower ∧ lower.parent = some id ∧
      lower.name.dropLast = entry.name ∧ lower.name ≠ [] := by
  have members := (consistent.children id entry stored).2 child
  unfold childrenOf
  rw [stored]
  refine members.trans ?_
  constructor
  · rintro ⟨key,known,parented⟩
    obtain ⟨lower,found,rfl⟩ := entry_of_keys known
    refine ⟨lower,found,parented,?_⟩
    rcases consistent.parent_cases found with ⟨none,-⟩ | ⟨up,above,parent,here,shorter,length⟩
    · exact absurd (parented.symm.trans none) (by simp)
    · have same : up = id := Option.some.inj (parent.symm.trans parented)
      rw [same,stored] at here
      cases here
      exact ⟨shorter.symm,List.ne_nil_of_length_pos (by omega)⟩
  · rintro ⟨lower,found,parented,-⟩
    exact ⟨lower.key,keys_of_entry found,parented⟩

theorem Consistent.childrenOf_nodup (id : Nat) : (tree.childrenOf id).Nodup := by
  unfold childrenOf
  cases stored : tree.entries id with
  | none => exact List.nodup_nil
  | some entry => exact (consistent.children id entry stored).1

/-- From a child the iterator comes to the next one, or back to the parent. -/
theorem Consistent.walks_sibling (selector : Nat → Bool × Bool) {id child : Nat} {entry : Entry} (stored : tree.entries id = some entry)
    {front more : List Nat} (split : tree.childrenOf id = front ++ child :: more) (apart : child ≠ root) :
    (more = [] → tree.Walks selector root 1 (child,false) [] (id,false)) ∧
      ∀ next rest, more = next :: rest →
        tree.Walks selector root 1 (child,false) [next] (next,tree.descends selector next) := by
  have nodup := consistent.childrenOf_nodup id
  rw [split] at nodup
  have fresh : child ∉ front := fun inside =>
    (List.nodup_cons.mp (List.nodup_middle.mp nodup)).1 (List.mem_append_left _ inside)
  obtain ⟨lower,found,parented,-⟩ := (consistent.mem_childrenOf stored child).mp (split ▸ by simp)
  have children : entry.children = front ++ child :: more := by
    rw [← split,childrenOf,stored]
    rfl
  have position : (front ++ child :: more)[(front ++ child :: more).idxOf child + 1]? = more.head? := by
    rw [List.idxOf_append_of_notMem fresh,List.idxOf_cons_self,Nat.add_zero,List.getElem?_append_right (by omega)]
    cases more <;> simp
  have among : child ∈ front ++ child :: more := by simp
  have moved : tree.round selector root (child,false) = some (match more.head? with
      | some sibling => tree.come selector sibling
      | none => ([],some (id,false))) := by
    unfold round
    rw [found,Option.bind_some]
    cases next : more.head? <;> simp only [Bool.false_eq_true,if_false,if_neg apart,parented,Option.bind_some,stored,
      children,if_pos among,position,next]
  constructor
  · rintro rfl
    exact walks_back moved
  · rintro next rest rfl
    exact walks_come moved

/-- The iterator goes through the children from one on, and is back at the parent. -/
theorem Consistent.walks_children {id : Nat} {entry : Entry} (stored : tree.entries id = some entry) {depth : Nat}
    (apart : ∀ child ∈ tree.childrenOf id, child ≠ root)
    (walks : ∀ child ∈ tree.childrenOf id, ∃ rounds ≤ 2 * (tree.below selector depth child).length,
      tree.Walks selector root rounds (child,tree.descends selector child) (tree.below selector depth child) (child,false))
    (more : List Nat) (front : List Nat) (child : Nat) (split : tree.childrenOf id = front ++ child :: more) :
    ∃ rounds, rounds + (child :: more).length ≤
        2 * ((child :: more).flatMap fun child => child :: tree.below selector depth child).length ∧
      tree.Walks selector root rounds (child,tree.descends selector child)
        (tree.below selector depth child ++ more.flatMap fun child => child :: tree.below selector depth child) (id,false) := by
  have inside : child ∈ tree.childrenOf id := by
    rw [split]
    simp
  obtain ⟨rounds,bound,walk⟩ := walks child inside
  obtain ⟨last,next⟩ := consistent.walks_sibling selector stored split (apart child inside)
  induction more generalizing front child rounds with
  | nil =>
    refine ⟨rounds + 1,?_,?_⟩
    · simp only [List.flatMap_singleton,List.length_cons,List.length_nil]
      omega
    · exact walk.trans (last rfl)
  | cons sibling rest ih =>
    have split' : tree.childrenOf id = (front ++ [child]) ++ sibling :: rest := by simpa using split
    have there : sibling ∈ tree.childrenOf id := by
      rw [split']
      simp
    obtain ⟨steps,limit,through⟩ := walks sibling there
    obtain ⟨last',next'⟩ := consistent.walks_sibling selector stored split' (apart sibling there)
    obtain ⟨total,count,whole⟩ := ih (front ++ [child]) sibling split' there steps limit through last' next'
    refine ⟨rounds + (1 + total),?_,?_⟩
    · simp only [List.flatMap_cons,List.length_append,List.length_cons] at count ⊢
      omega
    · have path := walk.trans ((next sibling rest rfl).trans whole)
      simpa [List.flatMap_cons] using path

theorem Consistent.child_spec {id child : Nat} {entry : Entry} (stored : tree.entries id = some entry)
    (inside : child ∈ tree.childrenOf id) :
    ∃ found, tree.entries child = some found ∧ entry.name <+: found.name ∧ found.name.length = entry.name.length + 1 := by
  obtain ⟨found,known,-,named,nonempty⟩ := (consistent.mem_childrenOf stored child).mp inside
  refine ⟨found,known,named ▸ List.dropLast_prefix _,?_⟩
  have length := congrArg List.length named
  rw [List.length_dropLast] at length
  have positive := List.length_pos_iff.mpr nonempty
  omega

/-- The iterator goes through all that is below an entry, and is back at it. -/
theorem Consistent.walks_below (selector : Nat → Bool × Bool) {top : Entry} (rooted : tree.entries root = some top) (depth : Nat) {id : Nat}
    {entry : Entry} (stored : tree.entries id = some entry) (lower : top.name.length ≤ entry.name.length)
    (deep : tree.Deep entry depth) :
    ∃ rounds ≤ 2 * (tree.below selector depth id).length,
      tree.Walks selector root rounds (id,tree.descends selector id) (tree.below selector depth id) (id,false) := by
  induction depth generalizing id entry with
  | zero =>
    have childless : tree.childrenOf id = [] := by
      rw [List.eq_nil_iff_forall_not_mem]
      intro child inside
      obtain ⟨found,known,under,length⟩ := consistent.child_spec stored inside
      have bound := deep child found known under
      omega
    have stays : tree.descends selector id = false := by
      rw [childrenOf,stored] at childless
      have none : entry.children = [] := childless
      simp [descends,hasChildren,stored,none]
    rw [stays]
    exact ⟨0,Nat.zero_le _,.none⟩
  | succ depth ih =>
    cases descent : tree.descends selector id with
    | false =>
      have nothing : tree.below selector (depth + 1) id = [] := by
        rw [below,descent]
        rfl
      rw [nothing]
      exact ⟨0,Nat.zero_le _,.none⟩
    | true =>
      have walks : ∀ child ∈ tree.childrenOf id, ∃ rounds ≤ 2 * (tree.below selector depth child).length,
          tree.Walks selector root rounds (child,tree.descends selector child) (tree.below selector depth child)
            (child,false) := by
        intro child inside
        obtain ⟨found,known,under,length⟩ := consistent.child_spec stored inside
        exact ih known (by omega) (deep.child under length)
      have apart : ∀ child ∈ tree.childrenOf id, child ≠ root := by
        rintro child inside rfl
        obtain ⟨found,known,-,length⟩ := consistent.child_spec stored inside
        rw [rooted] at known
        cases known
        omega
      cases children : tree.childrenOf id with
      | nil =>
        rw [childrenOf,stored] at children
        have none : entry.children = [] := children
        simp [descends,hasChildren,stored,none] at descent
      | cons child more =>
        obtain ⟨rounds,count,walk⟩ := consistent.walks_children stored apart walks more [] child children
        have moved : tree.round selector root (id,true) = some (tree.come selector child) := by
          rw [childrenOf,stored] at children
          have first : entry.children = child :: more := children
          unfold round
          dsimp only
          rw [stored,Option.bind_some,if_pos rfl,first]
          rfl
        have whole : tree.below selector (depth + 1) id =
            [child] ++ (tree.below selector depth child ++
              more.flatMap fun child => child :: tree.below selector depth child) := by
          rw [below,descent,if_pos rfl,children,List.flatMap_cons]
          rfl
        refine ⟨1 + rounds,?_,?_⟩
        · simp only [List.flatMap_cons,List.length_append,List.length_cons] at count
          rw [whole]
          simp only [List.length_append,List.length_cons,List.length_nil]
          omega
        · rw [whole]
          exact (walks_come moved).trans walk

/-- A name between that of an entry and one below a child is the entry's, or is below the child's. -/
theorem Consistent.between_child {id : Nat} {entry : Entry} (stored : tree.entries id = some entry) {child : Nat}
    (inside : child ∈ tree.childrenOf id) {found : Entry} (known : tree.entries child = some found) {between : Nat} {middle : Entry}
    (there : tree.entries between = some middle) (above : entry.name <+: middle.name) {last : Name}
    (shorter : middle.name <+: last) (under : found.name <+: last) : between = id ∨ found.name <+: middle.name := by
  obtain ⟨same,here,-,length⟩ := consistent.child_spec stored inside
  rw [known] at here
  cases here
  by_cases short : middle.name.length ≤ entry.name.length
  · left
    have named := above.eq_of_length (Nat.le_antisymm above.length_le short)
    exact consistent.names.distinct between id middle.key entry.key (keys_of_entry there) (keys_of_entry stored) named.symm
  · exact Or.inr (List.prefix_of_prefix_length_le under shorter (by omega))

/-- The child on the way down to a longer name. -/
theorem Consistent.child_towards {id other : Nat} {entry found : Entry} (stored : tree.entries id = some entry)
    (known : tree.entries other = some found) (under : entry.name <+: found.name) (longer : found.name ≠ entry.name) :
    ∃ child lower, child ∈ tree.childrenOf id ∧ tree.entries child = some lower ∧ entry.name <+: lower.name ∧
      lower.name <+: found.name := by
  have more : entry.name.length < found.name.length := by
    refine Nat.lt_of_le_of_ne under.length_le fun same => longer (under.eq_of_length same).symm
  obtain ⟨child,key,held,named⟩ := consistent.names.closed found.name (found.name.take (entry.name.length + 1))
    (List.take_prefix _ _) other found.key (keys_of_entry known) rfl
  obtain ⟨lower,there,rfl⟩ := entry_of_keys held
  have child_name : lower.name = found.name.take (entry.name.length + 1) := named
  have child_length : lower.name.length = entry.name.length + 1 := by
    rw [child_name,List.length_take]
    omega
  have on_way : lower.name <+: found.name := child_name ▸ List.take_prefix _ _
  have parented : lower.name.dropLast = entry.name := by
    have shortened : lower.name.dropLast <+: found.name := (List.dropLast_prefix _).trans on_way
    refine (List.prefix_of_prefix_length_le shortened under ?_).eq_of_length ?_
    · rw [List.length_dropLast]
      omega
    · rw [List.length_dropLast]
      omega
  refine ⟨child,lower,?_,there,parented ▸ List.dropLast_prefix _,on_way⟩
  refine (consistent.mem_childrenOf stored child).mpr ⟨lower,there,?_,parented,List.ne_nil_of_length_pos (by omega)⟩
  rcases consistent.parent_cases there with ⟨-,empty⟩ | ⟨up,above,parent,here,shorter,-⟩
  · rw [empty] at child_length
    simp at child_length
  · have same := consistent.names.distinct up id above.key entry.key (keys_of_entry here) (keys_of_entry stored)
      (shorter.trans parented)
    rw [parent,same]

/-- What is met below an entry: no entry on the way down is cut off. -/
theorem Consistent.mem_below (selector : Nat → Bool × Bool) (depth : Nat) {id : Nat} {entry : Entry} (stored : tree.entries id = some entry)
    (deep : tree.Deep entry depth) (other : Nat) :
    other ∈ tree.below selector depth id ↔ ∃ found, tree.entries other = some found ∧ entry.name <+: found.name ∧
      found.name ≠ entry.name ∧ ∀ between middle, tree.entries between = some middle → entry.name <+: middle.name →
        middle.name <+: found.name → between ≠ other → (selector between).2 = true := by
  induction depth generalizing id entry with
  | zero =>
    refine iff_of_false (by simp [below]) ?_
    rintro ⟨found,known,under,longer,-⟩
    have bound := deep other found known under
    exact longer (under.eq_of_length (Nat.le_antisymm under.length_le bound)).symm
  | succ depth ih =>
    have deeper : ∀ child ∈ tree.childrenOf id, ∀ found, tree.entries child = some found → tree.Deep found depth := by
      intro child inside found known
      obtain ⟨same,here,under,length⟩ := consistent.child_spec stored inside
      cases known.symm.trans here
      exact deep.child under length
    rw [below]
    constructor
    · intro inside
      split at inside
      · rename_i descent
        have entered : (selector id).2 = true := (Bool.and_eq_true_iff.mp descent).1
        obtain ⟨child,member,inside⟩ := List.mem_flatMap.mp inside
        obtain ⟨lower,known,under,length⟩ := consistent.child_spec stored member
        rcases List.mem_cons.mp inside with rfl | inside
        · refine ⟨lower,known,under,fun same => ?_,?_⟩
          · rw [same] at length
            omega
          · intro between middle there above shorter apart
            rcases consistent.between_child stored member known there above shorter List.prefix_rfl with rfl | whole
            · exact entered
            · have named := whole.eq_of_length (Nat.le_antisymm whole.length_le shorter.length_le)
              exact absurd (consistent.names.distinct between other middle.key lower.key (keys_of_entry there)
                (keys_of_entry known) named.symm) apart
        · obtain ⟨found,last,further,-,clear⟩ := (ih known (deeper child member lower known)).mp inside
          refine ⟨found,last,under.trans further,fun same => ?_,?_⟩
          · have bound := further.length_le
            rw [same] at bound
            omega
          · intro between middle there above shorter apart
            rcases consistent.between_child stored member known there above shorter further with rfl | below
            · exact entered
            · exact clear between middle there below shorter apart
      · cases inside
    · rintro ⟨found,known,under,longer,clear⟩
      obtain ⟨child,lower,member,there,short,onWay⟩ := consistent.child_towards stored known under longer
      have entered := clear id entry stored List.prefix_rfl under fun same => by
        rw [← same,stored] at known
        cases known
        exact longer rfl
      rw [if_pos (descends_of_child stored entered member)]
      refine List.mem_flatMap.mpr ⟨child,member,List.mem_cons.mpr ?_⟩
      by_cases here : other = child
      · exact Or.inl here
      · refine Or.inr ((ih there (deeper child member lower there)).mpr ⟨found,known,onWay,?_,?_⟩)
        · intro same
          exact here (consistent.names.distinct other child found.key lower.key (keys_of_entry known) (keys_of_entry there) same)
        · intro between middle inside above shorter apart
          exact clear between middle inside (short.trans above) shorter apart

theorem Consistent.of_mem_below {depth : Nat} {id : Nat} {entry : Entry} (stored : tree.entries id = some entry)
    (deep : tree.Deep entry depth) {other : Nat} (met : other ∈ id :: tree.below selector depth id) :
    ∃ found, tree.entries other = some found ∧ entry.name <+: found.name := by
  rcases List.mem_cons.mp met with rfl | met
  · exact ⟨entry,stored,List.prefix_rfl⟩
  · obtain ⟨found,there,under,-⟩ := (consistent.mem_below selector depth stored deep other).mp met
    exact ⟨found,there,under⟩

theorem Consistent.below_nodup (depth : Nat) {id : Nat} {entry : Entry} (stored : tree.entries id = some entry)
    (deep : tree.Deep entry depth) : (tree.below selector depth id).Nodup := by
  induction depth generalizing id entry with
  | zero => exact List.nodup_nil
  | succ depth ih =>
    have deeper : ∀ child ∈ tree.childrenOf id, ∃ lower, tree.entries child = some lower ∧
        lower.name.length = entry.name.length + 1 ∧ tree.Deep lower depth := by
      intro child inside
      obtain ⟨lower,known,under,length⟩ := consistent.child_spec stored inside
      exact ⟨lower,known,length,deep.child under length⟩
    rw [below]
    split
    · refine List.nodup_flatMap.mpr ⟨?_,?_⟩
      · intro child inside
        obtain ⟨lower,known,-,bound⟩ := deeper child inside
        refine List.nodup_cons.mpr ⟨?_,ih known bound⟩
        intro met
        obtain ⟨found,there,-,longer,-⟩ := (consistent.mem_below selector depth known bound child).mp met
        rw [known] at there
        cases there
        exact longer rfl
      · refine (consistent.childrenOf_nodup id).imp_of_mem ?_
        intro child sibling here there apart
        rw [Function.onFun,List.disjoint_left]
        intro other left right
        obtain ⟨lower,known,length,deep⟩ := deeper child here
        obtain ⟨second,also,size,deep'⟩ := deeper sibling there
        obtain ⟨found,stored,under⟩ := consistent.of_mem_below known deep left
        obtain ⟨same,again,beneath⟩ := consistent.of_mem_below also deep' right
        rw [stored] at again
        cases again
        have equal := (List.prefix_of_prefix_length_le under beneath (by omega)).eq_of_length (by omega)
        exact apart (consistent.names.distinct child sibling lower.key second.key (keys_of_entry known)
          (keys_of_entry also) equal)
    · exact List.nodup_nil

/-- All names of the subtree are found in some depth. -/
theorem Consistent.exists_deep (entry : Entry) : ∃ depth, tree.Deep entry depth := by
  refine ⟨(Finset.range tree.nextEntry).sup fun id => ((tree.entries id).map fun found => found.name.length).getD 0,?_⟩
  intro other found known _
  have inside := Finset.mem_range.mpr (consistent.names.fresh other found.key (keys_of_entry known))
  have bound := Finset.le_sup (f := fun id => ((tree.entries id).map fun found => found.name.length).getD 0) inside
  rw [known] at bound
  exact Nat.le_add_left_of_le bound

/-- What is come to from an entry on: no entry on the way down is cut off. -/
theorem Consistent.mem_subtree (selector : Nat → Bool × Bool) {depth : Nat} {entry : Entry} (stored : tree.entries root = some entry)
    (deep : tree.Deep entry depth) (other : Nat) :
    other ∈ root :: tree.below selector depth root ↔ ∃ found, tree.entries other = some found ∧ entry.name <+: found.name ∧
      ∀ between middle, tree.entries between = some middle → entry.name <+: middle.name → middle.name <+: found.name →
        between ≠ other → (selector between).2 = true := by
  rw [List.mem_cons,consistent.mem_below selector depth stored deep]
  constructor
  · rintro (rfl | ⟨found,known,under,-,clear⟩)
    · refine ⟨entry,stored,List.prefix_rfl,?_⟩
      intro between middle there above shorter apart
      have equal := above.eq_of_length (Nat.le_antisymm above.length_le shorter.length_le)
      exact absurd (consistent.names.distinct between other middle.key entry.key (keys_of_entry there)
        (keys_of_entry stored) equal.symm) apart
    · exact ⟨found,known,under,clear⟩
  · rintro ⟨found,known,under,clear⟩
    by_cases same : found.name = entry.name
    · exact Or.inl (consistent.names.distinct other root found.key entry.key (keys_of_entry known) (keys_of_entry stored) same)
    · exact Or.inr ⟨found,known,under,same,clear⟩

/-- The enumeration below a root ends, and emits the accepted ones of what is below. -/
theorem Consistent.emits_below (selector : Nat → Bool × Bool) {depth : Nat} {entry : Entry} (stored : tree.entries root = some entry)
    (deep : tree.Deep entry depth) :
    Emits (tree.round selector root) (root,tree.descends selector root) ((tree.below selector depth root).filter fun id => (selector id).1) := by
  obtain ⟨rounds,-,walk⟩ := consistent.walks_below selector stored depth stored (Nat.le_refl _) deep
  have ended := Passes.emits walk (.last (round_root stored))
  rwa [List.append_nil] at ended

/-- The partial enumeration from the entry of a name meets the accepted entries under the name
that no entry above them, from the first one on, cuts off. -/
theorem Consistent.mem_partialEnumerate (selector : Nat → Bool × Bool) {entry : Entry}
    (stored : tree.entries root = some entry) (other : Nat) :
    other ∈ tree.partialEnumerate hashComponent entry.name selector ↔ (selector other).1 = true ∧
      ∃ found, tree.entries other = some found ∧ entry.name <+: found.name ∧
        ∀ between middle, tree.entries between = some middle → entry.name <+: middle.name →
          middle.name <+: found.name → between ≠ other → (selector between).2 = true := by
  obtain ⟨depth,deep⟩ := consistent.exists_deep entry
  obtain ⟨rounds,limit,walk⟩ := consistent.walks_below selector stored depth stored (Nat.le_refl _) deep
  have few : (tree.below selector depth root).length ≤ tree.nextEntry := by
    have inside : tree.below selector depth root ⊆ List.range tree.nextEntry := by
      intro other met
      obtain ⟨found,known,-⟩ := (consistent.mem_below selector depth stored deep other).mp met
      exact List.mem_range.mpr (consistent.names.fresh other found.key (keys_of_entry known))
    have shorter := (List.subperm_of_subset (consistent.below_nodup depth stored deep) inside).length_le
    rwa [List.length_range] at shorter
  have whole : tree.partialEnumerate hashComponent entry.name selector =
      (root :: tree.below selector depth root).filter fun id => (selector id).1 := by
    have found := (consistent.findExactMatch_iff entry.name root).mpr ⟨entry,stored,rfl⟩
    have stop : ∀ fuel, tree.walkSubtree root selector fuel root false = [] := by
      intro fuel
      cases fuel with
      | zero => rfl
      | succ fuel =>
        have ended : tree.advance root selector root false = none := by
          unfold advance
          rw [stored,Option.bind_some,if_neg Bool.false_ne_true,if_pos rfl]
        rw [walkSubtree,ended]
    have met := walkSubtree_of_passes walk (2 * tree.nextEntry + 1 - rounds)
    have total : rounds + (2 * tree.nextEntry + 1 - rounds) = 2 * tree.nextEntry + 1 := by omega
    rw [total,stop,List.append_nil] at met
    unfold partialEnumerate
    rw [found]
    dsimp only [arrive]
    change (if (selector root).1 = true then root :: tree.walkSubtree root selector _ root (tree.descends selector root)
      else tree.walkSubtree root selector _ root (tree.descends selector root)) = _
    rw [met,List.filter_cons]
  rw [whole,List.mem_filter,and_comm]
  exact and_congr_right fun _ => consistent.mem_subtree selector stored deep other

end

end

end Ncfcc.Nfd.NameTree
