import Ncfcc.Utils.TrieIterator

/-! Erasing the payloads of a trie that meet a condition, while the iterator goes through it. After an
erasure it goes on from the node that pruning stopped at, whose children it may meet again: fewer
nodes are left then, and what was met before has passed already. -/
namespace Ncfcc.Utils.Trie
open Ncfcc.Library
variable {κ α : Type} [DecidableEq κ]

/-- What `erase` of a node returns: the node that pruning stops at, from the root down. -/
def survivor : Trie κ α → List κ → List κ
  | _, [] => []
  | node _ _ children, subkey :: rest =>
    match childOf children subkey with
    | none => []
    | some child => if (child.erase rest).dead then [] else subkey :: survivor child rest

/-- The loop of `clear_if` from a node on, none being the end. It is given up after a number of steps. -/
def clearIf (cond : κ → Option α → Bool) : (steps : Nat) → Trie κ α → Option (List κ) → Option (Trie κ α)
  | _, trie, none => some trie
  | 0, _, some _ => none
  | steps + 1, trie, some position =>
    match trie.nodeAt position with
    | none => none
    | some reached =>
      if cond reached.key reached.payload then
        let erased := trie.erase position.reverse
        clearIf cond steps erased (erased.next (trie.survivor position.reverse).reverse)
      else clearIf cond steps trie (trie.next position)

def keyAt (trie : Trie κ α) (path : List κ) : κ := path.getLastD trie.key

private theorem descend_key {trie node : Trie κ α} {path : List κ} (reached : trie.descend path = some node) :
    node.key = trie.keyAt path := by
  unfold keyAt
  induction path generalizing trie with
  | nil => exact congrArg key (Option.some.inj reached).symm
  | cons subkey rest ih =>
    obtain ⟨child,found,further⟩ := Option.bind_eq_some_iff.mp reached
    obtain ⟨-,named⟩ := childOf_some found
    rw [ih further,named,List.getLastD_cons]

/-! What an erasure does to the nodes. -/

private theorem erase_distinct {trie : Trie κ α} (distinct : trie.Distinct) (path : List κ) : (trie.erase path).Distinct := by
  induction path generalizing trie with
  | nil =>
    obtain ⟨own,payload,children,distinct,below⟩ := distinct
    exact .node own none children distinct below
  | cons subkey rest ih =>
    obtain ⟨own,payload,children,distinct,below⟩ := distinct
    unfold erase
    cases found : childOf children subkey with
    | none => exact .node own payload children distinct below
    | some child =>
      obtain ⟨member,named⟩ := childOf_some found
      dsimp only
      split
      · refine .node own payload _ (removeChild_keys distinct) ?_
        intro other inside
        exact below other (List.mem_filter.mp inside).1
      · refine .node own payload _ (by rw [setChild_keys _ ((erase_key child rest).trans named)]; exact distinct) ?_
        intro other inside
        obtain ⟨old,before,rfl⟩ := List.mem_map.mp inside
        split
        · exact ih (below child member)
        · exact below old before

private theorem children_split {children : List (Trie κ α)} {child : Trie κ α} {subkey : κ} (distinct : (children.map key).Nodup)
    (found : childOf children subkey = some child) : ∃ front back, children = front ++ child :: back ∧
      removeChild children subkey = front ++ back ∧
      ∀ changed, setChild children subkey changed = front ++ changed :: back := by
  obtain ⟨member,rfl⟩ := childOf_some found
  obtain ⟨front,back,rfl⟩ := List.append_of_mem member
  have others : ∀ other ∈ front ++ back, other.key ≠ child.key := by
    intro other inside same
    rw [List.map_append,List.map_cons,List.nodup_middle,List.nodup_cons,← List.map_append] at distinct
    exact distinct.1 (same ▸ List.mem_map_of_mem inside)
  have fixed : ∀ part : List (Trie κ α), (∀ other ∈ part, other.key ≠ child.key) →
      removeChild part child.key = part ∧ ∀ changed, setChild part child.key changed = part := by
    intro part apart
    refine ⟨List.filter_eq_self.mpr fun other inside => decide_eq_true (apart other inside),?_⟩
    intro changed
    refine (List.map_congr_left ?_).trans (List.map_id part)
    intro other inside
    exact if_neg (apart other inside)
  obtain ⟨left,leftSet⟩ := fixed front fun other inside => others other (List.mem_append_left back inside)
  obtain ⟨right,rightSet⟩ := fixed back fun other inside => others other (List.mem_append_right front inside)
  refine ⟨front,back,rfl,?_,?_⟩
  · unfold removeChild at left right ⊢
    rw [List.filter_append,List.filter_cons_of_neg (by simp),left,right]
  · intro changed
    have first := leftSet changed
    have second := rightSet changed
    unfold setChild at first second ⊢
    rw [List.map_append,List.map_cons,first,second,if_pos rfl]

private theorem erase_of_child (own : κ) (payload : Option α) {children : List (Trie κ α)} {child : Trie κ α} {subkey : κ}
    (found : childOf children subkey = some child) (rest : List κ) :
    (node own payload children).erase (subkey :: rest) = node own payload
      (if (child.erase rest).dead then removeChild children subkey else setChild children subkey (child.erase rest)) := by
  rw [erase,found]

private theorem survivor_of_child (own : κ) (payload : Option α) {children : List (Trie κ α)} {child : Trie κ α} {subkey : κ}
    (found : childOf children subkey = some child) (rest : List κ) :
    (node own payload children).survivor (subkey :: rest) =
      if (child.erase rest).dead then [] else subkey :: child.survivor rest := by
  rw [survivor,found]

/-- The nodes before and after an erasure: none is removed, or the iterator goes back to a node it met
and nothing comes before that node that did not before. -/
theorem positions_erase {trie node : Trie κ α} (distinct : trie.Distinct) {path : List κ} (reached : trie.descend path = some node)
    (up : List κ) : ∃ before after before' after',
      trie.positions up = before ++ (path.reverse ++ up) :: after ∧
      (trie.erase path).positions up = before' ++ ((trie.survivor path).reverse ++ up) :: after' ∧
      (trie.survivor path = path ∧ before' = before ∧ after' = after ∨
        (trie.survivor path).reverse ++ up ∈ before ∧ before' ⊆ before ∧
          ((trie.erase path).positions up).length < (trie.positions up).length) := by
  induction path generalizing trie up with
  | nil =>
    obtain ⟨own,payload,children⟩ := trie
    exact ⟨[],positions.positionsOf up children,[],positions.positionsOf up children,rfl,rfl,Or.inl ⟨rfl,rfl,rfl⟩⟩
  | cons subkey rest ih =>
    obtain ⟨own,payload,children,distinct,below⟩ := distinct
    obtain ⟨child,found,further⟩ := Option.bind_eq_some_iff.mp reached
    rw [Trie.children] at found
    obtain ⟨member,named⟩ := childOf_some found
    obtain ⟨front,back,split,removed,replaced⟩ := children_split distinct found
    obtain ⟨before,after,before',after',old,new,cases⟩ := ih (below child member) further (subkey :: up)
    have whole : (Trie.node own payload children).positions up =
        (up :: positions.positionsOf up front ++ before) ++ ((subkey :: rest).reverse ++ up) ::
          (after ++ positions.positionsOf up back) := by
      rw [positions,split,positionsOf_append,positions.positionsOf,named,old]
      simp
    rw [erase_of_child own payload found,survivor_of_child own payload found]
    by_cases dead : (child.erase rest).dead = true
    · simp only [dead,↓reduceIte,removed]
      refine ⟨_,_,[],positions.positionsOf up front ++ positions.positionsOf up back,whole,?_,Or.inr ⟨?_,?_,?_⟩⟩
      · rw [positions,positionsOf_append]
        rfl
      · simp
      · simp
      · rw [whole,positions,positionsOf_append]
        simp only [List.length_append,List.length_cons]
        omega
    · simp only [dead,Bool.false_eq_true,↓reduceIte,replaced]
      have kept : (child.erase rest).key = subkey := (erase_key child rest).trans named
      have changed : (Trie.node own payload (front ++ child.erase rest :: back)).positions up =
          (up :: positions.positionsOf up front ++ before') ++ ((subkey :: child.survivor rest).reverse ++ up) ::
            (after' ++ positions.positionsOf up back) := by
        rw [positions,positionsOf_append,positions.positionsOf,kept,new]
        simp
      refine ⟨_,_,_,_,whole,changed,?_⟩
      rcases cases with ⟨same,first,second⟩ | ⟨met,earlier,fewer⟩
      · exact Or.inl ⟨by rw [same],by rw [first],by rw [second]⟩
      · refine Or.inr ⟨?_,?_,?_⟩
        · refine List.mem_append_right _ ?_
          rw [List.reverse_cons,List.append_assoc]
          exact met
        · exact List.append_subset.mpr ⟨List.subset_append_left _ _,fun position inside =>
            List.mem_append_right _ (earlier inside)⟩
        · rw [whole,changed]
          have count := congrArg List.length old
          have counted := congrArg List.length new
          simp only [List.length_append,List.length_cons] at count counted ⊢
          omega

/-! The whole loop. -/

/-- Exactly the payloads that meet the condition are gone, and nodes without payload and children do not remain. -/
structure Cleared (cond : κ → Option α → Bool) (trie cleared : Trie κ α) : Prop where
  get : ∀ path, cleared.get path = (trie.get path).filter fun payload => !cond (trie.keyAt path) (some payload)
  pruned : trie.WellFormed → cleared.WellFormed

def Passed (cond : κ → Option α → Bool) (trie : Trie κ α) (met : List (List κ)) : Prop :=
  ∀ position ∈ met, ∀ payload, trie.get position.reverse = some payload →
    cond (trie.keyAt position.reverse) (some payload) = false

section
variable {cond : κ → Option α → Bool} {trie : Trie κ α}

private theorem keyAt_erase (trie : Trie κ α) (path other : List κ) : (trie.erase path).keyAt other = trie.keyAt other := by
  rw [keyAt,erase_key,keyAt]

theorem Cleared.of_passed (distinct : trie.Distinct) (passed : Passed cond trie (trie.positions [])) :
    Cleared cond trie trie := by
  refine ⟨?_,id⟩
  intro path
  cases stored : trie.get path with
  | none => rfl
  | some payload =>
    obtain ⟨node,reached,-⟩ := Option.bind_eq_some_iff.mp stored
    have there : path.reverse ∈ trie.positions [] := by
      rw [mem_root_positions distinct,nodeAt,List.reverse_reverse,reached]
      rfl
    have kept := passed path.reverse there payload (by rw [List.reverse_reverse]; exact stored)
    rw [List.reverse_reverse] at kept
    rw [Option.filter_some,kept]
    rfl

/-- A payload that is erased meets the condition. -/
theorem Cleared.of_erase {node cleared : Trie κ α} (distinct : trie.Distinct) {path : List κ}
    (reached : trie.descend path = some node) (meets : cond node.key node.payload = true)
    (cleared_rest : Cleared cond (trie.erase path) cleared) : Cleared cond trie cleared := by
  refine ⟨?_,fun wellFormed => cleared_rest.pruned (trie.erase_wellFormed wellFormed path)⟩
  intro other
  rw [cleared_rest.get,get_erase trie distinct,keyAt_erase]
  split
  · rename_i same
    have stored : trie.get other = node.payload := by
      rw [same,Trie.get,reached]
      rfl
    rw [stored]
    cases own : node.payload with
    | none => rfl
    | some payload =>
      rw [own,descend_key reached,← same] at meets
      rw [Option.filter_some,meets]
      rfl
  · rfl

theorem Passed.erase (distinct : trie.Distinct) {met fewer : List (List κ)} (passed : Passed cond trie met)
    (inside : fewer ⊆ met) (path : List κ) : Passed cond (trie.erase path) fewer := by
  intro position member payload stored
  rw [get_erase trie distinct] at stored
  split at stored
  · cases stored
  · rw [keyAt_erase]
    exact passed position (inside member) payload stored

private theorem next_of_split {root : Trie κ α} (distinct : root.Distinct) {before after : List (List κ)} {position : List κ}
    (split : root.positions [] = before ++ position :: after) : root.next position = after.head? := by
  have here : root.nodeAt [] = some root := rfl
  have follows := positions_follow distinct here
  rw [split] at follows
  exact follows.suffix.1.trans Option.or_none

/-- The loop from a node on ends, and what it leaves is right. -/
def Ends (cond : κ → Option α → Bool) (trie : Trie κ α) (position : Option (List κ)) : Prop :=
  ∃ enough, ∀ steps ≥ enough, ∃ cleared, clearIf cond steps trie position = some cleared ∧ Cleared cond trie cleared

theorem Ends.kept {node : Trie κ α} {position : List κ} (reached : trie.nodeAt position = some node)
    (fails : ¬ cond node.key node.payload = true) (ends : Ends cond trie (trie.next position)) :
    Ends cond trie (some position) := by
  obtain ⟨enough,ends⟩ := ends
  refine ⟨enough + 1,?_⟩
  intro steps many
  obtain ⟨fuel,rfl⟩ := Nat.exists_eq_add_of_le' (Nat.le_of_add_left_le many)
  rw [clearIf,reached]
  dsimp only
  rw [if_neg fails]
  exact ends fuel (by omega)

theorem Ends.erased {node : Trie κ α} (distinct : trie.Distinct) {position : List κ} (reached : trie.nodeAt position = some node)
    (meets : cond node.key node.payload = true)
    (ends : Ends cond (trie.erase position.reverse)
      ((trie.erase position.reverse).next (trie.survivor position.reverse).reverse)) :
    Ends cond trie (some position) := by
  obtain ⟨enough,ends⟩ := ends
  refine ⟨enough + 1,?_⟩
  intro steps many
  obtain ⟨fuel,rfl⟩ := Nat.exists_eq_add_of_le' (Nat.le_of_add_left_le many)
  obtain ⟨cleared,result,spec⟩ := ends fuel (by omega)
  refine ⟨cleared,?_,spec.of_erase distinct reached meets⟩
  rw [clearIf,reached]
  dsimp only
  rw [if_pos meets]
  exact result

/-- The loop ends from each node on, once what comes before it has passed. The induction is on the number of
nodes, and for as many nodes on those still ahead. -/
theorem ends_of_passed (cond : κ → Option α → Bool) (size : Nat) (ahead : List (List κ)) (trie : Trie κ α) (met : List (List κ))
    (distinct : trie.Distinct) (split : trie.positions [] = met ++ ahead) (sized : (trie.positions []).length = size)
    (passed : Passed cond trie met) : Ends cond trie ahead.head? := by
  induction size using Nat.strongRecOn generalizing trie met ahead with
  | ind size fewer =>
    induction ahead generalizing trie met with
    | nil =>
      refine ⟨0,fun steps _ => ⟨trie,?_,.of_passed distinct ?_⟩⟩
      · cases steps <;> rfl
      · rw [split,List.append_nil]
        exact passed
    | cons position ahead later =>
      have there : position ∈ trie.positions [] := by
        rw [split]
        exact List.mem_append_right met List.mem_cons_self
      obtain ⟨node,reached⟩ := Option.isSome_iff_exists.mp ((mem_root_positions distinct).mp there)
      by_cases meets : cond node.key node.payload = true
      · -- the loop goes on from the node that pruning stopped at
        apply Ends.erased distinct reached meets
        have good := erase_distinct distinct position.reverse
        obtain ⟨before,after,before',after',old,new,cases⟩ := positions_erase distinct reached []
        rw [List.append_nil] at new cases
        rw [List.reverse_reverse,List.append_nil] at old
        rw [next_of_split good new]
        have fresh := (List.nodup_cons.mp (List.nodup_middle.mp (split ▸ positions_nodup distinct []))).1
        obtain ⟨first,-,second⟩ := (List.append_cons_inj_of_notMem (fun inside => fresh (List.mem_append_left _ inside))
          (fun inside => fresh (List.mem_append_right _ inside))).mp (split.symm.trans old)
        subst first second
        rcases cases with ⟨same,left,right⟩ | ⟨back,earlier,shorter⟩
        · rw [same,List.reverse_reverse,left,right] at new
          rw [right]
          refine later (trie.erase position.reverse) (met ++ [position]) good (by rw [new]; simp) ?_ ?_
          · rw [new,← split]
            exact sized
          · intro other inside payload stored
            rcases List.mem_append.mp inside with old | own
            · exact passed.erase distinct (List.Subset.refl met) position.reverse other old payload stored
            · rw [List.mem_singleton.mp own,get_erase trie distinct,if_pos rfl] at stored
              cases stored
        · refine fewer _ (sized ▸ shorter) after' (trie.erase position.reverse)
            (before' ++ [(trie.survivor position.reverse).reverse]) good (by rw [new]; simp) rfl ?_
          apply passed.erase distinct
          exact List.append_subset.mpr ⟨earlier,List.cons_subset.mpr ⟨back,List.nil_subset _⟩⟩
      · apply Ends.kept reached meets
        rw [next_of_split distinct split]
        refine later trie (met ++ [position]) distinct (by rw [split]; simp) sized ?_
        intro other inside payload stored
        rcases List.mem_append.mp inside with old | own
        · exact passed other old payload stored
        · rw [List.mem_singleton.mp own] at stored ⊢
          have held : node.payload = some payload := by
            rw [get,show trie.descend position.reverse = some node from reached] at stored
            exact stored
          rw [descend_key reached,held] at meets
          exact Bool.eq_false_iff.mpr meets

end

/-- `clear_if` on the root ends, and removes exactly the payloads of the nodes that meet the condition. -/
theorem clearIf_clears (cond : κ → Option α → Bool) (trie : Trie κ α) (distinct : trie.Distinct) :
    ∃ enough, ∀ steps ≥ enough, ∃ cleared, clearIf cond steps trie (some []) = some cleared ∧ Cleared cond trie cleared := by
  have none : Passed cond trie [] := fun _ inside => absurd inside List.not_mem_nil
  have ends := ends_of_passed cond _ (trie.positions []) trie [] distinct rfl rfl none
  rw [head_positions] at ends
  exact ends

def letters : Trie Nat Nat := .node 0 none [.node 1 (some 1) [.node 2 none [.node 3 (some 3) []]],.node 4 (some 4) []]

private theorem letters_distinct : letters.Distinct := by
  refine .node _ _ _ (by decide) ?_
  intro child inside
  rcases List.mem_pair.mp inside with rfl | rfl
  · refine .node _ _ _ (by decide) ?_
    intro below inside
    rw [List.mem_singleton.mp inside]
    refine .node _ _ _ (by decide) ?_
    intro leaf inside
    rw [List.mem_singleton.mp inside]
    exact .node _ _ _ List.nodup_nil fun _ nothing => absurd nothing List.not_mem_nil
  · exact .node _ _ _ List.nodup_nil fun _ nothing => absurd nothing List.not_mem_nil

theorem clearIf_letters : ∃ enough, ∀ steps ≥ enough, ∃ cleared,
    clearIf (fun _ payload => payload.any (2 < ·)) steps letters (some []) = some cleared ∧
      Cleared (fun _ payload => payload.any (2 < ·)) letters cleared :=
  clearIf_clears _ letters letters_distinct

end Ncfcc.Utils.Trie
