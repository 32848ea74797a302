import Mathlib.Data.Set.Finite.Basic
import Ncfcc.Library.Run
import Ncfcc.Utils.Trie

/-! A trie with a policy beside it that never evicts, and the finite map from keys to
payloads that it stands for. The empty payload is no payload: what is inserted is
always a payload. -/
namespace Ncfcc.Utils
open Ncfcc.Library

/-- A policy that calls no `erase` of its own. It may refuse an item. -/
structure KeepingPolicy (κ α : Type) where
  State : Type
  initial : State
  insert : State → List κ → α → Bool × State
  lookup : State → List κ → State
  erase : State → List κ → State

structure TrieWithPolicy {κ α : Type} (policy : KeepingPolicy κ α) where
  trie : Trie κ α
  state : policy.State

namespace TrieWithPolicy
variable {κ α : Type} [DecidableEq κ] {policy : KeepingPolicy κ α}

/-- The root has a key of its own, which nothing looks at. -/
def empty (root : κ) : TrieWithPolicy policy := ⟨.node root none [],policy.initial⟩

/-- The iterator returned is the path of its node, `none` the one past the end. -/
def insert (store : TrieWithPolicy policy) (layout : Trie.Layout κ α) (key : List κ) (payload : α) :
    (Option (List κ) × Bool) × TrieWithPolicy policy :=
  let (inserted,trie) := store.trie.insert layout key payload
  if inserted then
    let (ok,state) := policy.insert store.state key payload
    if ok then ((some key,true),⟨trie,state⟩) else ((none,false),⟨trie.erase key,state⟩)
  else ((some key,false),⟨trie,store.state⟩)

def eraseNode (store : TrieWithPolicy policy) : Option (List κ) → TrieWithPolicy policy
  | none => store
  | some path => ⟨store.trie.erase path,policy.erase store.state path⟩

def erase (store : TrieWithPolicy policy) (key : List κ) : TrieWithPolicy policy :=
  let result := store.trie.find key
  if !result.reachLast || result.last.payload.isNone then store else store.eraseNode (some result.path)

def findExact (store : TrieWithPolicy policy) (key : List κ) : Option (List κ × α) :=
  let result := store.trie.find key
  if !result.reachLast then none else result.last.payload.map fun payload => (result.path,payload)

def longestPrefixMatch (store : TrieWithPolicy policy) (key : List κ) :
    Option (List κ × α) × TrieWithPolicy policy :=
  match (store.trie.find key).found with
  | none => (none,store)
  | some (path,payload) => (some (path,payload),⟨store.trie,policy.lookup store.state path⟩)

inductive Operation (κ α : Type) where
  | insert (layout : Trie.Layout κ α) (key : List κ) (payload : α)
  | erase (key : List κ)
  /-- The node is given by its path, `none` being the iterator past the end. -/
  | eraseNode (node : Option (List κ))
  | longestPrefixMatch (key : List κ)

def step (store : TrieWithPolicy policy) : Operation κ α → TrieWithPolicy policy
  | .insert layout key payload => (store.insert layout key payload).2
  | .erase key => store.erase key
  | .eraseNode node => store.eraseNode node
  | .longestPrefixMatch key => (store.longestPrefixMatch key).2

def accepts (store : TrieWithPolicy policy) : Operation κ α → Bool
  | .insert _ key payload => (policy.insert store.state key payload).1
  | _ => true

/-! The finite map. -/

def mapStep (accepted : Bool) (map : List κ → Option α) : Operation κ α → List κ → Option α
  | .insert _ key payload =>
    if accepted && (map key).isNone then Function.update map key (some payload) else map
  | .erase key => Function.update map key none
  | .eraseNode (some path) => Function.update map path none
  | .eraseNode none => map
  | .longestPrefixMatch _ => map

/-- The stored entry whose key is the longest stored prefix. -/
def LongestStored (map : List κ → Option α) (key : List κ) : Option (List κ × α) → Prop
  | none => ∀ below, below <+: key → map below = none
  | some (path,payload) => path <+: key ∧ map path = some payload ∧
    ∀ other, other <+: key → map other ≠ none → other.length ≤ path.length

/-- The searches answer as the map says, and no node but the root is without payload
and children. -/
structure Refines (map : List κ → Option α) (store : TrieWithPolicy policy) : Prop where
  finite : {key | map key ≠ none}.Finite
  exact : ∀ key, store.findExact key = (map key).map fun payload => (key,payload)
  longest : ∀ key, LongestStored map key (store.longestPrefixMatch key).1
  pruned : store.trie.WellFormed

/-- An insertion at an occupied key changes nothing and reports false; any other
reports what the policy says. -/
def Reports (map : List κ → Option α) (store : TrieWithPolicy policy) : Operation κ α → Prop
  | .insert layout key payload =>
    (map key ≠ none → store.insert layout key payload = ((some key,false),store)) ∧
      (map key = none → (store.insert layout key payload).1.2 =
        store.accepts (.insert layout key payload))
  | _ => True

private theorem find_get (trie : Trie κ α) (key : List κ) :
    (if !(trie.find key).reachLast then none
      else (trie.find key).last.payload.map fun payload => ((trie.find key).path,payload)) =
      (trie.get key).map fun payload => (key,payload) := by
  obtain ⟨walked,reaches⟩ := trie.find_last key
  rw [walked,Trie.get]
  cases reached : trie.descend key with
  | none => rfl
  | some node =>
    obtain ⟨last,path⟩ := reaches node reached
    rw [last,path]
    rfl

private theorem refines_of_get (store : TrieWithPolicy policy) (wellFormed : store.trie.WellFormed)
    (finite : {key | store.trie.get key ≠ none}.Finite) : Refines store.trie.get store := by
  refine ⟨finite,fun key => find_get store.trie key,?_,wellFormed⟩
  intro key
  unfold longestPrefixMatch
  rcases store.trie.find_found key with ⟨none,nothing⟩ | ⟨below,payload,found,inside,stored,longest⟩
  · rw [none]
    exact nothing
  · rw [found]
    exact ⟨inside,stored,longest⟩

structure Represents (map : List κ → Option α) (store : TrieWithPolicy policy) : Prop where
  finite : {key | map key ≠ none}.Finite
  get : store.trie.get = map
  wellFormed : store.trie.WellFormed

theorem Represents.refines {map : List κ → Option α} {store : TrieWithPolicy policy}
    (represents : Represents map store) : Refines map store := by
  have refines := refines_of_get store represents.wellFormed (by rw [represents.get]; exact represents.finite)
  rw [represents.get] at refines
  exact refines

private theorem finite_update {map : List κ → Option α} (finite : {key | map key ≠ none}.Finite) (key : List κ)
    (value : Option α) : {other | Function.update map key value other ≠ none}.Finite := by
  apply (finite.insert key).subset
  intro other stored
  by_cases same : other = key
  · exact Or.inl same
  · refine Or.inr ?_
    rw [Set.mem_ofPred_eq,Function.update_of_ne same] at stored
    exact stored

private theorem represents_eraseNode {map : List κ → Option α} {store : TrieWithPolicy policy}
    (represents : Represents map store) (path : List κ) :
    Represents (Function.update map path none) (store.eraseNode (some path)) where
  finite := finite_update represents.finite path none
  get := by
    rw [← represents.get]
    exact Trie.get_erase_update store.trie represents.wellFormed path
  wellFormed := store.trie.erase_wellFormed represents.wellFormed path

private theorem represents_erase {map : List κ → Option α} {store : TrieWithPolicy policy}
    (represents : Represents map store) (key : List κ) :
    Represents (Function.update map key none) (store.erase key) := by
  obtain ⟨walked,reaches⟩ := store.trie.find_last key
  have stored : map key = (store.trie.descend key).bind Trie.payload := by
    rw [← represents.get]
    rfl
  unfold erase
  cases reached : store.trie.descend key with
  | none =>
    rw [reached] at walked stored
    have absent : Function.update map key none = map := by
      rw [← show map key = none from stored]
      exact Function.update_eq_self key map
    rw [absent]
    simpa [walked] using represents
  | some node =>
    obtain ⟨last,path⟩ := reaches node reached
    rw [reached] at walked stored
    dsimp only
    rw [last,path,walked]
    cases here : node.payload with
    | none =>
      have absent : Function.update map key none = map := by
        rw [← show map key = none from stored.trans here]
        exact Function.update_eq_self key map
      rw [absent]
      exact represents
    | some payload => exact represents_eraseNode represents key

theorem insert_cases {map : List κ → Option α} {store : TrieWithPolicy policy}
    (represents : Represents map store) (layout : Trie.Layout κ α) (key : List κ) (payload : α) :
    Represents (mapStep (store.accepts (.insert layout key payload)) map (.insert layout key payload))
        (store.insert layout key payload).2 ∧ Reports map store (.insert layout key payload) := by
  cases stored : map key with
  | some old =>
    have same : store.insert layout key payload = ((some key,false),store) := by
      have kept := store.trie.insert_occupied layout represents.wellFormed key old payload
        (by rw [represents.get]; exact stored)
      simp only [insert,kept,Bool.false_eq_true,↓reduceIte]
    have unchanged : mapStep (store.accepts (.insert layout key payload)) map (.insert layout key payload) = map := by
      simp [mapStep,stored]
    rw [unchanged,same]
    refine ⟨represents,fun _ => same,?_⟩
    intro free
    rw [free] at stored
    cases stored
  | none =>
    have free : store.trie.get key = none := by rw [represents.get]; exact stored
    obtain ⟨inserted,after⟩ := Trie.get_insert_update layout store.trie represents.wellFormed key payload free
    have whole := store.trie.insert_wellFormed layout represents.wellFormed key payload
    rw [represents.get] at after
    cases taken : (policy.insert store.state key payload).1 with
    | true =>
      have done : store.insert layout key payload = ((some key,true),
          ⟨(store.trie.insert layout key payload).2,(policy.insert store.state key payload).2⟩) := by
        simp only [insert,inserted,taken,↓reduceIte]
      have grown : mapStep (store.accepts (.insert layout key payload)) map (.insert layout key payload) =
          Function.update map key (some payload) := by
        simp [mapStep,accepts,taken,stored]
      rw [done,grown]
      refine ⟨⟨finite_update represents.finite key _,after,whole⟩,fun occupied => absurd stored occupied,?_⟩
      intro _
      rw [done]
      exact taken.symm
    | false =>
      have done : store.insert layout key payload = ((none,false),
          ⟨(store.trie.insert layout key payload).2.erase key,(policy.insert store.state key payload).2⟩) := by
        simp only [insert,inserted,taken,↓reduceIte,Bool.false_eq_true]
      have kept : mapStep (store.accepts (.insert layout key payload)) map (.insert layout key payload) = map := by
        simp [mapStep,accepts,taken]
      rw [done,kept]
      refine ⟨⟨represents.finite,?_,Trie.erase_wellFormed _ whole key⟩,fun occupied => absurd stored occupied,?_⟩
      · change ((store.trie.insert layout key payload).2.erase key).get = map
        rw [Trie.get_erase_update _ whole,after,Function.update_idem,← stored,Function.update_eq_self]
      · intro _
        rw [done]
        exact taken.symm

def mapped (pair : TrieWithPolicy policy × (List κ → Option α)) (operation : Operation κ α) :
    TrieWithPolicy policy × (List κ → Option α) :=
  (pair.1.step operation,mapStep (pair.1.accepts operation) pair.2 operation)

private theorem represents_step (pair : TrieWithPolicy policy × (List κ → Option α)) (operation : Operation κ α)
    (represents : Represents pair.2 pair.1) :
    Represents (mapped pair operation).2 (mapped pair operation).1 := by
  cases operation with
  | insert layout key payload => exact (insert_cases represents layout key payload).1
  | erase key => exact represents_erase represents key
  | eraseNode node =>
    cases node with
    | none => exact represents
    | some path => exact represents_eraseNode represents path
  | longestPrefixMatch key =>
    have kept : (pair.1.longestPrefixMatch key).2.trie = pair.1.trie := by
      unfold longestPrefixMatch
      split <;> rfl
    refine ⟨represents.finite,?_,?_⟩
    · change (pair.1.longestPrefixMatch key).2.trie.get = _
      rw [kept]
      exact represents.get
    · change (pair.1.longestPrefixMatch key).2.trie.WellFormed
      rw [kept]
      exact represents.wellFormed

private theorem empty_represents (root : κ) : Represents (fun _ => none) (empty root : TrieWithPolicy policy) where
  finite := by simp
  get := by
    funext key
    exact Trie.get_dead _ rfl key
  wellFormed := .node root none [] List.nodup_nil (fun _ member => absurd member List.not_mem_nil)
    (fun _ member => absurd member List.not_mem_nil)

end TrieWithPolicy

end Ncfcc.Utils
