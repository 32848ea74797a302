import Ncfcc.Cs.HandedNodes
import Ncfcc.Utils.TrieIterator

/-! Going through a content store from `Begin` on. An entry knows its node, from which the iterator of
the trie goes on to the next one with an entry. -/
namespace Ncfcc.Cs
open Ncfcc.Library Ncfcc.Utils

namespace ContentStoreImpl
variable (store : ContentStoreImpl)

/-- The first entry, null if there is none. The loop inside is given up after a number of steps. -/
def begin (steps : Nat) : Option (Option Entry) := (store.trie.seek steps (some [])).map fun item => item.map Prod.snd

/-- `Next`, from the node of the entry, at which the entry was added. -/
def nextEntry (steps : Nat) (entry : Entry) : Option (Option Entry) :=
  (store.trie.seek steps (store.trie.next entry.data.name.reverse)).map fun item => item.map Prod.snd

/-- The entries met from one on, until null, in at most so many calls of `Next`. -/
def enumerateFrom (steps : Nat) : (calls : Nat) → Option Entry → Option (List Entry)
  | _, none => some []
  | 0, some _ => none
  | calls + 1, some entry =>
    (store.nextEntry steps entry).bind fun after => (enumerateFrom steps calls after).map fun rest => entry :: rest

def enumerate (steps calls : Nat) : Option (List Entry) := (store.begin steps).bind (store.enumerateFrom steps calls)

section
variable {store : ContentStoreImpl}

private theorem enumerateFrom_of_follows (named : ∀ path entry, store.trie.get path = some entry → entry.data.name = path)
    {rest : List (List Component)} (follows : Follows store.trie.next none rest) {steps calls : Nat}
    (enough : rest.length ≤ steps) (often : rest.length ≤ calls) :
    store.enumerateFrom steps calls ((rest.findSome? store.trie.itemAt).map Prod.snd) =
      some (rest.filterMap fun position => store.trie.get position.reverse) := by
  induction rest generalizing calls with
  | nil => cases calls <;> rfl
  | cons position rest ih =>
    obtain ⟨followed,later⟩ := follows
    rw [List.length_cons] at enough often
    rw [List.findSome?_cons,List.filterMap_cons,Trie.itemAt]
    cases stored : store.trie.get position.reverse with
    | none =>
      rw [show (store.trie.nodeAt position).bind Trie.payload = none from stored]
      exact ih later (by omega) (by omega)
    | some entry =>
      rw [show (store.trie.nodeAt position).bind Trie.payload = some entry from stored]
      cases calls with
      | zero => exact absurd often (Nat.not_succ_le_zero _)
      | succ calls =>
        have own : entry.data.name.reverse = position := by
          rw [named _ entry stored,List.reverse_reverse]
        dsimp only [Option.map_some]
        rw [enumerateFrom,nextEntry,own,followed,Option.or_none,Trie.seek_of_follows later (by omega),Option.map_some,
          Option.bind_some,ih later (by omega) (by omega)]
        rfl

end

/-- Every entry of a store is met once between `Begin` and null. -/
theorem enumerate_visits (kind : StoreClass) (replacement : Replacement) (store : ContentStoreImpl)
    (reachable : Reachable kind replacement store) :
    ∃ visited : List Entry, visited.Nodup ∧ (∀ entry, entry ∈ visited ↔ store.Stored entry) ∧
      ∃ enough, ∀ steps ≥ enough, ∀ calls ≥ enough, store.enumerate steps calls = some visited := by
  obtain ⟨sound,-⟩ := reachable_sound reachable
  have distinct := sound.wellFormed.distinct
  have here : store.trie.nodeAt [] = some store.trie := rfl
  have follows : Follows store.trie.next none (store.trie.positions []) := Trie.positions_follow distinct here
  refine ⟨(store.trie.positions []).filterMap fun position => store.trie.get position.reverse,?_,?_,
    (store.trie.positions []).length,?_⟩
  · refine (Trie.positions_nodup distinct []).filterMap ?_
    intro first second entry here there
    have same := (sound.named _ entry here).symm.trans (sound.named _ entry there)
    exact List.reverse_injective same
  · intro entry
    rw [List.mem_filterMap]
    constructor
    · rintro ⟨position,-,stored⟩
      rw [Stored,sound.named _ entry stored]
      exact stored
    · intro stored
      refine ⟨entry.data.name.reverse,?_,by rw [List.reverse_reverse]; exact stored⟩
      rw [Trie.mem_root_positions distinct,Trie.nodeAt,List.reverse_reverse]
      obtain ⟨node,reached,-⟩ := Option.bind_eq_some_iff.mp stored
      exact Option.isSome_iff_exists.mpr ⟨node,reached⟩
  · intro steps enough calls often
    have first := Trie.seek_of_follows follows enough
    rw [Trie.head_positions] at first
    rw [enumerate,begin,first,Option.map_some,Option.bind_some]
    exact enumerateFrom_of_follows sound.named follows enough often

theorem enumerate_filled : ∃ visited : List Entry, visited.Nodup ∧ (∀ entry, entry ∈ visited ↔ filled.Stored entry) ∧
    ∃ enough, ∀ steps ≥ enough, ∀ calls ≥ enough, filled.enumerate steps calls = some visited :=
  enumerate_visits .impl .lru filled ⟨[.add ⟨0,0,true⟩ inOrder (letter 97 0)],rfl⟩

example : (filled.enumerate 3 3).map List.length = some 1 := by decide

end ContentStoreImpl

end Ncfcc.Cs
