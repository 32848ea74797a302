import Ncfcc.Cs.AddOutcomes
import Ncfcc.Cs.Lookup

/-! What a lookup hands to the policies: the node it found, which is expected to be an entry. The search
below the node it walked to finds one because only the root may be without entries, which is
so for a name without components and an empty store. -/
namespace Ncfcc.Cs
open Ncfcc.Library Ncfcc.Utils

namespace ContentStoreImpl

/-- The iterator that the policies are called with, if they are called; none inside is the end. -/
def handed (store : ContentStoreImpl) (interest : Interest) : Option (Option (Name × Entry)) :=
  if interest.exclude.empty then deepestPrefixMatch store.trie interest.name
  else deepestPrefixMatchIfNextLevel store.trie interest.name
    fun component => !interest.exclude.isExcluded component

/-- A node with a payload, in the container of the first policy and of every other that controls it. -/
structure Contained (store : ContentStoreImpl) (name : Name) (entry : Entry) : Prop where
  payload : store.trie.get name = some entry
  first : ∀ member ∈ store.policies.head?, name ∈ member.names
  controlled : ∀ member ∈ store.policies, member.traits.controls entry = true → name ∈ member.names

def HandsNodes (store : ContentStoreImpl) (interest : Interest) : Prop :=
  ∀ item, store.handed interest = some item → ∃ name entry, item = some (name,entry) ∧ store.Contained name entry

section
variable {store : ContentStoreImpl}

def touched (store : ContentStoreImpl) (path : Name) : ContentStoreImpl :=
  { store with policies := store.policies.map (MemberPolicy.lookup · path) }

theorem lookup_eq (store : ContentStoreImpl) (interest : Interest) : store.lookup interest =
    match store.handed interest with
    | none => some (none,store)
    | some none => if store.policies.any (fun member => member.traits.dereferences) then none else some (none,store)
    | some (some (path,entry)) => some (some entry,store.touched path) := rfl

/-- Without an Exclude the end comes from the root of an empty store, and everything else is an entry. -/
theorem deepestPrefixMatch_spec {trie : Trie Component Entry} (wellFormed : trie.WellFormed) (name : Name) :
    (deepestPrefixMatch trie name = some none ↔ name = [] ∧ ∀ other, trie.get other = none) ∧
      ∀ path entry, deepestPrefixMatch trie name = some (some (path,entry)) → trie.get path = some entry := by
  obtain ⟨walked,reaches⟩ := trie.find_last name
  unfold deepestPrefixMatch
  dsimp only
  cases at_end : trie.descend name with
  | none =>
    rw [at_end] at walked
    rw [if_neg (by rw [walked]; exact Bool.false_ne_true)]
    refine ⟨iff_of_false (by simp) ?_,fun path entry impossible => by cases impossible⟩
    rintro ⟨rfl,-⟩
    cases at_end
  | some node =>
    rw [at_end,Option.isSome_some] at walked
    obtain ⟨last,path⟩ := reaches node at_end
    obtain ⟨good,root_or_live⟩ := Trie.descend_wellFormed wellFormed at_end
    rw [if_pos walked,last,path]
    rcases trie.find_found name with ⟨nothing,-⟩ | ⟨above,entry,found,-,stored,-⟩
    · rw [nothing]
      cases first : node.first with
      | none =>
        have dead := (node.first_spec good).1 first
        have root : name = [] := by
          rcases root_or_live with root | live
          · exact root
          · rw [dead] at live
            cases live
        refine ⟨iff_of_true rfl ⟨root,?_⟩,fun path entry impossible => by cases impossible⟩
        intro other
        rw [root] at at_end
        exact (Trie.get_append at_end other).trans (Trie.get_dead node dead other)
      | some item =>
        obtain ⟨rest,entry⟩ := item
        have stored := (Trie.get_append at_end rest).trans ((node.first_spec good).2 rest entry first)
        refine ⟨iff_of_false (by simp) ?_,?_⟩
        · rintro ⟨-,empty⟩
          rw [empty] at stored
          cases stored
        · intro path other same
          cases same
          exact stored
    · rw [found]
      refine ⟨iff_of_false (by simp) ?_,?_⟩
      · rintro ⟨-,empty⟩
        rw [empty] at stored
        cases stored
      · intro path other same
        cases same
        exact stored

/-- With an Exclude the end is never handed on. -/
theorem deepestPrefixMatchIfNextLevel_spec {trie : Trie Component Entry} (wellFormed : trie.WellFormed) (name : Name)
    (test : Component → Bool) {item : Option (Name × Entry)}
    (matched : deepestPrefixMatchIfNextLevel trie name test = some item) :
    ∃ path entry, item = some (path,entry) ∧ trie.get path = some entry := by
  obtain ⟨walked,reaches⟩ := trie.find_last name
  unfold deepestPrefixMatchIfNextLevel at matched
  dsimp only at matched
  cases at_end : trie.descend name with
  | none =>
    rw [at_end] at walked
    rw [if_neg (by rw [walked]; exact Bool.false_ne_true)] at matched
    cases matched
  | some node =>
    rw [at_end,Option.isSome_some] at walked
    obtain ⟨last,path⟩ := reaches node at_end
    obtain ⟨good,-⟩ := Trie.descend_wellFormed wellFormed at_end
    rw [if_pos walked,last,path] at matched
    rcases node.findIfNextLevel_spec good test with ⟨missing,-⟩ | ⟨component,rest,entry,-,found,stored⟩
    · rw [missing] at matched
      cases matched
    · rw [found] at matched
      cases matched
      exact ⟨_,entry,rfl,(Trie.get_append at_end (component :: rest)).trans stored⟩

/-- What is handed on is the end for the empty name of an empty store and an entry otherwise. -/
theorem handed_spec (sound : store.Sound) (interest : Interest) :
    (store.handed interest = some none ↔
      interest.exclude.empty = true ∧ interest.name = [] ∧ ∀ name, store.trie.get name = none) ∧
    ∀ path entry, store.handed interest = some (some (path,entry)) → store.trie.get path = some entry := by
  unfold handed
  cases plain : interest.exclude.empty with
  | true =>
    obtain ⟨atEnd,found⟩ := deepestPrefixMatch_spec sound.wellFormed interest.name
    rw [if_pos rfl,and_iff_right rfl]
    exact ⟨atEnd,found⟩
  | false =>
    rw [if_neg Bool.false_ne_true]
    constructor
    · refine iff_of_false ?_ (by simp)
      intro matched
      obtain ⟨path,entry,impossible,-⟩ := deepestPrefixMatchIfNextLevel_spec sound.wellFormed interest.name _ matched
      cases impossible
    · intro path entry matched
      obtain ⟨path,entry,same,stored⟩ := deepestPrefixMatchIfNextLevel_spec sound.wellFormed interest.name _ matched
      cases same
      exact stored

private theorem contained_of_get (sound : store.Sound) {kind : StoreClass} {replacement : Replacement}
    (traits : store.traits = kind.traits replacement) {name : Name} {entry : Entry}
    (stored : store.trie.get name = some entry) : store.Contained name entry := by
  refine ⟨stored,?_,?_⟩
  · intro member first
    apply ((sound.holds member (List.mem_of_head? first)).exactly name).mpr
    refine ⟨entry,stored,?_⟩
    have heads : (kind.traits replacement).head? = some member.traits := by
      rw [← traits,ContentStoreImpl.traits,List.head?_map,first]
      rfl
    cases kind <;> cases replacement <;> exact Option.some.inj heads ▸ rfl
  · intro member inside controls
    exact ((sound.holds member inside).exactly name).mpr ⟨entry,stored,controls⟩

end

/-- A lookup hands entries to the policies, and nothing else, except for an Interest with the empty name and
without an Exclude while nothing is stored. -/
theorem handsNodes_iff_filled (kind : StoreClass) (replacement : Replacement) (store : ContentStoreImpl)
    (reachable : Reachable kind replacement store) (interest : Interest) :
    store.HandsNodes interest ↔
      ¬ (interest.exclude.empty = true ∧ interest.name = [] ∧ ∀ name, store.trie.get name = none) := by
  obtain ⟨sound,traits⟩ := reachable_sound reachable
  obtain ⟨atEnd,found⟩ := handed_spec sound interest
  rw [← atEnd]
  constructor
  · intro hands ended
    obtain ⟨name,entry,impossible,-⟩ := hands none ended
    cases impossible
  · intro inside item handed
    cases item with
    | none => exact absurd handed inside
    | some node =>
      obtain ⟨name,entry⟩ := node
      exact ⟨name,entry,rfl,contained_of_get sound traits (found name entry handed)⟩

def anything : Interest := ⟨[],noExclude⟩

def filled : ContentStoreImpl := ((new (StoreClass.impl.traits .lru)).add ⟨0,0,true⟩ inOrder (letter 97 0)).2

theorem handsNodes_filled : Reachable .impl .lru filled ∧ filled.HandsNodes anything := by
  have reached : Reachable .impl .lru filled := ⟨[.add ⟨0,0,true⟩ inOrder (letter 97 0)],rfl⟩
  refine ⟨reached,(handsNodes_iff_filled .impl .lru filled reached anything).mpr ?_⟩
  rintro ⟨-,-,empty⟩
  have stored : (filled.trie.get [[97]]).isSome := rfl
  rw [empty] at stored
  cases stored

/-- In a new store and in one that was emptied the end is handed to the policies. -/
theorem emptyStores_hand_end :
    (Reachable .impl .lru (new (StoreClass.impl.traits .lru)) ∧ ¬ (new (StoreClass.impl.traits .lru)).HandsNodes anything) ∧
      Reachable .freshness .lru emptied ∧ ¬ emptied.HandsNodes anything := by
  have ended : ∀ store : ContentStoreImpl, store.handed anything = some none → ¬ store.HandsNodes anything := by
    intro store handed hands
    obtain ⟨name,entry,impossible,-⟩ := hands none handed
    cases impossible
  exact ⟨⟨⟨[],rfl⟩,ended _ rfl⟩,⟨evictedAndExpired,rfl⟩,ended _ rfl⟩

end ContentStoreImpl

end Ncfcc.Cs
