import Ncfcc.Cs.Policies

/-! What a lookup answers, against the Data that are stored. The walk down the trie
remembers the last entry it met, so an entry above the name asked for hides those
below it. -/
namespace Ncfcc.Cs
open Ncfcc.Utils
variable {policy : Policy}

def ContentStore.get (store : ContentStore policy) (name : Name) : Option Data := store.trie.get name

def Stored (store : ContentStore policy) (data : Data) : Prop := ∃ name, store.get name = some data

/-- The names that satisfy an Interest. Under an Exclude a name equal to the Interest's has no
component to test; `exactCounts` says whether it then satisfies the Interest. -/
def Satisfies (exactCounts : Bool) (interest : Interest) (name : Name) : Prop :=
  ∃ rest, name = interest.name ++ rest ∧
    (interest.exclude.empty = true ∨
      match rest with
      | [] => exactCounts = true
      | component :: _ => interest.exclude.isExcluded component = false)

/-- The lookup is defined, sound and complete. -/
def Answers (exactCounts : Bool) (added : List Data) (store : ContentStore policy) (interest : Interest) : Prop :=
  ∃ answer after, store.lookup interest = some (answer,after) ∧
    (∀ data, answer = some data → data ∈ added ∧ Stored store data ∧ Satisfies exactCounts interest data.name) ∧
    (answer = none → ∀ data, Stored store data → ¬Satisfies exactCounts interest data.name)

/-- Without an Exclude no Data above the Interest's name may hide one below it, and an empty store asked
for the empty name needs a policy that bears the null iterator. With one the only question is the
Data of exactly the Interest's name, which the search below the node leaves out. -/
def Answerable (exactCounts : Bool) (store : ContentStore policy) (interest : Interest) : Prop :=
  if interest.exclude.empty then
    ((∃ above, above <+: interest.name ∧ store.get above ≠ none) →
      (∃ rest, store.get (interest.name ++ rest) ≠ none) → store.get interest.name ≠ none) ∧
    (interest.name = [] → (∀ name, store.get name = none) → (policy.lookupEnd store.state).isSome)
  else
    exactCounts = true → store.get interest.name ≠ none →
      ∃ component rest, interest.exclude.isExcluded component = false ∧
        store.get (interest.name ++ component :: rest) ≠ none

/-! Every store reached is a well-formed trie of Data under their own names, all of them added. -/

structure Consistent (added : List Data) (store : ContentStore policy) : Prop where
  wellFormed : store.trie.WellFormed
  named : ∀ name data, store.get name = some data → data.name = name ∧ data ∈ added

private theorem foldl_erase (victims : List Name) (trie : Trie Component Data) (wellFormed : trie.WellFormed) :
    (victims.foldl Trie.erase trie).WellFormed ∧
      ∀ name data, (victims.foldl Trie.erase trie).get name = some data → trie.get name = some data := by
  induction victims generalizing trie with
  | nil => exact ⟨wellFormed,fun _ _ same => same⟩
  | cons victim victims ih =>
    obtain ⟨good,kept⟩ := ih (trie.erase victim) (trie.erase_wellFormed wellFormed victim)
    refine ⟨good,?_⟩
    intro name data found
    have erased := kept name data found
    rw [trie.get_erase wellFormed.distinct] at erased
    split at erased
    · cases erased
    · exact erased

theorem empty_consistent : Consistent [] (.empty : ContentStore policy) := by
  constructor
  · exact .node [] none [] (by simp) (by simp) (by simp)
  · intro name data found
    have missing : (.empty : ContentStore policy).get name = none :=
      Trie.get_dead (.node [] none []) rfl name
    rw [missing] at found
    cases found

theorem erase_consistent {added : List Data} {store : ContentStore policy} (good : Consistent added store)
    (name : Name) : Consistent added (store.erase name) := by
  constructor
  · exact store.trie.erase_wellFormed good.wellFormed name
  · intro other data found
    obtain ⟨-,kept⟩ := foldl_erase [name] store.trie good.wellFormed
    exact good.named other data (kept other data found)

private theorem add_eq (store : ContentStore policy) (layout : Trie.Layout Component Data) (data : Data) :
    store.add layout data =
      if (store.trie.insert layout data.name data).1 then
        if (policy.insert store.state data).1 then
          (true,⟨(policy.insert store.state data).2.1.foldl Trie.erase (store.trie.insert layout data.name data).2,
            (policy.insert store.state data).2.2⟩)
        else
          (false,⟨((policy.insert store.state data).2.1.foldl Trie.erase
            (store.trie.insert layout data.name data).2).erase data.name,(policy.insert store.state data).2.2⟩)
      else (false,⟨(store.trie.insert layout data.name data).2,store.state⟩) := rfl

private theorem add_consistent {added : List Data} {store : ContentStore policy} (good : Consistent added store)
    (layout : Trie.Layout Component Data) (data : Data) :
    Consistent (if (store.add layout data).1 then data :: added else added) (store.add layout data).2 := by
  have wellFormed := Trie.insert_wellFormed layout store.trie good.wellFormed data.name data
  have looked := fun other => Trie.get_insert layout store.trie good.wellFormed data.name other data
  have unchanged := (looked data.name).1
  by_cases inserted : (store.trie.insert layout data.name data).1 = true
  · rw [inserted] at unchanged
    have fresh : store.trie.get data.name = none := Option.isNone_iff_eq_none.mp unchanged.symm
    have entries : ∀ name found, (store.trie.insert layout data.name data).2.get name = some found →
        if name = data.name then found = data else found.name = name ∧ found ∈ added := by
      intro name found same
      rw [(looked name).2,fresh] at same
      split at same
      · rename_i here
        rw [if_pos here]
        exact (Option.some.inj same).symm
      · rename_i other
        rw [if_neg other]
        exact good.named name found same
    obtain ⟨pruned,kept⟩ := foldl_erase (policy.insert store.state data).2.1 _ wellFormed
    by_cases ok : (policy.insert store.state data).1 = true
    · rw [add_eq,if_pos inserted,if_pos ok,if_pos rfl]
      refine ⟨pruned,?_⟩
      intro name found same
      have entry := entries name found (kept name found same)
      split at entry
      · rename_i here
        rw [entry]
        exact ⟨here.symm,List.mem_cons_self⟩
      · exact ⟨entry.1,List.mem_cons_of_mem data entry.2⟩
    · rw [add_eq,if_pos inserted,if_neg ok,if_neg Bool.false_ne_true]
      refine ⟨Trie.erase_wellFormed _ pruned data.name,?_⟩
      intro name found same
      rw [ContentStore.get,Trie.get_erase _ pruned.distinct] at same
      split at same
      · cases same
      · rename_i other
        have entry := entries name found (kept name found same)
        rw [if_neg other] at entry
        exact entry
  · rw [add_eq,if_neg inserted,if_neg Bool.false_ne_true]
    refine ⟨wellFormed,?_⟩
    intro name found same
    rw [ContentStore.get,(looked name).2] at same
    split at same
    · rename_i here
      rw [Bool.eq_false_iff.mpr inserted] at unchanged
      obtain ⟨present,stored⟩ := Option.isSome_iff_exists.mp (Option.isNone_eq_false_iff.mp unchanged.symm)
      rw [stored] at same
      cases same
      exact good.named name present (here ▸ stored)
    · exact good.named name found same

private theorem lookup_trie {store after : ContentStore policy} {interest : Interest} {answer : Option Data}
    (looked : store.lookup interest = some (answer,after)) : after.trie = store.trie := by
  have touched : ∀ item, store.touch item = some (answer,after) → after.trie = store.trie := by
    intro item same
    cases item with
    | some pair =>
      cases same
      rfl
    | none =>
      obtain ⟨state,-,same⟩ := Option.map_eq_some_iff.mp same
      cases same
      rfl
  unfold ContentStore.lookup ContentStore.deepestPrefixMatch ContentStore.deepestPrefixMatchIfNextLevel at looked
  dsimp only at looked
  split at looked <;> split at looked
  · split at looked
    · exact touched _ looked
    · exact touched _ looked
  · cases looked
    rfl
  · split at looked
    · exact touched _ looked
    · cases looked
      rfl
  · cases looked
    rfl

private theorem consistent_of_reachable {added : List Data} {store : ContentStore policy}
    (reachable : Reachable policy added store) : Consistent added store := by
  induction reachable with
  | empty => exact empty_consistent
  | add added store layout data before ih => exact add_consistent ih layout data
  | lookup added store interest answer after before looked ih =>
    have same := lookup_trie looked
    refine ⟨same ▸ ih.wellFormed,?_⟩
    intro name data found
    apply ih.named name data
    rw [ContentStore.get,← same]
    exact found
  | erase added store name before ih => exact erase_consistent ih name

/-! The two searches, in terms of the entries. -/

private theorem deepestPrefixMatch_cases (store : ContentStore policy) (wellFormed : store.trie.WellFormed) (name : Name) :
    (name ≠ [] ∧ (∀ rest, store.get (name ++ rest) = none) ∧ store.deepestPrefixMatch name = some (none,store)) ∨
    (∃ above data after, above <+: name ∧ store.get above = some data ∧
      (name = [] ∨ ∃ rest, store.get (name ++ rest) ≠ none) ∧ (store.get name ≠ none → above = name) ∧
      store.deepestPrefixMatch name = some (some data,after)) ∨
    (∃ rest data after, store.get (name ++ rest) = some data ∧ (∀ above, above <+: name → store.get above = none) ∧
      store.deepestPrefixMatch name = some (some data,after)) ∨
    (name = [] ∧ (∀ other, store.get other = none) ∧
      store.deepestPrefixMatch name =
        (policy.lookupEnd store.state).map fun state => (none,⟨store.trie,state⟩)) := by
  obtain ⟨walked,reaches⟩ := store.trie.find_last name
  have reached := store.trie.descend_isSome wellFormed name
  unfold ContentStore.deepestPrefixMatch
  dsimp only
  cases at_end : store.trie.descend name with
  | none =>
    rw [at_end] at walked reached
    refine Or.inl ⟨?_,?_,?_⟩
    · intro root
      exact absurd (reached.mpr (Or.inl root)) Bool.false_ne_true
    · intro rest
      by_contra stored
      exact Bool.false_ne_true (reached.mpr (Or.inr ⟨rest,stored⟩))
    · rw [walked]
      rfl
  | some node =>
    rw [at_end,Option.isSome_some] at walked reached
    obtain ⟨last,path⟩ := reaches node at_end
    rw [walked,if_pos rfl]
    rcases store.trie.find_found name with ⟨nothing,above_none⟩ | ⟨above,data,found,inside,stored,longest⟩
    · rw [nothing]
      dsimp only
      rw [last,path]
      obtain ⟨good,root_or_live⟩ := Trie.descend_wellFormed wellFormed at_end
      cases first : node.first with
      | some item =>
        obtain ⟨rest,data⟩ := item
        refine Or.inr (Or.inr (Or.inl ⟨rest,data,_,?_,above_none,rfl⟩))
        exact (Trie.get_append at_end rest).trans ((node.first_spec good).2 rest data first)
      | none =>
        have dead := (node.first_spec good).1 first
        have root : name = [] := by
          rcases root_or_live with root | live
          · exact root
          · rw [dead] at live
            cases live
        refine Or.inr (Or.inr (Or.inr ⟨root,?_,rfl⟩))
        intro other
        rw [root] at at_end
        exact (Trie.get_append at_end other).trans (Trie.get_dead node dead other)
    · rw [found]
      refine Or.inr (Or.inl ⟨above,data,_,inside,stored,reached.mp rfl,?_,rfl⟩)
      intro exact_stored
      exact inside.eq_of_length (Nat.le_antisymm inside.length_le (longest name List.prefix_rfl exact_stored))

private theorem deepestPrefixMatchIfNextLevel_cases (store : ContentStore policy) (wellFormed : store.trie.WellFormed)
    (name : Name) (test : Component → Bool) :
    ((∀ component rest, test component = true → store.get (name ++ component :: rest) = none) ∧
      store.deepestPrefixMatchIfNextLevel name test = some (none,store)) ∨
    ∃ component rest data after, test component = true ∧ store.get (name ++ component :: rest) = some data ∧
      store.deepestPrefixMatchIfNextLevel name test = some (some data,after) := by
  obtain ⟨walked,reaches⟩ := store.trie.find_last name
  have reached := store.trie.descend_isSome wellFormed name
  unfold ContentStore.deepestPrefixMatchIfNextLevel
  dsimp only
  cases at_end : store.trie.descend name with
  | none =>
    rw [at_end] at walked reached
    refine Or.inl ⟨?_,?_⟩
    · intro component rest _
      by_contra stored
      exact Bool.false_ne_true (reached.mpr (Or.inr ⟨component :: rest,stored⟩))
    · rw [walked]
      rfl
  | some node =>
    rw [at_end,Option.isSome_some] at walked
    obtain ⟨last,path⟩ := reaches node at_end
    obtain ⟨good,-⟩ := Trie.descend_wellFormed wellFormed at_end
    rw [walked,if_pos rfl,last,path]
    rcases node.findIfNextLevel_spec good test with ⟨missing,nothing⟩ | ⟨component,rest,data,passes,found,got⟩
    · rw [missing]
      refine Or.inl ⟨?_,rfl⟩
      intro component rest passes
      exact (Trie.get_append at_end (component :: rest)).trans (nothing component rest passes)
    · rw [found]
      exact Or.inr ⟨component,rest,data,_,passes,(Trie.get_append at_end (component :: rest)).trans got,rfl⟩

private theorem stored_iff {added : List Data} {store : ContentStore policy} (good : Consistent added store)
    (data : Data) : Stored store data ↔ store.get data.name = some data := by
  constructor
  · rintro ⟨name,found⟩
    rw [(good.named name data found).1]
    exact found
  · intro found
    exact ⟨data.name,found⟩

private theorem answers_iff_plain {added : List Data} {store : ContentStore policy} (good : Consistent added store)
    (exactCounts : Bool) (interest : Interest) (plain : interest.exclude.empty = true) :
    Answers exactCounts added store interest ↔ Answerable exactCounts store interest := by
  have satisfies : ∀ name, Satisfies exactCounts interest name ↔ interest.name <+: name := by
    intro name
    constructor
    · rintro ⟨rest,rfl,-⟩
      exact List.prefix_append _ _
    · rintro ⟨rest,rfl⟩
      exact ⟨rest,rfl,Or.inl plain⟩
  have looked : store.lookup interest = store.deepestPrefixMatch interest.name := if_pos plain
  unfold Answers Answerable
  rw [if_pos plain,looked]
  rcases deepestPrefixMatch_cases store good.wellFormed interest.name with
    ⟨nonempty,nothing,answer⟩ | ⟨above,data,after,inside,stored,further,exact,answer⟩ |
      ⟨rest,data,after,stored,nothing,answer⟩ | ⟨root,nothing,answer⟩
  -- nothing below the name
  · refine ⟨fun _ => ⟨?_,fun root => absurd root nonempty⟩,fun _ => ⟨none,store,answer,?_,?_⟩⟩
    · rintro - ⟨rest,stored⟩
      exact absurd (nothing rest) stored
    · intro data same
      cases same
    · intro _ data stored satisfied
      obtain ⟨rest,joined⟩ := (satisfies _).mp satisfied
      have found := (stored_iff good data).mp stored
      rw [← joined,nothing rest] at found
      cases found
  -- an entry at or above the name is the answer
  · obtain ⟨named,member⟩ := good.named above data stored
    constructor
    · rintro ⟨result,next,same,sound,-⟩
      rw [answer,Option.some.injEq,Prod.mk.injEq] at same
      have below := (satisfies _).mp (sound data same.1.symm).2.2
      rw [named] at below
      have here := inside.eq_of_length_le below.length_le
      rw [← here]
      refine ⟨fun _ _ missing => ?_,fun _ empty => ?_⟩
      · rw [stored] at missing
        cases missing
      · rw [empty above] at stored
        cases stored
    · rintro ⟨shown,-⟩
      have here : above = interest.name := by
        rcases further with root | stored_below
        · rw [root] at inside ⊢
          exact List.prefix_nil.mp inside
        · exact exact (shown ⟨above,inside,by simp [stored]⟩ stored_below)
      refine ⟨some data,after,answer,?_,?_⟩
      · intro found same
        cases same
        exact ⟨member,⟨above,stored⟩,(satisfies _).mpr (by rw [named,here])⟩
      · intro missing
        cases missing
  -- nothing at or above the name, an entry below it is the answer
  · obtain ⟨named,member⟩ := good.named _ data stored
    refine ⟨fun _ => ⟨?_,?_⟩,fun _ => ⟨some data,after,answer,?_,?_⟩⟩
    · rintro ⟨above,inside,present⟩
      exact absurd (nothing above inside) present
    · intro _ empty
      rw [empty] at stored
      cases stored
    · intro found same
      cases same
      exact ⟨member,⟨_,stored⟩,(satisfies _).mpr (by rw [named]; exact List.prefix_append _ _)⟩
    · intro missing
      cases missing
  -- the root of an empty store
  · rw [answer]
    constructor
    · rintro ⟨result,next,same,-⟩
      obtain ⟨state,tolerated,-⟩ := Option.map_eq_some_iff.mp same
      refine ⟨?_,fun _ _ => by rw [tolerated]; rfl⟩
      rintro - ⟨rest,stored⟩
      exact absurd (nothing _) stored
    · rintro ⟨-,tolerant⟩
      obtain ⟨state,tolerated⟩ := Option.isSome_iff_exists.mp (tolerant root nothing)
      refine ⟨none,⟨store.trie,state⟩,by rw [tolerated]; rfl,?_,?_⟩
      · intro data same
        cases same
      · rintro - data ⟨name,stored⟩ -
        rw [nothing name] at stored
        cases stored

private theorem answers_iff_excluding {added : List Data} {store : ContentStore policy} (good : Consistent added store)
    (exactCounts : Bool) (interest : Interest) (excluding : interest.exclude.empty = false) :
    Answers exactCounts added store interest ↔ Answerable exactCounts store interest := by
  have looked : store.lookup interest = store.deepestPrefixMatchIfNextLevel interest.name
      fun component => !interest.exclude.isExcluded component := if_neg (Bool.eq_false_iff.mp excluding)
  unfold Answers Answerable
  rw [if_neg (Bool.eq_false_iff.mp excluding),looked]
  rcases deepestPrefixMatchIfNextLevel_cases store good.wellFormed interest.name
      fun component => !interest.exclude.isExcluded component with
    ⟨nothing,answer⟩ | ⟨component,rest,data,after,passes,stored,answer⟩
  · constructor
    · rintro ⟨result,next,same,-,complete⟩ counts stored
      rw [answer,Option.some.injEq,Prod.mk.injEq] at same
      obtain ⟨data,found⟩ := Option.ne_none_iff_exists'.mp stored
      refine absurd ⟨[],?_,Or.inr counts⟩ (complete same.1.symm data ⟨_,found⟩)
      rw [List.append_nil]
      exact (good.named _ data found).1
    · intro shown
      refine ⟨none,store,answer,?_,?_⟩
      · intro data same
        cases same
      · rintro - data stored ⟨rest,joined,plain | tested⟩
        · rw [excluding] at plain
          cases plain
        · have found := (stored_iff good data).mp stored
          cases rest with
          | nil =>
            rw [joined,List.append_nil] at found
            obtain ⟨component,rest,passes,present⟩ := shown tested (by simp [found])
            exact present (nothing component rest (by rw [passes]; rfl))
          | cons component rest =>
            have passes : interest.exclude.isExcluded component = false := tested
            rw [joined,nothing component rest (by rw [passes]; rfl)] at found
            cases found
  · have admitted : interest.exclude.isExcluded component = false := by simpa using passes
    obtain ⟨named,member⟩ := good.named _ data stored
    refine ⟨fun _ _ _ => ⟨component,rest,admitted,by simp [stored]⟩,fun _ => ⟨some data,after,answer,?_,?_⟩⟩
    · intro found same
      cases same
      exact ⟨member,⟨_,stored⟩,component :: rest,named,Or.inr admitted⟩
    · intro missing
      cases missing

def noExclude : Exclude := ⟨[],.nil⟩

/-- An unlimited least-recently-used store with `/a` and `/a/b/c`. -/
def shadowing : ContentStore (.lru 0) :=
  let layout : Trie.Layout Component Data := ⟨id,fun _ => .rfl⟩
  ((ContentStore.empty.add layout ⟨[[97]],[1]⟩).2.add layout ⟨[[97],[98],[99]],[2]⟩).2

private theorem shadowing_reachable : Reachable (.lru 0) [⟨[[97],[98],[99]],[2]⟩,⟨[[97]],[1]⟩] shadowing :=
  .add _ _ ⟨id,fun _ => .rfl⟩ ⟨[[97],[98],[99]],[2]⟩ (.add _ _ ⟨id,fun _ => .rfl⟩ ⟨[[97]],[1]⟩ .empty)

end Ncfcc.Cs
