import Ncfcc.Library.OrderedSearch
import Ncfcc.Nfd.Table.NameTreeInvariant

/-! The two longest prefix matches of the name tree. The one by name compares hashes
and then only tests for a prefix, so that a shorter name with the hash of a longer
one can be returned in its place; the one by entry walks up the parents. -/
namespace Ncfcc.Nfd.NameTree
open Ncfcc.Library

section
variable (tree : NameTree) (name : Name) (selector : Entry → Bool)

def Candidate (id : Nat) (entry : Entry) : Prop :=
  tree.entries id = some entry ∧ entry.name <+: name ∧ selector entry = true

/-- The candidate with the longest name, or none where there is no candidate. -/
def Longest : Option Nat → Prop
  | none => ∀ id entry, ¬ tree.Candidate name selector id entry
  | some id => ∃ entry, tree.Candidate name selector id entry ∧
      ∀ other otherEntry, tree.Candidate name selector other otherEntry →
        otherEntry.name.length ≤ entry.name.length

/-- At the longest prefix of the name that has the hash of a candidate, only the
longest candidate has that hash. -/
def Unaliased (hashComponent : Component → UInt64) : Prop :=
  ∀ level ≤ name.length,
    (∀ higher ≤ name.length, level < higher → ∀ id entry, tree.Candidate name selector id entry →
      entry.hash ≠ computeHash hashComponent (name.getPrefix higher)) →
    ∀ id entry, tree.Candidate name selector id entry →
      entry.hash = computeHash hashComponent (name.getPrefix level) →
      ∀ other otherEntry, tree.Candidate name selector other otherEntry →
        otherEntry.name.length ≤ entry.name.length

end

private theorem scanl_level (hashComponent : Component → UInt64) (name : Name) (value : UInt64) (level : Nat)
    (bound : level ≤ name.length) :
    (name.scanl (fun value component => value ^^^ hashComponent component) value).getD level 0 =
      (name.getPrefix level).foldl (fun value component => value ^^^ hashComponent component) value := by
  induction name generalizing value level with
  | nil =>
    cases Nat.le_zero.mp bound
    rfl
  | cons component name ih =>
    rw [List.scanl_cons]
    cases level with
    | zero => rfl
    | succ level => exact ih (value ^^^ hashComponent component) level (Nat.le_of_succ_le_succ bound)

private theorem computeHashSet_level (hashComponent : Component → UInt64) (name : Name) (level : Nat)
    (bound : level ≤ name.length) :
    (computeHashSet hashComponent name).getD level 0 = computeHash hashComponent (name.getPrefix level) :=
  scanl_level hashComponent name 0 level bound

section
variable {hashComponent : Component → UInt64} {tree : NameTree}

private theorem level_none (consistent : Consistent hashComponent tree) (name : Name) (selector : Entry → Bool)
    (hash : UInt64) :
    tree.find (tree.location hash)
        (fun entry => hash = entry.hash ∧ entry.name <+: name ∧ selector entry = true) = none ↔
      ∀ id entry, tree.Candidate name selector id entry → entry.hash ≠ hash := by
  constructor
  · rintro missing id entry ⟨stored,inside,selected⟩ rfl
    exact consistent.not_missing _ id entry stored (by simp [inside,selected]) missing
  · intro others
    apply List.find?_eq_none.mpr
    intro id member passed
    simp only [Option.any_eq_true,decide_eq_true_eq] at passed
    obtain ⟨entry,stored,same,inside,selected⟩ := passed
    exact others id entry ⟨stored,inside,selected⟩ same.symm

private theorem level_some (consistent : Consistent hashComponent tree) (name : Name) (selector : Entry → Bool)
    (hash : UInt64) (id : Nat)
    (found : tree.find (tree.location hash)
      (fun entry => hash = entry.hash ∧ entry.name <+: name ∧ selector entry = true) = some id) :
    ∃ entry, tree.Candidate name selector id entry ∧ entry.hash = hash ∧
      ∀ other otherEntry, tree.Candidate name selector other otherEntry → otherEntry.hash = hash →
        otherEntry.name <+: entry.name → otherEntry.name = entry.name := by
  obtain ⟨passed,before,after,split,failed⟩ := List.find?_eq_some_iff_append.mp found
  simp only [Option.any_eq_true,decide_eq_true_eq] at passed
  obtain ⟨entry,stored,same,inside,selected⟩ := passed
  refine ⟨entry,⟨stored,inside,selected⟩,same.symm,?_⟩
  rintro other otherEntry ⟨known,under,chosen⟩ hashed shorter
  have member := consistent.chains.chained other otherEntry.key (keys_of_entry known)
  have ordered := consistent.chains.ordered _ (consistent.chains.location_lt hash)
  rw [show otherEntry.key.hash = hash from hashed] at member
  change other ∈ tree.buckets (tree.location hash) at member
  change (tree.buckets (tree.location hash)).Pairwise _ at ordered
  rw [split] at member ordered
  rcases List.mem_append.mp member with earlier | later
  · have rejected := failed other earlier
    simp [known,hashed,under,chosen] at rejected
  · rcases List.mem_cons.mp later with rfl | behind
    · rw [stored] at known
      rw [Option.some.inj known]
    · have next := (List.pairwise_cons.mp (List.pairwise_append.mp ordered).2.1).1 other behind
      exact next entry.key otherEntry.key (keys_of_entry stored) (keys_of_entry known)
        (same.symm.trans hashed.symm) shorter

private theorem candidate_level (consistent : Consistent hashComponent tree) (name : Name)
    (selector : Entry → Bool) (id : Nat) (entry : Entry) (candidate : tree.Candidate name selector id entry) :
    entry.name.length ≤ name.length ∧
      entry.hash = computeHash hashComponent (name.getPrefix entry.name.length) := by
  obtain ⟨stored,inside,-⟩ := candidate
  refine ⟨inside.length_le,?_⟩
  rw [consistent.hash_eq id entry stored,Name.getPrefix,← List.prefix_iff_eq_take.mp inside]

/-- The search stops at the highest level that has the hash of a candidate. -/
theorem Consistent.findLongestPrefixMatch_cases (consistent : Consistent hashComponent tree) (name : Name)
    (selector : Entry → Bool) :
    (tree.findLongestPrefixMatch hashComponent name selector = none ∧
        ∀ id entry, ¬ tree.Candidate name selector id entry) ∨
      ∃ level ≤ name.length, ∃ id entry,
        tree.findLongestPrefixMatch hashComponent name selector = some id ∧
        tree.Candidate name selector id entry ∧
        entry.hash = computeHash hashComponent (name.getPrefix level) ∧
        (∀ other otherEntry, tree.Candidate name selector other otherEntry →
          otherEntry.hash = computeHash hashComponent (name.getPrefix level) →
          otherEntry.name <+: entry.name → otherEntry.name = entry.name) ∧
        ∀ higher ≤ name.length, level < higher → ∀ other otherEntry,
          tree.Candidate name selector other otherEntry →
          otherEntry.hash ≠ computeHash hashComponent (name.getPrefix higher) := by
  cases found : tree.findLongestPrefixMatch hashComponent name selector with
  | none =>
    left
    refine ⟨rfl,?_⟩
    intro id entry candidate
    obtain ⟨bound,hashed⟩ := candidate_level consistent name selector id entry candidate
    have missing := List.findSome?_eq_none_iff.mp found entry.name.length (by simpa using Nat.lt_succ_of_le bound)
    rw [computeHashSet_level hashComponent name _ bound] at missing
    exact (level_none consistent name selector _).mp missing id entry candidate hashed
  | some id =>
    right
    obtain ⟨level,bound,here,above⟩ := (findSome_descending _ _ _).mp found
    have inside : level ≤ name.length := by omega
    rw [computeHashSet_level hashComponent name level inside] at here
    obtain ⟨entry,candidate,hashed,first⟩ := level_some consistent name selector _ id here
    refine ⟨level,inside,id,entry,rfl,candidate,hashed,first,?_⟩
    intro higher below beyond
    have missing := above higher (by omega) beyond
    rw [computeHashSet_level hashComponent name higher below] at missing
    exact (level_none consistent name selector _).mp missing

/-- Only one level has a candidate's hash and none of them above it. -/
theorem level_eq {name : Name} {selector : Entry → Bool} {level top id other : Nat} {entry otherEntry : Entry}
    (bound : level ≤ name.length) (candidate : tree.Candidate name selector id entry)
    (hashed : entry.hash = computeHash hashComponent (name.getPrefix level))
    (highest : ∀ higher ≤ name.length, level < higher → ∀ other otherEntry, tree.Candidate name selector other otherEntry →
      otherEntry.hash ≠ computeHash hashComponent (name.getPrefix higher))
    (inside : top ≤ name.length)
    (above : ∀ higher ≤ name.length, top < higher → ∀ other otherEntry, tree.Candidate name selector other otherEntry →
      otherEntry.hash ≠ computeHash hashComponent (name.getPrefix higher))
    (competitor : tree.Candidate name selector other otherEntry)
    (otherHashed : otherEntry.hash = computeHash hashComponent (name.getPrefix top)) : top = level := by
  rcases Nat.lt_trichotomy top level with below | same | beyond
  · exact absurd hashed (above level bound below id entry candidate)
  · exact same
  · exact absurd otherHashed (highest top inside beyond other otherEntry competitor)

theorem Consistent.longest_iff (consistent : Consistent hashComponent tree) (name : Name)
    (selector : Entry → Bool) :
    tree.Longest name selector (tree.findLongestPrefixMatch hashComponent name selector) ↔
      tree.Unaliased name selector hashComponent := by
  rcases consistent.findLongestPrefixMatch_cases name selector with
    ⟨missing,without⟩ | ⟨level,bound,id,entry,found,candidate,hashed,first,highest⟩
  · rw [missing]
    refine iff_of_true without ?_
    intro level _ _ id entry candidate
    exact absurd candidate (without id entry)
  · rw [found]
    constructor
    · rintro ⟨same,⟨stored,-⟩,longest⟩ top inside above other otherEntry competitor otherHashed
      rw [candidate.1] at stored
      cases Option.some.inj stored
      rw [level_eq bound candidate hashed highest inside above competitor otherHashed] at otherHashed
      have shorter := List.prefix_of_prefix_length_le competitor.2.1 candidate.2.1
        (longest other otherEntry competitor)
      rw [first other otherEntry competitor otherHashed shorter]
      exact longest
    · intro unaliased
      exact ⟨entry,candidate,unaliased level bound highest id entry candidate hashed⟩

theorem Consistent.longest_unique (consistent : Consistent hashComponent tree) (name : Name)
    (selector : Entry → Bool) (first second : Option Nat) (left : tree.Longest name selector first)
    (right : tree.Longest name selector second) : first = second := by
  cases first with
  | none =>
    cases second with
    | none => rfl
    | some id =>
      obtain ⟨entry,candidate,-⟩ := right
      exact absurd candidate (left id entry)
  | some id =>
    obtain ⟨entry,candidate,longest⟩ := left
    cases second with
    | none => exact absurd candidate (right id entry)
    | some other =>
      obtain ⟨otherEntry,competitor,other_longest⟩ := right
      have size := Nat.le_antisymm (other_longest id entry candidate) (longest other otherEntry competitor)
      have same : entry.name = otherEntry.name := by
        rw [List.prefix_iff_eq_take.mp candidate.2.1,List.prefix_iff_eq_take.mp competitor.2.1,size]
      exact congrArg some (consistent.names.distinct id other entry.key otherEntry.key
        (keys_of_entry candidate.1) (keys_of_entry competitor.1) same)

/-- The parent of an entry, whose name is one shorter; the root has none. -/
theorem Consistent.parent_cases (consistent : Consistent hashComponent tree) {id : Nat} {entry : Entry}
    (stored : tree.entries id = some entry) :
    (entry.parent = none ∧ entry.name = []) ∨ ∃ up above, entry.parent = some up ∧ tree.entries up = some above ∧
      above.name = entry.name.dropLast ∧ above.name.length < entry.name.length := by
  have root := consistent.names.root id entry.key (keys_of_entry stored)
  cases parent : entry.parent with
  | none => exact Or.inl ⟨rfl,root.mp parent⟩
  | some up =>
    obtain ⟨key,known,shortened⟩ := consistent.names.above id entry.key up (keys_of_entry stored) parent
    obtain ⟨above,found,rfl⟩ := entry_of_keys known
    have nonempty : entry.name ≠ [] := by
      intro empty
      have rootless : entry.parent = none := root.mpr empty
      rw [parent] at rootless
      cases rootless
    have shorter : above.name = entry.name.dropLast := shortened
    refine Or.inr ⟨up,above,rfl,found,shorter,?_⟩
    rw [shorter,List.length_dropLast]
    have positive := List.length_pos_iff.mpr nonempty
    omega

/-- The candidates for the name of an entry are the entry itself and those for the name above. -/
theorem Consistent.candidate_cases (consistent : Consistent hashComponent tree) (selector : Entry → Bool) {id : Nat}
    {entry : Entry} (stored : tree.entries id = some entry) (other : Nat) (otherEntry : Entry) :
    tree.Candidate entry.name selector other otherEntry ↔ (other = id ∧ otherEntry = entry ∧ selector entry = true) ∨
      entry.name ≠ [] ∧ tree.Candidate entry.name.dropLast selector other otherEntry := by
  constructor
  · rintro ⟨known,inside,chosen⟩
    by_cases whole : otherEntry.name = entry.name
    · have same := consistent.names.distinct other id _ _ (keys_of_entry known) (keys_of_entry stored) whole
      rw [same,stored] at known
      cases known
      exact Or.inl ⟨same,rfl,chosen⟩
    · have nonempty : entry.name ≠ [] := by
        intro empty
        rw [empty] at inside whole
        exact whole (List.prefix_nil.mp inside)
      rw [← List.dropLast_append_getLast nonempty,List.prefix_concat_iff,List.dropLast_append_getLast nonempty] at inside
      exact Or.inr ⟨nonempty,known,inside.resolve_left whole,chosen⟩
  · rintro (⟨rfl,rfl,chosen⟩ | ⟨-,known,inside,chosen⟩)
    · exact ⟨stored,List.prefix_rfl,chosen⟩
    · exact ⟨known,inside.trans (List.dropLast_prefix _),chosen⟩

/-- The walk up the parents meets every prefix of the name, the longest first. -/
theorem Consistent.longest_from (consistent : Consistent hashComponent tree) (selector : Entry → Bool)
    (fuel id : Nat) (entry : Entry) (stored : tree.entries id = some entry) (enough : entry.name.length < fuel) :
    tree.Longest entry.name selector (tree.findLongestPrefixMatchFrom selector fuel (some id)) := by
  induction fuel generalizing id entry with
  | zero => exact absurd enough (Nat.not_lt_zero _)
  | succ fuel ih =>
    unfold findLongestPrefixMatchFrom
    rw [stored]
    dsimp only
    have cases := consistent.candidate_cases selector stored
    by_cases selected : selector entry = true
    · rw [if_pos selected]
      exact ⟨entry,⟨stored,List.prefix_rfl,selected⟩,fun other otherEntry candidate => candidate.2.1.length_le⟩
    · rw [if_neg selected]
      rcases consistent.parent_cases stored with ⟨parent,empty⟩ | ⟨up,above,parent,found,shorter,length⟩
      · have stop : tree.findLongestPrefixMatchFrom selector fuel none = none := by cases fuel <;> rfl
        rw [parent,stop]
        intro other otherEntry candidate
        rcases (cases other otherEntry).mp candidate with ⟨-,-,chosen⟩ | ⟨nonempty,-⟩
        · exact selected chosen
        · exact nonempty empty
      · have same : ∀ other otherEntry, tree.Candidate entry.name selector other otherEntry ↔
            tree.Candidate above.name selector other otherEntry := by
          intro other otherEntry
          rw [cases,shorter]
          refine ⟨?_,fun candidate => Or.inr ⟨?_,candidate⟩⟩
          · rintro (⟨-,-,chosen⟩ | ⟨-,candidate⟩)
            · exact absurd chosen selected
            · exact candidate
          · exact List.ne_nil_of_length_pos (by omega)
        rw [parent]
        have walked := ih up above found (by omega)
        revert walked
        cases tree.findLongestPrefixMatchFrom selector fuel (some up) with
        | none => exact fun without other otherEntry candidate => without other otherEntry ((same _ _).mp candidate)
        | some result =>
          rintro ⟨best,candidate,longest⟩
          exact ⟨best,(same _ _).mpr candidate,fun other otherEntry competitor =>
            longest other otherEntry ((same _ _).mp competitor)⟩

/-- The match by name is the longest candidate, and it agrees with the match that
starts from the entry of the name, where there is one. -/
structure MatchesLongest (hashComponent : Component → UInt64) (tree : NameTree) (name : Name)
    (selector : Entry → Bool) : Prop where
  longest : tree.Longest name selector (tree.findLongestPrefixMatch hashComponent name selector)
  agrees : ∀ id entry, tree.entries id = some entry → entry.name = name →
    tree.findLongestPrefixMatch hashComponent name selector =
      tree.findLongestPrefixMatchFrom selector (name.length + 1) (some id)

theorem MatchesLongest.of_found {hashComponent : Component → UInt64} {tree : NameTree} {name : Name}
    {selector : Entry → Bool} {found : Option Nat} (right : MatchesLongest hashComponent tree name selector)
    (same : tree.findLongestPrefixMatch hashComponent name selector = found) : tree.Longest name selector found := by
  rw [← same]
  exact right.longest

/-- The tree after a lookup of `/A/A/A`, whose components cancel to the hash of `/A`. -/
def repeatedComponent : NameTree := (initial 8).call cityHash (.lookup [[0x41],[0x41],[0x41]])

private theorem repeatedComponent_found :
    repeatedComponent.findLongestPrefixMatch cityHash [[0x41],[0x41],[0x41]] (fun _ => true) = some 1 := by
  decide +kernel

private theorem repeatedComponent_entries :
    (repeatedComponent.entries 1).map Entry.name = some [[0x41]] ∧
      (repeatedComponent.entries 3).map Entry.name = some [[0x41],[0x41],[0x41]] := by
  decide +kernel

end

end Ncfcc.Nfd.NameTree
