import Ncfcc.Library.OrderedSearch
import Ncfcc.Nfd.Table.InterestMatch
import Ncfcc.Nfd.Table.NameTree

/-! Where the search of the PIT for Data begins, as far as the names in the PIT tell it: at the longest
prefix of the Data's name with the hash of one of them. -/
namespace Ncfcc.Nfd.Table
open Ncfcc.Library NameTree

section
variable (hashComponent : Component → UInt64) (names : List Name) (name : Name)

/-- Which name passes the tests of `NameTree::findLongestPrefixMatch` at a level? -/
def passes (level : Nat) (front : Name) : Bool :=
  (octets front).isPrefixOf (octets name) && computeHash hashComponent front == computeHash hashComponent (name.getPrefix level)

/-- The name at which `NameTree::findLongestPrefixMatch` ends. In the chain of a bucket a node is behind its ancestors. -/
def deepestMatch : Option Name :=
  (List.range (name.length + 1)).reverse.findSome? fun level =>
    (names.filter (passes hashComponent name level)).minOn? List.length

/-- The search comes by this prefix of the name: where it ends, no shorter name passes the tests. -/
def Visited (sought : Name) : Prop :=
  sought <+: name ∧ ∀ level ≤ name.length,
    (∀ higher ≤ name.length, level < higher → ∀ front ∈ names, passes hashComponent name higher front = false) →
      ∀ front ∈ names, passes hashComponent name level front = true → sought.length ≤ front.length

end

section
variable {hashComponent : Component → UInt64} {names : List Name} {name front sought : Name}

theorem passes_iff (apart : ToldApart (name :: names)) (inside : front ∈ names) {level : Nat} :
    passes hashComponent name level front = true ↔
      front <+: name ∧ computeHash hashComponent front = computeHash hashComponent (name.getPrefix level) := by
  rw [passes,Bool.and_eq_true,List.isPrefixOf_iff_prefix,beq_iff_eq,
    apart.prefix_iff (List.mem_cons_of_mem _ inside) List.mem_cons_self List.prefix_rfl List.prefix_rfl]

theorem deepestMatch_eq_some_iff : deepestMatch hashComponent names name = some front ↔
    ∃ level ≤ name.length, (names.filter (passes hashComponent name level)).minOn? List.length = some front ∧
      ∀ higher ≤ name.length, level < higher → ∀ other ∈ names, passes hashComponent name higher other = false := by
  rw [deepestMatch,findSome_descending]
  have missed : ∀ level, (names.filter (passes hashComponent name level)).minOn? List.length = none ↔
      ∀ other ∈ names, passes hashComponent name level other = false := by
    intro level
    rw [← Option.not_isSome_iff_eq_none,List.isSome_minOn?_iff,not_not,List.filter_eq_nil_iff]
    simp
  simp only [Nat.lt_succ_iff,missed]

/-- The first of the names that pass at a level is the shortest. -/
theorem minOn_passes {level : Nat} (least : (names.filter (passes hashComponent name level)).minOn? List.length = some front) :
    front ∈ names ∧ passes hashComponent name level front = true ∧
      ∀ other ∈ names, passes hashComponent name level other = true → front.length ≤ other.length := by
  obtain ⟨inside,passed⟩ := List.mem_filter.mp (List.minOn?_mem least)
  refine ⟨inside,passed,fun other there also => ?_⟩
  have smallest := List.apply_get_minOn?_le_of_mem (f := List.length) (List.mem_filter.mpr ⟨there,also⟩)
  simpa [least] using smallest

/-- At some level a name passes that is a prefix. -/
theorem deepestMatch_isSome (apart : ToldApart (name :: names)) (inside : sought ∈ names) (under : sought <+: name) :
    ∃ front, deepestMatch hashComponent names name = some front := by
  have own : name.getPrefix sought.length = sought := (List.prefix_iff_eq_take.mp under).symm
  have passed : passes hashComponent name sought.length sought = true :=
    (passes_iff apart inside).mpr ⟨under,by rw [own]⟩
  refine Option.isSome_iff_exists.mp ?_
  rw [deepestMatch,List.findSome?_isSome_iff]
  refine ⟨sought.length,by simpa [Nat.lt_succ_iff] using under.length_le,?_⟩
  exact List.isSome_minOn?_iff.mpr (List.ne_nil_of_mem (List.mem_filter.mpr ⟨inside,passed⟩))

/-- The search comes by exactly the prefixes of the name at which it ends. -/
theorem visited_iff (apart : ToldApart (name :: names)) (inside : sought ∈ names) :
    Visited hashComponent names name sought ↔ ∃ front, deepestMatch hashComponent names name = some front ∧ sought <+: front := by
  constructor
  · rintro ⟨under,shadow⟩
    obtain ⟨front,found⟩ : ∃ front, deepestMatch hashComponent names name = some front := deepestMatch_isSome apart inside under
    obtain ⟨level,bound,least,above⟩ := deepestMatch_eq_some_iff.mp found
    obtain ⟨there,passed,-⟩ := minOn_passes least
    have short := shadow level bound above front there passed
    exact ⟨front,found,List.prefix_of_prefix_length_le under ((passes_iff apart there).mp passed).1 short⟩
  · rintro ⟨front,found,shorter⟩
    obtain ⟨top,bound,least,above⟩ := deepestMatch_eq_some_iff.mp found
    obtain ⟨there,passed,smallest⟩ := minOn_passes least
    refine ⟨shorter.trans ((passes_iff apart there).mp passed).1,fun level within clear other member also => ?_⟩
    have same : level = top := by
      rcases lt_trichotomy level top with below | same | beyond
      · rw [clear top bound below front there] at passed
        cases passed
      · exact same
      · rw [above level within beyond other member] at also
        cases also
    exact shorter.length_le.trans (smallest other member (same ▸ also))

end

end Ncfcc.Nfd.Table
