import Mathlib.Data.List.Basic
import Mathlib.Data.List.Lex
import Mathlib.Data.List.Nodup
import Mathlib.Order.Basic
import Ncfcc.Nfd.Rib.Rib

/-! The tree of the RIB: the parent of an entry is the entry of its longest proper
prefix, and the children of an entry are the entries it is the parent of. -/
namespace Ncfcc

theorem Component.key_injective : Function.Injective Component.key := by
  intro first second same
  have octets : first.map UInt8.toNat = second.map UInt8.toNat := (List.cons.inj same).2
  exact List.map_injective_iff.mpr (fun _ _ => UInt8.toNat_inj.mp) octets

theorem Name.key_injective : Function.Injective Name.key := List.map_injective_iff.mpr Component.key_injective

theorem Name.prefix_of_between {name middle last : Name} (above : Name.key name < Name.key middle)
    (below : Name.key middle < Name.key last) (isPrefix : name <+: last) : name <+: middle := by
  induction name generalizing middle last with
  | nil => exact List.nil_prefix
  | cons head rest ih =>
    obtain ⟨more,rfl⟩ := isPrefix
    cases middle with
    | nil => simp [Name.key] at above
    | cons other others =>
      simp only [Name.key,List.map_cons,List.cons_append,List.cons_lt_cons_iff] at above below
      rcases above with less | ⟨same,above⟩
      · rcases below with greater | ⟨same,-⟩
        · exact absurd less (lt_asymm greater)
        · rw [same] at less
          exact absurd less (lt_irrefl _)
      · rcases below with greater | ⟨-,below⟩
        · rw [same] at greater
          exact absurd greater (lt_irrefl _)
        · rw [Component.key_injective same]
          exact List.cons_prefix_cons.mpr ⟨rfl,ih above below (List.prefix_append _ _)⟩

theorem Name.key_lt_of_extends {name longer : Name} (isPrefix : name <+: longer) (different : longer ≠ name) :
    Name.key name < Name.key longer := by
  induction name generalizing longer with
  | nil =>
    cases longer with
    | nil => exact absurd rfl different
    | cons head rest => exact List.nil_lt_cons _ _
  | cons head rest ih =>
    obtain ⟨more,rfl⟩ := isPrefix
    have below := ih (List.prefix_append rest more) (by simpa using different)
    simpa [Name.key] using below

def Nfd.RibEntry.place (entry : Nfd.RibEntry) (parent : Option Name) (children : List Name) : Nfd.RibEntry :=
  {entry with parent := parent,children := children}

namespace Nfd.Rib

/-! Looking entries up. -/

theorem find_name {rib : Rib} {name : Name} {entry : RibEntry} (found : rib.find name = some entry) :
    entry.name = name := by
  have named := List.find?_some found
  exact of_decide_eq_true named

theorem find_mem {rib : Rib} {name : Name} {entry : RibEntry} (found : rib.find name = some entry) :
    entry ∈ rib.entries := List.mem_of_find?_eq_some found

theorem find_modify (rib : Rib) (name : Name) (change : RibEntry → RibEntry)
    (keeps : ∀ entry, (change entry).name = entry.name) (other : Name) :
    (rib.modify name change).find other =
      (rib.find other).map fun entry => if other = name then change entry else entry := by
  have same : (fun entry : RibEntry => decide (entry.name = other)) ∘
      (fun entry => if entry.name = name then change entry else entry) = fun entry => decide (entry.name = other) := by
    funext entry
    dsimp only [Function.comp]
    split
    · rw [keeps]
    · rfl
  unfold modify find
  rw [List.find?_map,same]
  cases found : rib.entries.find? (fun entry => decide (entry.name = other)) with
  | none => rfl
  | some entry =>
    have named : entry.name = other := find_name found
    rw [Option.map_some,Option.map_some,named]

private theorem names_modify (rib : Rib) (name : Name) (change : RibEntry → RibEntry)
    (keeps : ∀ entry, (change entry).name = entry.name) :
    (rib.modify name change).entries.map RibEntry.name = rib.entries.map RibEntry.name := by
  unfold modify
  rw [List.map_map]
  apply List.map_congr_left
  intro entry _
  dsimp only [Function.comp]
  split
  · exact keeps entry
  · rfl

@[simp] theorem entries_addFace (rib : Rib) (faceId : Nat) (name : Name) :
    (rib.addFace faceId name).entries = rib.entries := rfl

@[simp] theorem find_addFace (rib : Rib) (faceId : Nat) (name other : Name) :
    (rib.addFace faceId name).find other = rib.find other := rfl

theorem find_addChild (rib : Rib) (parent child name : Name) :
    (rib.addChild parent child).find name = (rib.find name).map fun entry =>
      entry.place (if name = child then some parent else entry.parent)
        (if name = parent then entry.children ++ [child] else entry.children) := by
  unfold addChild
  rw [find_modify,find_modify,Option.map_map]
  · congr 1
    funext entry
    dsimp only [Function.comp,RibEntry.place]
    split_ifs <;> rfl
  · exact fun _ => rfl
  · exact fun _ => rfl

theorem find_removeChild (rib : Rib) (parent child name : Name) :
    (rib.removeChild parent child).find name = (rib.find name).map fun entry =>
      entry.place (if name = child then none else entry.parent)
        (if name = parent then entry.children.filter (fun other => other ≠ child) else entry.children) := by
  unfold removeChild
  rw [find_modify,find_modify,Option.map_map]
  · congr 1
    funext entry
    dsimp only [Function.comp,RibEntry.place]
    split_ifs <;> rfl
  · exact fun _ => rfl
  · exact fun _ => rfl

theorem names_addChild (rib : Rib) (parent child : Name) :
    (rib.addChild parent child).entries.map RibEntry.name = rib.entries.map RibEntry.name := by
  unfold addChild
  rw [names_modify,names_modify]
  · exact fun _ => rfl
  · exact fun _ => rfl

private theorem names_removeChild (rib : Rib) (parent child : Name) :
    (rib.removeChild parent child).entries.map RibEntry.name = rib.entries.map RibEntry.name := by
  unfold removeChild
  rw [names_modify,names_modify]
  · exact fun _ => rfl
  · exact fun _ => rfl

/-! The parent of a name. -/

structure LongestAbove (rib : Rib) (name above : Name) : Prop where
  isPrefix : above <+: name
  shorter : above.length < name.length
  present : (rib.find above).isSome
  longest : ∀ other, other <+: name → other.length < name.length → (rib.find other).isSome →
    other.length ≤ above.length

private theorem findSome_below (rib : Rib) (name : Name) (bound : Nat) (inside : bound ≤ name.length) :
    ((List.range bound).reverse.findSome? (fun count => (rib.find (name.getPrefix count)).map RibEntry.name) = none ∧
      ∀ other, other <+: name → other.length < bound → rib.find other = none) ∨
    ∃ above, (List.range bound).reverse.findSome?
        (fun count => (rib.find (name.getPrefix count)).map RibEntry.name) = some above ∧
      above <+: name ∧ above.length < bound ∧ (rib.find above).isSome ∧
      ∀ other, other <+: name → other.length < bound → (rib.find other).isSome → other.length ≤ above.length := by
  induction bound with
  | zero => exact Or.inl ⟨rfl,fun _ _ short => absurd short (Nat.not_lt_zero _)⟩
  | succ bound ih =>
    have exactly : ∀ other, other <+: name → other.length = bound → other = name.getPrefix bound := by
      intro other isPrefix size
      rw [Name.getPrefix,← size]
      exact List.prefix_iff_eq_take.mp isPrefix
    have size : (name.getPrefix bound).length = bound := List.length_take_of_le (by omega)
    rw [List.range_succ,List.reverse_append,List.reverse_singleton,List.singleton_append,List.findSome?_cons]
    cases found : rib.find (name.getPrefix bound) with
    | some entry =>
      refine Or.inr ⟨name.getPrefix bound,by rw [Option.map_some,find_name found],List.take_prefix _ _,by omega,
        by rw [found]; rfl,?_⟩
      intro other _ short _
      omega
    | none =>
      rcases ih (by omega) with ⟨nothing,missing⟩ | ⟨above,same,isPrefix,short,present,longest⟩
      · refine Or.inl ⟨nothing,?_⟩
        intro other isPrefix short
        by_cases last : other.length = bound
        · rw [exactly other isPrefix last]
          exact found
        · exact missing other isPrefix (by omega)
      · refine Or.inr ⟨above,same,isPrefix,by omega,present,?_⟩
        intro other inner short stored
        by_cases last : other.length = bound
        · rw [exactly other inner last,found] at stored
          cases stored
        · exact longest other inner (by omega) stored

theorem findParent_cases (rib : Rib) (name : Name) :
    (rib.findParent name = none ∧ ∀ other, other <+: name → other.length < name.length → rib.find other = none) ∨
      ∃ above, rib.findParent name = some above ∧ rib.LongestAbove name above := by
  rcases findSome_below rib name name.length (Nat.le_refl _) with
    nothing | ⟨above,same,isPrefix,shorter,present,longest⟩
  · exact Or.inl nothing
  · exact Or.inr ⟨above,same,isPrefix,shorter,present,longest⟩

theorem findParent_eq_some {rib : Rib} {name above : Name} :
    rib.findParent name = some above ↔ rib.LongestAbove name above := by
  rcases findParent_cases rib name with ⟨nothing,missing⟩ | ⟨found,same,longest⟩
  · rw [nothing]
    refine ⟨fun absurdity => (Option.some_ne_none _ absurdity.symm).elim,?_⟩
    intro claimed
    have present := claimed.present
    rw [missing above claimed.isPrefix claimed.shorter] at present
    cases present
  · rw [same,Option.some.injEq]
    constructor
    · rintro rfl
      exact longest
    · intro claimed
      have size := Nat.le_antisymm (claimed.longest found longest.isPrefix longest.shorter longest.present)
        (longest.longest above claimed.isPrefix claimed.shorter claimed.present)
      exact (List.prefix_of_prefix_length_le longest.isPrefix claimed.isPrefix size.le).eq_of_length size

theorem findParent_eq_none {rib : Rib} {name : Name} : rib.findParent name = none ↔
    ∀ other, other <+: name → other.length < name.length → rib.find other = none := by
  rcases findParent_cases rib name with ⟨nothing,missing⟩ | ⟨found,same,longest⟩
  · exact ⟨fun _ => missing,fun _ => nothing⟩
  · rw [same]
    refine ⟨fun absurdity => (Option.some_ne_none _ absurdity).elim,?_⟩
    intro missing
    have present := longest.present
    rw [missing found longest.isPrefix longest.shorter] at present
    cases present

/-! One name more or less: the parents change exactly for the names that the new one comes
between them and their parent. -/

section
variable {rib grown : Rib} {name : Name} (added : ∀ other, (grown.find other).isSome ↔ (rib.find other).isSome ∨ other = name)
include added

private theorem findParent_between {other : Name} (isPrefix : name <+: other) (different : other ≠ name)
    (same : rib.findParent other = rib.findParent name) : grown.findParent other = some name := by
  have shorter : name.length < other.length := by
    refine Nat.lt_of_le_of_ne isPrefix.length_le ?_
    intro size
    exact different (isPrefix.eq_of_length size).symm
  refine findParent_eq_some.mpr ⟨isPrefix,shorter,(added name).mpr (Or.inr rfl),?_⟩
  intro third above short present
  rcases (added third).mp present with old | rfl
  · rcases findParent_cases rib other with ⟨-,missing⟩ | ⟨found,parent,longest⟩
    · rw [missing third above short] at old
      cases old
    · rw [same] at parent
      exact (longest.longest third above short old).trans (findParent_eq_some.mp parent).shorter.le
  · exact Nat.le_refl _

private theorem findParent_elsewhere {other : Name}
    (elsewhere : ¬(name <+: other ∧ other ≠ name ∧ rib.findParent other = rib.findParent name)) :
    grown.findParent other = rib.findParent other := by
  rcases findParent_cases rib other with ⟨nothing,missing⟩ | ⟨found,parent,longest⟩
  · rw [nothing,findParent_eq_none]
    intro third above short
    by_contra stored
    rcases (added third).mp (Option.isSome_iff_ne_none.mpr stored) with old | rfl
    · rw [missing third above short] at old
      cases old
    · refine elsewhere ⟨above,?_,?_⟩
      · rintro rfl
        exact Nat.lt_irrefl _ short
      · rw [nothing,eq_comm,findParent_eq_none]
        intro fourth inside shorter
        exact missing fourth (inside.trans above) (shorter.trans short)
  · rw [parent,findParent_eq_some]
    refine ⟨longest.isPrefix,longest.shorter,(added found).mpr (Or.inl longest.present),?_⟩
    intro third above short present
    rcases (added third).mp present with old | rfl
    · exact longest.longest third above short old
    · by_contra longer
      refine elsewhere ⟨above,?_,?_⟩
      · rintro rfl
        exact Nat.lt_irrefl _ short
      · rw [parent,eq_comm,findParent_eq_some]
        refine ⟨List.prefix_of_prefix_length_le longest.isPrefix above (Nat.le_of_not_le longer),
          Nat.lt_of_not_le longer,longest.present,?_⟩
        intro fourth inside shorter stored
        exact longest.longest fourth (inside.trans above) (shorter.trans short) stored

private theorem findParent_self : grown.findParent name = rib.findParent name :=
  findParent_elsewhere added fun between => between.2.1 rfl

end

/-- The tree is the one that the names of the entries determine. -/
structure Tree (rib : Rib) : Prop where
  ordered : (rib.entries.map RibEntry.name).Pairwise fun first second => Name.key first < Name.key second
  parent : ∀ name entry, rib.find name = some entry → entry.parent = rib.findParent name
  distinct : ∀ name entry, rib.find name = some entry → entry.children.Nodup
  children : ∀ name entry child, rib.find name = some entry →
    (child ∈ entry.children ↔ (rib.find child).isSome ∧ rib.findParent child = some name)

theorem nodup_of_ordered {rib : Rib}
    (ordered : (rib.entries.map RibEntry.name).Pairwise fun first second => Name.key first < Name.key second) :
    (rib.entries.map RibEntry.name).Nodup := by
  apply ordered.imp
  intro first second less same
  rw [same] at less
  exact lt_irrefl _ less

theorem empty_tree : Tree .empty := by
  constructor
  · exact List.Pairwise.nil
  all_goals
    intro name entry
    intros
    contradiction

def core (rib : Rib) (name : Name) : Option (List Route × List Route × Nat) :=
  (rib.find name).map fun entry => (entry.routes,entry.inheritedRoutes,entry.nRoutesWithCaptureSet)

theorem core_find {rib : Rib} {name : Name} {entry : RibEntry} (found : rib.find name = some entry) :
    rib.core name = some (entry.routes,entry.inheritedRoutes,entry.nRoutesWithCaptureSet) := by
  rw [core,found]
  rfl

theorem core_of_absent {rib : Rib} {name : Name} (missing : rib.find name = none) : rib.core name = none := by
  rw [core,missing]
  rfl

theorem modify_tree {rib : Rib} (tree : Tree rib) (name : Name) (change : RibEntry → RibEntry)
    (keeps : ∀ entry, (change entry).name = entry.name ∧ (change entry).parent = entry.parent ∧
      (change entry).children = entry.children) : Tree (rib.modify name change) := by
  have looked := rib.find_modify name change fun entry => (keeps entry).1
  have present : ∀ other, ((rib.modify name change).find other).isSome = (rib.find other).isSome := by
    intro other
    rw [looked,Option.isSome_map]
  have parents : ∀ other, (rib.modify name change).findParent other = rib.findParent other := by
    intro other
    rcases findParent_cases rib other with ⟨nothing,missing⟩ | ⟨found,same,longest⟩
    · rw [nothing,findParent_eq_none]
      intro third above short
      rw [looked,missing third above short]
      rfl
    · rw [same,findParent_eq_some]
      refine ⟨longest.isPrefix,longest.shorter,(present found).trans longest.present,?_⟩
      intro third above short stored
      exact longest.longest third above short ((present third).symm.trans stored)
  have fields : ∀ other entry, (rib.modify name change).find other = some entry →
      ∃ old, rib.find other = some old ∧ entry.parent = old.parent ∧ entry.children = old.children := by
    intro other entry found
    rw [looked] at found
    obtain ⟨old,stored,rfl⟩ := Option.map_eq_some_iff.mp found
    refine ⟨old,stored,?_⟩
    split
    · exact (keeps old).2
    · exact ⟨rfl,rfl⟩
  constructor
  · rw [names_modify rib name change fun entry => (keeps entry).1]
    exact tree.ordered
  · intro other entry found
    obtain ⟨old,stored,same,-⟩ := fields other entry found
    rw [same,parents]
    exact tree.parent other old stored
  · intro other entry found
    obtain ⟨old,stored,-,same⟩ := fields other entry found
    rw [same]
    exact tree.distinct other old stored
  · intro other entry child found
    obtain ⟨old,stored,-,same⟩ := fields other entry found
    rw [same,parents,present]
    exact tree.children other old child stored

/-! Insertion of a new name. -/

theorem find_insertEntry (rib : Rib) (entry : RibEntry) (absent : rib.find entry.name = none) (name : Name) :
    (rib.insertEntry entry).find name = if name = entry.name then some entry else rib.find name := by
  have divided : rib.find name = (rib.entries.takeWhile (fun other => Name.less other.name entry.name) ++
      rib.entries.dropWhile (fun other => Name.less other.name entry.name)).find?
        (fun other => decide (other.name = name)) := by
    rw [List.takeWhile_append_dropWhile]
    rfl
  unfold insertEntry find
  by_cases here : name = entry.name
  · rw [if_pos here,here,List.find?_append]
    have before : (rib.entries.takeWhile (fun other => Name.less other.name entry.name)).find?
        (fun other => decide (other.name = entry.name)) = none := by
      rw [List.find?_eq_none]
      intro other inside
      exact List.find?_eq_none.mp absent other ((List.takeWhile_sublist _).mem inside)
    rw [before]
    simp
  · rw [if_neg here,List.find?_append,List.find?_cons,decide_eq_false (Ne.symm here),← List.find?_append]
    exact divided.symm

theorem ordered_insertEntry {rib : Rib} (tree : Tree rib) (entry : RibEntry)
    (absent : rib.find entry.name = none) :
    ((rib.insertEntry entry).entries.map RibEntry.name).Pairwise fun first second =>
      Name.key first < Name.key second := by
  have ordered := tree.ordered
  rw [List.pairwise_map] at ordered
  have distinct : ∀ other ∈ rib.entries, Name.key other.name ≠ Name.key entry.name := by
    intro other inside same
    exact List.find?_eq_none.mp absent other inside (decide_eq_true (Name.key_injective same))
  have front : ∀ other ∈ rib.entries.takeWhile (fun other => Name.less other.name entry.name),
      Name.key other.name < Name.key entry.name := by
    intro other inside
    have passes := List.all_eq_true.mp List.all_takeWhile other inside
    exact of_decide_eq_true passes
  unfold insertEntry
  rw [List.pairwise_map,List.pairwise_append,List.pairwise_cons]
  have back : ∀ other ∈ rib.entries.dropWhile (fun other => Name.less other.name entry.name),
      Name.key entry.name < Name.key other.name := by
    have sorted := ordered.sublist (List.dropWhile_sublist fun other => Name.less other.name entry.name)
    cases rest : rib.entries.dropWhile (fun other => Name.less other.name entry.name) with
    | nil =>
      intro other inside
      cases inside
    | cons head tail =>
      rw [rest,List.pairwise_cons] at sorted
      have stop : ¬Name.key head.name < Name.key entry.name := by
        have failed := List.head?_dropWhile_not (fun other => Name.less other.name entry.name) rib.entries
        rw [rest] at failed
        exact of_decide_eq_false failed
      have member : head ∈ rib.entries :=
        (List.dropWhile_sublist fun other => Name.less other.name entry.name).mem (by rw [rest]; simp)
      have first : Name.key entry.name < Name.key head.name :=
        lt_of_le_of_ne (not_lt.mp stop) (Ne.symm (distinct head member))
      intro other inside
      rcases List.mem_cons.mp inside with rfl | later
      · exact first
      · exact first.trans (sorted.1 other later)
  refine ⟨ordered.sublist (List.takeWhile_sublist _),⟨back,ordered.sublist (List.dropWhile_sublist _)⟩,?_⟩
  intro other inside third later
  rcases List.mem_cons.mp later with rfl | behind
  · exact front other inside
  · exact (front other inside).trans (back third behind)

private theorem takeWhile_prefixed (name : Name) (entries : List RibEntry)
    (ordered : (entries.map RibEntry.name).Pairwise fun first second => Name.key first < Name.key second)
    (after : ∀ entry ∈ entries, Name.key name < Name.key entry.name) (entry : RibEntry) :
    entry ∈ entries.takeWhile (fun entry => name.isPrefixOf entry.name) ↔
      entry ∈ entries ∧ name <+: entry.name := by
  induction entries with
  | nil => simp
  | cons head rest ih =>
    rw [List.map_cons,List.pairwise_cons] at ordered
    have later := ih ordered.2 fun other inside => after other (List.mem_cons_of_mem head inside)
    by_cases passes : name <+: head.name
    · rw [List.takeWhile_cons,if_pos (List.isPrefixOf_iff_prefix.mpr passes),List.mem_cons,List.mem_cons,later]
      constructor
      · rintro (rfl | ⟨inside,isPrefix⟩)
        · exact ⟨Or.inl rfl,passes⟩
        · exact ⟨Or.inr inside,isPrefix⟩
      · rintro ⟨rfl | inside,isPrefix⟩
        · exact Or.inl rfl
        · exact Or.inr ⟨inside,isPrefix⟩
    · rw [List.takeWhile_cons,if_neg (mt List.isPrefixOf_iff_prefix.mp passes)]
      constructor
      · intro inside
        cases inside
      · rintro ⟨inside,isPrefix⟩
        rcases List.mem_cons.mp inside with rfl | behind
        · exact absurd isPrefix passes
        · exact absurd (Name.prefix_of_between (after head List.mem_cons_self)
            (ordered.1 _ (List.mem_map_of_mem behind)) isPrefix) passes

/-- Under the order of names the run of descendants misses none. -/
theorem mem_findDescendants {rib : Rib}
    (ordered : (rib.entries.map RibEntry.name).Pairwise fun first second => Name.key first < Name.key second)
    {name : Name} {own : RibEntry} (present : rib.find name = some own) (entry : RibEntry) :
    entry ∈ rib.findDescendants name ↔ entry ∈ rib.entries ∧ name <+: entry.name ∧ entry.name ≠ name := by
  obtain ⟨named,front,back,split,before⟩ := List.find?_eq_some_iff_append.mp present
  have named : own.name = name := of_decide_eq_true named
  have skipped : ∀ other ∈ front, decide (other.name ≠ name) = true := by
    intro other inside
    simpa using before other inside
  have found : rib.findDescendants name = back.takeWhile fun entry => name.isPrefixOf entry.name := by
    unfold findDescendants
    rw [split,List.dropWhile_append_of_pos skipped,List.dropWhile_cons_of_neg (by simp [named]),List.drop_one,
      List.tail_cons]
  rw [split,List.map_append,List.map_cons,List.pairwise_append,List.pairwise_cons,named] at ordered
  obtain ⟨-,⟨after,sorted⟩,across⟩ := ordered
  rw [found,takeWhile_prefixed name back sorted (fun other inside => after _ (List.mem_map_of_mem inside)),split,
    List.mem_append,List.mem_cons]
  constructor
  · rintro ⟨inside,isPrefix⟩
    refine ⟨Or.inr (Or.inr inside),isPrefix,?_⟩
    intro same
    have less := after _ (List.mem_map_of_mem inside)
    rw [same] at less
    exact lt_irrefl _ less
  · rintro ⟨inside | rfl | inside,isPrefix,different⟩
    · have less := across entry.name (List.mem_map_of_mem inside) name List.mem_cons_self
      exact absurd (Name.key_lt_of_extends isPrefix different) (lt_asymm less)
    · exact absurd named different
    · exact ⟨inside,isPrefix⟩

private theorem find_adopt {parent : Option Name} {name : Name} (apart : parent ≠ some name) (rib : Rib)
    {child : RibEntry} (taken : child.parent = parent) (other : Name) :
    (adopt parent name rib child).find other = (rib.find other).map fun entry =>
      entry.place (if other = child.name then some name else entry.parent)
        (if other = name then entry.children ++ [child.name]
          else if some other = parent then entry.children.filter (fun held => held ≠ child.name)
          else entry.children) := by
  unfold adopt
  rw [if_pos taken]
  cases parent with
  | none =>
    rw [find_addChild]
    rfl
  | some above =>
    have different : above ≠ name := fun same => apart (by rw [same])
    rw [find_addChild,find_removeChild,Option.map_map]
    congr 1
    funext entry
    dsimp only [Function.comp,RibEntry.place]
    simp only [Option.some.injEq]
    by_cases here : other = name
    · have elsewhere : ¬other = above := fun same => different (same.symm.trans here)
      rw [if_pos here,if_pos here,if_neg elsewhere]
      split_ifs <;> rfl
    · rw [if_neg here,if_neg here]
      split_ifs <;> rfl

private theorem find_foldl_adopt {parent : Option Name} {name : Name} (apart : parent ≠ some name)
    (children : List RibEntry) (taken : ∀ child ∈ children, child.parent = parent) (rib : Rib) (other : Name) :
    (children.foldl (adopt parent name) rib).find other = (rib.find other).map fun entry =>
      entry.place (if other ∈ children.map RibEntry.name then some name else entry.parent)
        (if other = name then entry.children ++ children.map RibEntry.name
          else if some other = parent then entry.children.filter (fun held => held ∉ children.map RibEntry.name)
          else entry.children) := by
  induction children generalizing rib with
  | nil => simp [RibEntry.place]
  | cons child children ih =>
    have below : ∀ child ∈ children, child.parent = parent :=
      fun other inside => taken other (List.mem_cons_of_mem child inside)
    rw [List.foldl_cons,ih below,find_adopt apart rib (taken child List.mem_cons_self),Option.map_map]
    congr 1
    funext entry
    dsimp only [Function.comp,RibEntry.place]
    congr 1
    · by_cases first : other = child.name <;> by_cases later : other ∈ children.map RibEntry.name <;>
        simp [first,later]
    · split_ifs
      · simp
      · rw [List.filter_filter]
        apply List.filter_congr
        intro held _
        rw [List.map_cons,← Bool.decide_and]
        apply decide_eq_decide.mpr
        rw [List.mem_cons,not_or,and_comm]
      · rfl

private theorem foldl_adopt_filter (parent : Option Name) (name : Name) (children : List RibEntry) (rib : Rib) :
    children.foldl (adopt parent name) rib =
      (children.filter fun child => child.parent = parent).foldl (adopt parent name) rib := by
  induction children generalizing rib with
  | nil => rfl
  | cons child children ih =>
    by_cases taken : child.parent = parent
    · rw [List.filter_cons,if_pos (decide_eq_true taken),List.foldl_cons,List.foldl_cons]
      exact ih _
    · have kept : adopt parent name rib child = rib := if_neg taken
      rw [List.filter_cons,if_neg (by simpa using taken),List.foldl_cons,kept]
      exact ih rib

theorem mem_entries_iff {rib : Rib}
    (ordered : (rib.entries.map RibEntry.name).Pairwise fun first second => Name.key first < Name.key second)
    {entry : RibEntry} : entry ∈ rib.entries ↔ rib.find entry.name = some entry := by
  refine ⟨?_,find_mem⟩
  intro inside
  have distinct := nodup_of_ordered ordered
  cases found : rib.find entry.name with
  | none => exact absurd (decide_eq_true rfl) (List.find?_eq_none.mp found entry inside)
  | some other =>
    rw [List.inj_on_of_nodup_map distinct (find_mem found) inside (find_name found)]

private theorem names_foldl_adopt (parent : Option Name) (name : Name) (children : List RibEntry) (rib : Rib) :
    (children.foldl (adopt parent name) rib).entries.map RibEntry.name = rib.entries.map RibEntry.name := by
  induction children generalizing rib with
  | nil => rfl
  | cons child children ih =>
    rw [List.foldl_cons,ih]
    unfold adopt
    split
    · split
      · rw [names_addChild,names_removeChild]
      · rw [names_addChild]
    · rfl

private theorem find_attach {rib : Rib} {name : Name} (parent : Option Name)
    (fresh : ∀ entry, rib.find name = some entry → entry.parent = none) (other : Name) :
    (match parent with
      | some above => rib.addChild above name
      | none => rib).find other = (rib.find other).map fun entry =>
        entry.place (if other = name then parent else entry.parent)
          (if some other = parent then entry.children ++ [name] else entry.children) := by
  cases parent with
  | some above =>
    dsimp only
    rw [find_addChild]
    simp only [Option.some.injEq]
  | none =>
    dsimp only
    cases found : rib.find other with
    | none => rfl
    | some entry =>
      have kept : (if other = name then none else entry.parent) = entry.parent := by
        split
        · rename_i here
          rw [here] at found
          exact (fresh entry found).symm
        · rfl
      rw [Option.map_some,kept]
      rfl

private theorem names_attach (rib : Rib) (name : Name) (parent : Option Name) :
    (match parent with
      | some above => rib.addChild above name
      | none => rib).entries.map RibEntry.name = rib.entries.map RibEntry.name := by
  cases parent with
  | some above => exact names_addChild rib above name
  | none => rfl

/-- The entries after the insertion of a new name: those below it whose parent was the new
entry's are its children now. -/
theorem descendants_sublist (rib : Rib) (name : Name) : (rib.findDescendants name).Sublist rib.entries :=
  (List.takeWhile_sublist _).trans ((List.drop_sublist _ _).trans (List.dropWhile_sublist _))

/-- The entries that a new one adopts: those below its name that had its parent. -/
private theorem mem_adopted {rib grown : Rib} (tree : Tree rib) {name : Name} {new : RibEntry}
    {added : Name → RibEntry → List Name}
    (ordered : (grown.entries.map RibEntry.name).Pairwise fun first second => Name.key first < Name.key second)
    (own : grown.find name = some new)
    (others : ∀ other, other ≠ name → grown.find other =
      (rib.find other).map fun entry => entry.place entry.parent (added other entry)) (child : Name) :
    child ∈ ((grown.findDescendants name).filter
        fun child => child.parent = rib.findParent name).map RibEntry.name ↔
      (rib.find child).isSome ∧ name <+: child ∧ child ≠ name ∧ rib.findParent child = rib.findParent name := by
  rw [List.mem_map]
  constructor
  · rintro ⟨entry,inside,rfl⟩
    obtain ⟨descends,same⟩ := List.mem_filter.mp inside
    obtain ⟨member,isPrefix,different⟩ := (mem_findDescendants ordered own entry).mp descends
    have found := (mem_entries_iff ordered).mp member
    rw [others _ different] at found
    obtain ⟨old,stored,moved⟩ := Option.map_eq_some_iff.mp found
    refine ⟨by rw [stored]; rfl,isPrefix,different,?_⟩
    rw [← tree.parent _ old stored,← of_decide_eq_true same,← moved]
    rfl
  · rintro ⟨present,isPrefix,different,same⟩
    obtain ⟨old,stored⟩ := Option.isSome_iff_exists.mp present
    have found := others child different
    rw [stored,Option.map_some] at found
    have named := find_name found
    refine ⟨_,List.mem_filter.mpr ⟨(mem_findDescendants ordered own _).mpr ⟨find_mem found,?_,?_⟩,?_⟩,named⟩
    · rw [named]
      exact isPrefix
    · rw [named]
      exact different
    · exact decide_eq_true ((tree.parent child old stored).trans same)

private theorem find_insertName {rib : Rib} (tree : Tree rib) {name : Name} (absent : rib.find name = none) (route : Route) :
    ∃ children : List Name, children.Nodup ∧
      (∀ child, child ∈ children ↔ (rib.find child).isSome ∧ name <+: child ∧ child ≠ name ∧
        rib.findParent child = rib.findParent name) ∧
      ((rib.insertName name route).entries.map RibEntry.name).Pairwise
        (fun first second => Name.key first < Name.key second) ∧
      ∀ other, (rib.insertName name route).find other =
        if other = name then
          some ⟨name,[route],[],if route.capture then 1 else 0,rib.findParent name,children⟩
        else (rib.find other).map fun entry =>
          entry.place (if other ∈ children then some name else entry.parent)
            (if some other = rib.findParent name then
              (entry.children ++ [name]).filter (fun held => held ∉ children) else entry.children) := by
  let new : RibEntry := ⟨name,[route],[],if route.capture then 1 else 0,none,[]⟩
  have looked := rib.find_insertEntry new absent
  have added : ∀ other, ((rib.insertEntry new).find other).isSome ↔ (rib.find other).isSome ∨ other = name := by
    intro other
    rw [looked]
    by_cases here : other = name
    · rw [if_pos (show other = new.name from here)]
      exact ⟨fun _ => Or.inr here,fun _ => rfl⟩
    · rw [if_neg (show ¬other = new.name from here)]
      simp [here]
  have parent := findParent_self added
  have apart : rib.findParent name ≠ some name := by
    intro same
    exact Nat.lt_irrefl _ (findParent_eq_some.mp same).shorter
  have fresh : ∀ entry, (rib.insertEntry new).find name = some entry → entry.parent = none := by
    intro entry found
    rw [looked,if_pos rfl] at found
    cases found
    rfl
  have attached := find_attach (rib.findParent name) fresh
  have names := names_attach (rib.insertEntry new) name (rib.findParent name)
  have ordered := ordered_insertEntry tree new absent
  have result : rib.insertName name route =
      (((match rib.findParent name with
        | some above => (rib.insertEntry new).addChild above name
        | none => rib.insertEntry new).findDescendants name).foldl (adopt (rib.findParent name) name)
          (match rib.findParent name with
            | some above => (rib.insertEntry new).addChild above name
            | none => rib.insertEntry new)).addFace route.faceId name := by
    rw [← parent]
    rfl
  generalize (match rib.findParent name with
    | some above => (rib.insertEntry new).addChild above name
    | none => rib.insertEntry new) = grown at attached names result
  rw [← names] at ordered
  have own : grown.find name = some (new.place (rib.findParent name) []) := by
    rw [attached,looked,if_pos rfl,Option.map_some,if_pos rfl,if_neg (Ne.symm apart)]
  have others : ∀ other, other ≠ name → grown.find other = (rib.find other).map fun entry =>
      entry.place entry.parent
        (if some other = rib.findParent name then entry.children ++ [name] else entry.children) := by
    intro other different
    rw [attached,looked,if_neg (show ¬other = new.name from different)]
    simp only [if_neg different]
  have below := mem_adopted tree ordered own others
  refine ⟨((grown.findDescendants name).filter fun child => child.parent = rib.findParent name).map RibEntry.name,
    ?_,below,?_,?_⟩
  · refine (nodup_of_ordered ordered).sublist (List.Sublist.map RibEntry.name (List.filter_sublist.trans ?_))
    exact descendants_sublist grown name
  · rw [result,entries_addFace,names_foldl_adopt]
    exact ordered
  · intro other
    have filtered := find_foldl_adopt apart ((grown.findDescendants name).filter fun child =>
      child.parent = rib.findParent name) (fun child inside => of_decide_eq_true (List.mem_filter.mp inside).2) grown
      other
    rw [result,find_addFace,foldl_adopt_filter,filtered]
    by_cases here : other = name
    · have outside : name ∉ ((grown.findDescendants name).filter fun child =>
          child.parent = rib.findParent name).map RibEntry.name := fun inside => ((below name).mp inside).2.2.1 rfl
      rw [if_pos here,here,own,Option.map_some,if_neg outside,if_pos rfl]
      rfl
    · rw [if_neg here,others other here,Option.map_map]
      congr 1
      funext entry
      dsimp only [Function.comp,RibEntry.place]
      rw [if_neg here]
      split_ifs <;> rfl

private theorem insertName_core {rib : Rib} (tree : Tree rib) {name : Name} (absent : rib.find name = none) (route : Route)
    (other : Name) : (rib.insertName name route).core other =
      if other = name then some ([route],[],if route.capture then 1 else 0) else rib.core other := by
  obtain ⟨children,-,-,-,looked⟩ := find_insertName tree absent route
  unfold core
  rw [looked]
  split
  · rfl
  · rw [Option.map_map]
    rfl

private theorem isSome_insertName {rib : Rib} (tree : Tree rib) {name : Name} (absent : rib.find name = none) (route : Route)
    (other : Name) : ((rib.insertName name route).find other).isSome ↔ (rib.find other).isSome ∨ other = name := by
  obtain ⟨children,-,-,-,looked⟩ := find_insertName tree absent route
  rw [looked]
  split
  · rename_i here
    simp [here]
  · rename_i different
    rw [Option.isSome_map]
    simp [different]

/-- A new entry comes between its parent and the names below it that had the same parent. -/
theorem findParent_insertName {rib : Rib} (tree : Tree rib) {name : Name} (absent : rib.find name = none)
    (route : Route) (child : Name) :
    (rib.insertName name route).findParent child =
      if name <+: child ∧ child ≠ name ∧ rib.findParent child = rib.findParent name then some name
      else rib.findParent child := by
  have added := isSome_insertName tree absent route
  by_cases between : name <+: child ∧ child ≠ name ∧ rib.findParent child = rib.findParent name
  · obtain ⟨isPrefix,different,same⟩ := between
    rw [if_pos ⟨isPrefix,different,same⟩,findParent_between added isPrefix different same]
  · rw [if_neg between,findParent_elsewhere added between]

private theorem insertName_tree {rib : Rib} (tree : Tree rib) {name : Name} (absent : rib.find name = none) (route : Route) :
    Tree (rib.insertName name route) := by
  obtain ⟨children,distinct,below,ordered,looked⟩ := find_insertName tree absent route
  have added := isSome_insertName tree absent route
  have adopted : ∀ child ∈ children, (rib.insertName name route).findParent child = some name := by
    intro child inside
    rw [findParent_insertName tree absent,if_pos ((below child).mp inside).2]
  have kept : ∀ child, (rib.find child).isSome → child ∉ children →
      (rib.insertName name route).findParent child = rib.findParent child := by
    intro child present outside
    rw [findParent_insertName tree absent,if_neg fun between => outside ((below child).mpr ⟨present,between⟩)]
  have self : (rib.insertName name route).findParent name = rib.findParent name := findParent_self added
  have orphan : ∀ child, rib.findParent child ≠ some name := by
    intro child same
    have present := (findParent_eq_some.mp same).present
    rw [absent] at present
    cases present
  refine ⟨ordered,?_,?_,?_⟩
  · intro other entry found
    rw [looked] at found
    split at found
    · rename_i here
      cases found
      rw [here,self]
    · obtain ⟨old,stored,rfl⟩ := Option.map_eq_some_iff.mp found
      dsimp only [RibEntry.place]
      split
      · rename_i inside
        exact (adopted other inside).symm
      · rename_i outside
        rw [kept other (by rw [stored]; rfl) outside]
        exact tree.parent other old stored
  · intro other entry found
    rw [looked] at found
    split at found
    · cases found
      exact distinct
    · obtain ⟨old,stored,rfl⟩ := Option.map_eq_some_iff.mp found
      have unique := tree.distinct other old stored
      dsimp only [RibEntry.place]
      split
      · refine List.Nodup.filter _ (List.nodup_append.mpr ⟨unique,List.nodup_singleton name,?_⟩)
        intro child inside last same
        rw [List.mem_singleton.mp same]
        rintro rfl
        have present := ((tree.children other old child stored).mp inside).1
        rw [absent] at present
        cases present
      · exact unique
  · intro other entry child found
    rw [looked] at found
    split at found
    · rename_i here
      cases found
      rw [here]
      constructor
      · intro inside
        exact ⟨(added child).mpr (Or.inl ((below child).mp inside).1),adopted child inside⟩
      · rintro ⟨present,parent⟩
        rcases (added child).mp present with old | rfl
        · by_contra outside
          rw [kept child old outside] at parent
          exact orphan child parent
        · rw [self] at parent
          exact absurd parent (orphan child)
    · rename_i elsewhere
      obtain ⟨old,stored,rfl⟩ := Option.map_eq_some_iff.mp found
      dsimp only [RibEntry.place]
      have before := tree.children other old child stored
      have held : (child ∈ if some other = rib.findParent name then
          (old.children ++ [name]).filter (fun held => held ∉ children) else old.children) ↔
          child ∉ children ∧ (child ∈ old.children ∨ child = name ∧ some other = rib.findParent name) := by
        by_cases parent : some other = rib.findParent name
        · rw [if_pos parent,List.mem_filter,List.mem_append,List.mem_singleton]
          simp [parent,and_comm]
        · rw [if_neg parent]
          constructor
          · intro inside
            refine ⟨?_,Or.inl inside⟩
            intro taken
            exact parent (((before.mp inside).2.symm.trans ((below child).mp taken).2.2.2))
          · rintro ⟨-,inside | ⟨-,same⟩⟩
            · exact inside
            · exact absurd same parent
      rw [held]
      constructor
      · rintro ⟨outside,inside | ⟨rfl,parent⟩⟩
        · obtain ⟨present,same⟩ := before.mp inside
          exact ⟨(added child).mpr (Or.inl present),(kept child present outside).trans same⟩
        · exact ⟨(added child).mpr (Or.inr rfl),self.trans parent.symm⟩
      · rintro ⟨present,parent⟩
        have outside : child ∉ children := by
          intro inside
          rw [adopted child inside] at parent
          exact elsewhere (Option.some.inj parent).symm
        refine ⟨outside,?_⟩
        rcases (added child).mp present with old_present | rfl
        · exact Or.inl (before.mpr ⟨old_present,(kept child old_present outside).symm.trans parent⟩)
        · exact Or.inr ⟨rfl,parent.symm.trans self⟩

/-! Erasure of an entry. -/

private theorem find_release {parent : Option Name} {name : Name} (apart : parent ≠ some name) (rib : Rib)
    (child : Name) {other : Name} (different : other ≠ name) :
    (release parent name rib child).find other = (rib.find other).map fun entry =>
      entry.place (if other = child then parent else entry.parent)
        (if some other = parent then entry.children ++ [child] else entry.children) := by
  unfold release
  cases parent with
  | none =>
    dsimp only
    rw [find_removeChild]
    congr 1
    funext entry
    rw [if_neg different,if_neg (Option.some_ne_none other)]
  | some above =>
    dsimp only
    rw [find_addChild,find_removeChild,Option.map_map]
    congr 1
    funext entry
    dsimp only [Function.comp,RibEntry.place]
    rw [if_neg different]
    simp only [Option.some.injEq]
    split_ifs <;> rfl

private theorem find_foldl_release {parent : Option Name} {name : Name} (apart : parent ≠ some name)
    (children : List Name) (rib : Rib) {other : Name} (different : other ≠ name) :
    (children.foldl (release parent name) rib).find other = (rib.find other).map fun entry =>
      entry.place (if other ∈ children then parent else entry.parent)
        (if some other = parent then entry.children ++ children else entry.children) := by
  induction children generalizing rib with
  | nil => simp [RibEntry.place]
  | cons child children ih =>
    rw [List.foldl_cons,ih,find_release apart rib child different,Option.map_map]
    congr 1
    funext entry
    dsimp only [Function.comp,RibEntry.place]
    congr 1
    · by_cases first : other = child <;> by_cases later : other ∈ children <;> simp [first,later]
    · split_ifs
      · simp
      · rfl

private theorem names_foldl_release (parent : Option Name) (name : Name) (children : List Name) (rib : Rib) :
    (children.foldl (release parent name) rib).entries.map RibEntry.name = rib.entries.map RibEntry.name := by
  induction children generalizing rib with
  | nil => rfl
  | cons child children ih =>
    rw [List.foldl_cons,ih]
    unfold release
    split
    · rw [names_addChild,names_removeChild]
    · rw [names_removeChild]

private theorem find_eraseEntry {rib : Rib} (tree : Tree rib) {name : Name} {entry : RibEntry}
    (found : rib.find name = some entry) :
    ((rib.eraseEntry entry).entries.map RibEntry.name).Pairwise
        (fun first second => Name.key first < Name.key second) ∧
      ∀ other, (rib.eraseEntry entry).find other =
        if other = name then none
        else (rib.find other).map fun old =>
          old.place (if other ∈ entry.children then entry.parent else old.parent)
            (if some other = entry.parent then old.children.filter (fun held => held ≠ name) ++ entry.children
              else old.children) := by
  have named := find_name found
  have apart : entry.parent ≠ some name := by
    rw [tree.parent name entry found]
    intro same
    exact Nat.lt_irrefl _ (findParent_eq_some.mp same).shorter
  have detached : ∀ other, other ≠ name → (match entry.parent with
      | some above => rib.removeChild above entry.name
      | none => rib).find other = (rib.find other).map fun old =>
        old.place old.parent
          (if some other = entry.parent then old.children.filter (fun held => held ≠ name) else old.children) := by
    intro other different
    cases parent : entry.parent with
    | none =>
      simp [RibEntry.place]
    | some above =>
      dsimp only
      rw [find_removeChild,named]
      congr 1
      funext old
      rw [if_neg different]
      simp only [Option.some.injEq]
  have names : (match entry.parent with
      | some above => rib.removeChild above entry.name
      | none => rib).entries.map RibEntry.name = rib.entries.map RibEntry.name := by
    split
    · exact names_removeChild _ _ _
    · rfl
  have result : ∃ faceMap, rib.eraseEntry entry =
      ⟨(entry.children.foldl (release entry.parent entry.name) (match entry.parent with
        | some above => rib.removeChild above entry.name
        | none => rib)).entries.filter fun other => other.name ≠ entry.name,faceMap⟩ := ⟨_,rfl⟩
  generalize (match entry.parent with
    | some above => rib.removeChild above entry.name
    | none => rib) = reduced at detached names result
  obtain ⟨faceMap,result⟩ := result
  rw [result]
  constructor
  · have ordered := tree.ordered
    rw [← names,← names_foldl_release entry.parent entry.name entry.children] at ordered
    exact ordered.sublist (List.filter_sublist.map RibEntry.name)
  · intro other
    have filtered : ((entry.children.foldl (release entry.parent entry.name) reduced).entries.filter
        fun other => other.name ≠ entry.name).find? (fun held => decide (held.name = other)) =
          if other = name then none else (entry.children.foldl (release entry.parent entry.name) reduced).find other := by
      rw [List.find?_filter,named]
      split
      · rename_i here
        rw [List.find?_eq_none]
        intro held _
        simp [here]
      · rename_i different
        unfold find
        congr 1
        funext held
        by_cases same : held.name = other
        · simp [same,different]
        · simp [same]
    refine filtered.trans ?_
    split
    · rfl
    · rename_i different
      rw [named,find_foldl_release apart entry.children reduced different,detached other different,Option.map_map]
      congr 1
      funext old
      dsimp only [Function.comp,RibEntry.place]
      split_ifs <;> rfl

private theorem eraseEntry_core {rib : Rib} (tree : Tree rib) {name : Name} {entry : RibEntry}
    (found : rib.find name = some entry) (other : Name) :
    (rib.eraseEntry entry).core other = if other = name then none else rib.core other := by
  unfold core
  rw [(find_eraseEntry tree found).2]
  split
  · rfl
  · rw [Option.map_map]
    rfl

private theorem isSome_eraseEntry {rib : Rib} (tree : Tree rib) {name : Name} {entry : RibEntry}
    (found : rib.find name = some entry) (other : Name) :
    ((rib.eraseEntry entry).find other).isSome ↔ (rib.find other).isSome ∧ other ≠ name := by
  rw [(find_eraseEntry tree found).2]
  split
  · rename_i here
    simp [here]
  · rename_i different
    rw [Option.isSome_map]
    simp [different]

/-- The children of an erased entry go to its parent. -/
theorem findParent_eraseEntry {rib : Rib} (tree : Tree rib) {name : Name} {entry : RibEntry}
    (found : rib.find name = some entry) (child : Name) :
    (rib.eraseEntry entry).findParent child =
      if rib.findParent child = some name then entry.parent else rib.findParent child := by
  have added : ∀ other, (rib.find other).isSome ↔ ((rib.eraseEntry entry).find other).isSome ∨ other = name := by
    intro other
    rw [isSome_eraseEntry tree found]
    by_cases here : other = name
    · simp [here,found]
    · simp [here]
  have parent : (rib.eraseEntry entry).findParent name = entry.parent :=
    (findParent_self added).symm.trans (tree.parent name entry found).symm
  by_cases between : name <+: child ∧ child ≠ name ∧
      (rib.eraseEntry entry).findParent child = (rib.eraseEntry entry).findParent name
  · obtain ⟨isPrefix,different,same⟩ := between
    rw [if_pos (findParent_between added isPrefix different same),same,parent]
  · have same := findParent_elsewhere added between
    have elsewhere : rib.findParent child ≠ some name := by
      intro above
      have present := (findParent_eq_some.mp (same.symm.trans above)).present
      rw [isSome_eraseEntry tree found] at present
      exact present.2 rfl
    rw [if_neg elsewhere,same]

private theorem eraseEntry_tree {rib : Rib} (tree : Tree rib) {name : Name} {entry : RibEntry}
    (found : rib.find name = some entry) : Tree (rib.eraseEntry entry) := by
  obtain ⟨ordered,looked⟩ := find_eraseEntry tree found
  have released : ∀ child, rib.findParent child = some name →
      (rib.eraseEntry entry).findParent child = entry.parent := by
    intro child same
    rw [findParent_eraseEntry tree found,if_pos same]
  have kept : ∀ child, rib.findParent child ≠ some name →
      (rib.eraseEntry entry).findParent child = rib.findParent child := by
    intro child different
    rw [findParent_eraseEntry tree found,if_neg different]
  have mine := fun child => tree.children name entry child found
  refine ⟨ordered,?_,?_,?_⟩
  · intro other changed stored
    rw [looked] at stored
    split at stored
    · cases stored
    · obtain ⟨old,before,rfl⟩ := Option.map_eq_some_iff.mp stored
      dsimp only [RibEntry.place]
      have above := tree.parent other old before
      split
      · rename_i inside
        exact (released other ((mine other).mp inside).2).symm
      · rename_i outside
        rw [above]
        refine (kept other ?_).symm
        intro same
        exact outside ((mine other).mpr ⟨by rw [before]; rfl,same⟩)
  · intro other changed stored
    rw [looked] at stored
    split at stored
    · cases stored
    · rename_i different
      obtain ⟨old,before,rfl⟩ := Option.map_eq_some_iff.mp stored
      dsimp only [RibEntry.place]
      have unique := tree.distinct other old before
      split
      · refine List.nodup_append.mpr ⟨unique.filter _,tree.distinct name entry found,?_⟩
        rintro child inside _ moved rfl
        have first := ((tree.children other old child before).mp (List.mem_filter.mp inside).1).2
        have second := ((mine child).mp moved).2
        rw [first] at second
        exact different (Option.some.inj second)
      · exact unique
  · intro other changed child stored
    rw [looked] at stored
    split at stored
    · cases stored
    · rename_i different
      obtain ⟨old,before,rfl⟩ := Option.map_eq_some_iff.mp stored
      dsimp only [RibEntry.place]
      have held := tree.children other old child before
      have members : (child ∈ if some other = entry.parent then
          old.children.filter (fun held => held ≠ name) ++ entry.children else old.children) ↔
          child ∈ old.children ∧ child ≠ name ∨ child ∈ entry.children ∧ some other = entry.parent := by
        by_cases above : some other = entry.parent
        · rw [if_pos above,List.mem_append,List.mem_filter]
          simp [above]
        · rw [if_neg above]
          constructor
          · intro inside
            refine Or.inl ⟨inside,?_⟩
            rintro rfl
            exact above ((held.mp inside).2.symm.trans (tree.parent child entry found).symm)
          · rintro (⟨inside,-⟩ | ⟨-,same⟩)
            · exact inside
            · exact absurd same above
      rw [members,isSome_eraseEntry tree found]
      constructor
      · rintro (⟨inside,elsewhere⟩ | ⟨moved,above⟩)
        · obtain ⟨stays,same⟩ := held.mp inside
          refine ⟨⟨stays,elsewhere⟩,(kept child ?_).trans same⟩
          rw [same]
          intro equal
          exact different (Option.some.inj equal)
        · obtain ⟨stays,same⟩ := (mine child).mp moved
          refine ⟨⟨stays,?_⟩,(released child same).trans above.symm⟩
          rintro rfl
          exact Nat.lt_irrefl _ (findParent_eq_some.mp same).shorter
      · rintro ⟨⟨stays,elsewhere⟩,same⟩
        by_cases moved : rib.findParent child = some name
        · exact Or.inr ⟨(mine child).mpr ⟨stays,moved⟩,same.symm.trans (released child moved)⟩
        · exact Or.inl ⟨held.mpr ⟨stays,(kept child moved).symm.trans same⟩,elsewhere⟩

/-! The operations of the RIB. -/

theorem tree_of_find {rib changed : Rib} (tree : Tree rib) (entries : changed.entries = rib.entries) :
    Tree changed := by
  have looked : changed.find = rib.find := by
    funext name
    unfold find
    rw [entries]
  have parents : changed.findParent = rib.findParent := by
    funext name
    unfold findParent
    rw [looked]
  refine ⟨?_,?_,?_,?_⟩
  · rw [entries]
    exact tree.ordered
  · rw [looked,parents]
    exact tree.parent
  · rw [looked]
    exact tree.distinct
  · rw [looked,parents]
    exact tree.children

theorem insert_tree {rib : Rib} (tree : Tree rib) (name : Name) (route : Route) : Tree (rib.insert name route) := by
  unfold insert
  split
  · rename_i absent
    exact insertName_tree tree absent route
  · split
    · refine tree_of_find (modify_tree tree name (fun entry => entry.insertRoute route) ?_) rfl
      intro entry
      unfold RibEntry.insertRoute
      split <;> exact ⟨rfl,rfl,rfl⟩
    · exact modify_tree tree name _ fun _ => ⟨rfl,rfl,rfl⟩

theorem eraseRoute_place (entry : RibEntry) (route : Route) :
    (entry.eraseRoute route).name = entry.name ∧ (entry.eraseRoute route).parent = entry.parent ∧
      (entry.eraseRoute route).children = entry.children := by
  unfold RibEntry.eraseRoute
  split <;> exact ⟨rfl,rfl,rfl⟩

theorem find_eraseRoute {rib : Rib} {name : Name} {entry : RibEntry} (found : rib.find name = some entry) (route : Route) :
    (rib.modify name fun entry => entry.eraseRoute route).find name = some (entry.eraseRoute route) := by
  rw [find_modify _ _ _ fun entry => (eraseRoute_place entry route).1,found,Option.map_some,if_pos rfl]

theorem erase_tree {rib : Rib} (tree : Tree rib) (name : Name) (route : Route) : Tree (rib.erase name route) := by
  unfold erase
  split
  · exact tree
  · rename_i entry found
    split
    · exact tree
    · have changed := modify_tree tree name (fun entry => entry.eraseRoute route)
        fun entry => eraseRoute_place entry route
      have held := find_eraseRoute found route
      dsimp only
      split_ifs
      · exact eraseEntry_tree changed held
      · exact eraseEntry_tree (tree_of_find changed rfl : Tree (Rib.removeFace _ _ _)) held
      · exact changed
      · exact tree_of_find changed rfl

private theorem core_modify (rib : Rib) (name : Name) (change : RibEntry → RibEntry)
    (keeps : ∀ entry, (change entry).name = entry.name) (other : Name) :
    (rib.modify name change).core other =
      if other = name then (rib.find name).map (fun entry => ((change entry).routes,(change entry).inheritedRoutes,
        (change entry).nRoutesWithCaptureSet)) else rib.core other := by
  unfold core
  rw [find_modify rib name change keeps,Option.map_map]
  split
  · rename_i here
    rw [here]
    congr 1
  · rename_i different
    congr 1

theorem insert_core {rib : Rib} (tree : Tree rib) (name : Name) (route : Route) (other : Name) :
    (rib.insert name route).core other =
      if other = name then
        match rib.core name with
        | none => some ([route],[],if route.capture then 1 else 0)
        | some (routes,inherited,captures) =>
          match routes.find? (fun held => held.same route) with
          | none => some (routes ++ [route],inherited,if route.capture then captures + 1 else captures)
          | some _ => some (updateRoute routes route,inherited,captures)
      else rib.core other := by
  unfold insert
  cases found : rib.find name with
  | none =>
    have nothing := core_of_absent found
    dsimp only
    rw [insertName_core tree found,nothing]
  | some entry =>
    have held := core_find found
    rw [held]
    dsimp only
    cases existing : entry.findRoute route with
    | none =>
      have missing : entry.routes.find? (fun held => held.same route) = none := existing
      have same : ∀ names faces, ((rib.modify name fun entry => entry.insertRoute route).addFace faces names).core other =
          (rib.modify name fun entry => entry.insertRoute route).core other := fun _ _ => rfl
      dsimp only
      rw [same,core_modify,found,missing,Option.map_some]
      · unfold RibEntry.insertRoute
        rw [existing]
      · intro entry
        unfold RibEntry.insertRoute
        split <;> rfl
    | some old =>
      have present : entry.routes.find? (fun held => held.same route) = some old := existing
      dsimp only
      rw [core_modify,found,present,Option.map_some]
      exact fun _ => rfl

theorem insert_core_other {rib : Rib} (tree : Tree rib) {name other : Name} (route : Route) (different : other ≠ name) :
    (rib.insert name route).core other = rib.core other := by
  rw [insert_core tree,if_neg different]

theorem erase_core {rib : Rib} (tree : Tree rib) (name : Name) (route : Route) (other : Name) :
    (rib.erase name route).core other =
      if other = name then
        match rib.core name with
        | none => none
        | some (routes,inherited,captures) =>
          match routes.find? (fun held => held.same route) with
          | none => some (routes,inherited,captures)
          | some existing =>
            if (routes.eraseP fun held => held.same route).isEmpty then none
            else some (routes.eraseP fun held => held.same route,inherited,
              if existing.capture then if captures = 0 then 2^64 - 1 else captures - 1 else captures)
      else rib.core other := by
  unfold erase
  cases found : rib.find name with
  | none =>
    have nothing := core_of_absent found
    dsimp only
    rw [nothing]
    split
    · rename_i here
      rw [here,nothing]
    · rfl
  | some entry =>
    have held := core_find found
    rw [held]
    dsimp only
    cases existing : entry.findRoute route with
    | none =>
      have missing : entry.routes.find? (fun held => held.same route) = none := existing
      rw [missing]
      dsimp only
      split
      · rename_i here
        rw [here,held]
      · rfl
    | some old =>
      have present : entry.routes.find? (fun held => held.same route) = some old := existing
      rw [present]
      have changed := modify_tree tree name (fun entry => entry.eraseRoute route)
        fun entry => eraseRoute_place entry route
      have stored := find_eraseRoute found route
      have reduced : (rib.modify name fun entry => entry.eraseRoute route).core other =
          if other = name then some (entry.routes.eraseP fun held => held.same route,entry.inheritedRoutes,
            if old.capture then if entry.nRoutesWithCaptureSet = 0 then 2^64 - 1 else entry.nRoutesWithCaptureSet - 1
            else entry.nRoutesWithCaptureSet) else rib.core other := by
        rw [core_modify _ _ _ fun entry => (eraseRoute_place entry route).1,found,Option.map_some]
        unfold RibEntry.eraseRoute
        rw [existing]
      have routes : (entry.eraseRoute route).routes = entry.routes.eraseP fun held => held.same route := by
        unfold RibEntry.eraseRoute
        rw [existing]
      dsimp only
      rw [routes]
      have either : ∀ changed : Rib, Tree changed → changed.find name = some (entry.eraseRoute route) →
          (∀ other, changed.core other = (rib.modify name fun entry => entry.eraseRoute route).core other) →
          (if (entry.routes.eraseP fun held => held.same route).isEmpty then changed.eraseEntry (entry.eraseRoute route)
            else changed).core other =
          if other = name then
            if (entry.routes.eraseP fun held => held.same route).isEmpty then none
            else some (entry.routes.eraseP fun held => held.same route,entry.inheritedRoutes,
              if old.capture then if entry.nRoutesWithCaptureSet = 0 then 2^64 - 1 else entry.nRoutesWithCaptureSet - 1
              else entry.nRoutesWithCaptureSet)
          else rib.core other := by
        intro shrunk good there same
        by_cases empty : (entry.routes.eraseP fun held => held.same route).isEmpty = true
        · rw [if_pos empty,eraseEntry_core good there,same,reduced]
          split <;> rfl
        · rw [if_neg empty,same,reduced,if_neg empty]
      by_cases left : (entry.eraseRoute route).hasFaceId route.faceId = true
      · rw [if_pos left]
        exact either _ changed stored fun _ => rfl
      · rw [if_neg left]
        exact either _ (tree_of_find changed rfl) stored fun _ => rfl

end Nfd.Rib

end Ncfcc
