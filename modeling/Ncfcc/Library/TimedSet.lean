import Mathlib.Order.Lattice
import Mathlib.Data.List.Nodup
import Mathlib.Data.List.Perm.Basic

/-! Containers with two indices: a unique key and a non-unique ordered time.
Entries are listed in time order, equal times in order of insertion. Both index
invariants are fields, so that an ill-formed container cannot be built. -/
namespace Ncfcc.Library

structure TimedSet (κ τ : Type) [LinearOrder τ] where
  entries : List (κ × τ)
  unique : (entries.map Prod.fst).Nodup
  ordered : entries.Pairwise (fun first second => first.2 ≤ second.2)

namespace TimedSet
variable {κ τ : Type} [LinearOrder τ]

/-- Position of a new entry: behind every entry whose time is not later. -/
def place (entry : κ × τ) : List (κ × τ) → List (κ × τ)
  | [] => [entry]
  | head :: tail => if entry.2 < head.2 then entry :: head :: tail else head :: place entry tail

theorem place_perm (entry : κ × τ) (entries : List (κ × τ)) :
    (place entry entries).Perm (entry :: entries) := by
  induction entries with
  | nil => exact List.Perm.refl _
  | cons head tail ih =>
    unfold place
    split
    · exact List.Perm.refl _
    · exact (ih.cons head).trans (List.Perm.swap entry head tail)

theorem place_ordered (entry : κ × τ) (entries : List (κ × τ))
    (ordered : entries.Pairwise (fun first second => first.2 ≤ second.2)) :
    (place entry entries).Pairwise (fun first second => first.2 ≤ second.2) := by
  induction entries with
  | nil => simp [place]
  | cons head tail ih =>
    obtain ⟨least,rest⟩ := List.pairwise_cons.mp ordered
    unfold place
    split
    · rename_i earlier
      refine List.pairwise_cons.mpr ⟨?_,ordered⟩
      intro other member
      rcases List.mem_cons.mp member with rfl | below
      · exact earlier.le
      · exact earlier.le.trans (least other below)
    · rename_i later
      refine List.pairwise_cons.mpr ⟨?_,ih rest⟩
      intro other member
      rcases List.mem_cons.mp ((place_perm entry tail).mem_iff.mp member) with rfl | below
      · exact not_lt.mp later
      · exact least other below

def empty : TimedSet κ τ := ⟨[],List.nodup_nil,List.Pairwise.nil⟩

def keys (set : TimedSet κ τ) : List κ := set.entries.map Prod.fst

def size (set : TimedSet κ τ) : Nat := set.entries.length

def front (set : TimedSet κ τ) : Option (κ × τ) := set.entries.head?

@[simp] theorem keys_empty : (empty : TimedSet κ τ).keys = [] := rfl

@[simp] theorem size_empty : (empty : TimedSet κ τ).size = 0 := rfl

theorem size_keys (set : TimedSet κ τ) : set.keys.length = set.size := by
  simp [keys,size]

private theorem nodup_keys (set : TimedSet κ τ) : set.keys.Nodup := set.unique

/-- The first of the entries in time order is the earliest. -/
theorem first_le {entries tail : List (κ × τ)} {first : κ × τ}
    (ordered : entries.Pairwise (fun first second => first.2 ≤ second.2)) (split : entries = first :: tail)
    (other : κ × τ) (member : other ∈ entries) : first.2 ≤ other.2 := by
  rw [split] at ordered member
  rcases List.mem_cons.mp member with rfl | below
  · exact le_refl _
  · exact (List.pairwise_cons.mp ordered).1 other below

theorem front_least (set : TimedSet κ τ) (entry other : κ × τ) (found : set.front = some entry)
    (member : other ∈ set.entries) : entry.2 ≤ other.2 := by
  obtain ⟨tail,split⟩ : ∃ tail, set.entries = entry :: tail := List.head?_eq_some_iff.mp found
  exact first_le set.ordered split other member

theorem front_mem (set : TimedSet κ τ) (entry : κ × τ) (found : set.front = some entry) :
    entry ∈ set.entries := List.mem_of_head? found

theorem front_none (set : TimedSet κ τ) : set.front = none ↔ set.entries = [] := by
  simp [front]

theorem mem_keys (set : TimedSet κ τ) (key : κ) :
    key ∈ set.keys ↔ ∃ time, (key,time) ∈ set.entries := by
  simp [keys]

private theorem entry_unique (set : TimedSet κ τ) (first second : κ × τ) (left : first ∈ set.entries)
    (right : second ∈ set.entries) (same : first.1 = second.1) : first = second :=
  List.inj_on_of_nodup_map set.unique left right same

section
variable [DecidableEq κ]

def find (set : TimedSet κ τ) (key : κ) : Option τ :=
  (set.entries.find? (fun entry => entry.1 = key)).map Prod.snd

/-- Insertion fails, and changes nothing, when the unique index holds the key. -/
def insert (set : TimedSet κ τ) (key : κ) (time : τ) : TimedSet κ τ :=
  if absent : key ∈ set.keys then set else
    ⟨place (key,time) set.entries,by
      rw [((place_perm (key,time) set.entries).map Prod.fst).nodup_iff]
      exact List.nodup_cons.mpr ⟨absent,set.unique⟩,
      place_ordered _ _ set.ordered⟩

def erase (set : TimedSet κ τ) (key : κ) : TimedSet κ τ :=
  ⟨set.entries.filter (fun entry => entry.1 ≠ key),
    set.unique.sublist (List.filter_sublist.map Prod.fst),set.ordered.filter _⟩

private theorem insert_perm (set : TimedSet κ τ) (key : κ) (time : τ) (absent : key ∉ set.keys) :
    (set.insert key time).entries.Perm ((key,time) :: set.entries) := by
  simp only [insert,absent,↓reduceDIte]
  exact place_perm _ _

theorem mem_insert (set : TimedSet κ τ) (key : κ) (time : τ) (absent : key ∉ set.keys) (entry : κ × τ) :
    entry ∈ (set.insert key time).entries ↔ entry = (key,time) ∨ entry ∈ set.entries := by
  rw [(insert_perm set key time absent).mem_iff,List.mem_cons]

@[simp] theorem mem_keys_insert (set : TimedSet κ τ) (key other : κ) (time : τ) :
    other ∈ (set.insert key time).keys ↔ other = key ∨ other ∈ set.keys := by
  by_cases absent : key ∈ set.keys
  · simp only [insert,absent,↓reduceDIte]
    constructor
    · exact Or.inr
    · rintro (rfl | member)
      · exact absent
      · exact member
  · have moved := (insert_perm set key time absent).map Prod.fst
    simpa [keys] using moved.mem_iff (a := other)

@[simp] theorem mem_keys_erase (set : TimedSet κ τ) (key other : κ) :
    other ∈ (set.erase key).keys ↔ other ≠ key ∧ other ∈ set.keys := by
  simp only [keys,erase,List.mem_map,List.mem_filter,decide_eq_true_eq]
  constructor
  · rintro ⟨entry,⟨member,kept⟩,rfl⟩
    exact ⟨kept,entry,member,rfl⟩
  · rintro ⟨kept,entry,member,rfl⟩
    exact ⟨entry,⟨member,kept⟩,rfl⟩

theorem size_insert (set : TimedSet κ τ) (key : κ) (time : τ) :
    (set.insert key time).size = if key ∈ set.keys then set.size else set.size + 1 := by
  split
  · rename_i present
    simp [insert,present]
  · rename_i absent
    simpa [size] using (insert_perm set key time absent).length_eq

private theorem keys_erase (set : TimedSet κ τ) (key : κ) : (set.erase key).keys = set.keys.erase key := by
  rw [(nodup_keys set).erase_eq_filter]
  simp only [keys,erase,List.filter_map]
  congr 1
  apply List.filter_congr
  intro entry member
  by_cases same : entry.1 = key <;> simp [same]

theorem size_erase (set : TimedSet κ τ) (key : κ) :
    (set.erase key).size = if key ∈ set.keys then set.size - 1 else set.size := by
  rw [← size_keys,keys_erase,← size_keys]
  split
  · rename_i present
    exact List.length_erase_of_mem present
  · rename_i absent
    rw [List.erase_of_not_mem absent]

theorem erase_front (set : TimedSet κ τ) (entry : κ × τ) (found : set.front = some entry) :
    set.entries = entry :: (set.erase entry.1).entries := by
  obtain ⟨tail,split⟩ : ∃ tail, set.entries = entry :: tail := List.head?_eq_some_iff.mp found
  have distinct := set.unique
  rw [split,List.map_cons,List.nodup_cons] at distinct
  have kept : tail.filter (fun other => other.1 ≠ entry.1) = tail := by
    apply List.filter_eq_self.mpr
    intro other member
    have apart : other.1 ≠ entry.1 := fun same => distinct.1 (same ▸ List.mem_map_of_mem member)
    simpa using apart
  simp only [erase,split]
  rw [List.filter_cons_of_neg (by simp),kept]

private theorem find_eq_some (set : TimedSet κ τ) (key : κ) (time : τ) :
    set.find key = some time ↔ (key,time) ∈ set.entries := by
  unfold find
  constructor
  · intro found
    obtain ⟨entry,first,rfl⟩ := Option.map_eq_some_iff.mp found
    have same : entry.1 = key := by simpa using List.find?_some first
    rw [← same]
    exact List.mem_of_find?_eq_some first
  · intro member
    cases first : set.entries.find? (fun entry => entry.1 = key) with
    | none => simpa using List.find?_eq_none.mp first _ member
    | some entry =>
      have same : entry.1 = key := by simpa using List.find?_some first
      have whole := entry_unique set entry (key,time) (List.mem_of_find?_eq_some first) member same
      rw [whole]
      rfl

theorem find_eq_none (set : TimedSet κ τ) (key : κ) : set.find key = none ↔ key ∉ set.keys := by
  rw [mem_keys,Option.eq_none_iff_forall_ne_some]
  simp [find_eq_some]

/-- The unique index keeps the entry it has. -/
theorem find_insert (set : TimedSet κ τ) (key other : κ) (time : τ) :
    (set.insert key time).find other = if other = key then (set.find key).or (some time)
      else set.find other := by
  by_cases present : key ∈ set.keys
  · have kept : set.insert key time = set := by simp [insert,present]
    obtain ⟨old,member⟩ := (mem_keys set key).mp present
    rw [kept]
    split
    · rename_i same
      rw [same,(find_eq_some set key old).mpr member]
      rfl
    · rfl
  · have absent := (find_eq_none set key).mpr present
    apply Option.ext
    intro found
    rw [find_eq_some,mem_insert set key time present]
    split
    · rename_i same
      subst same
      have gone : (other,found) ∉ set.entries :=
        fun member => present ((mem_keys set other).mpr ⟨found,member⟩)
      simp [absent,gone,eq_comm]
    · rename_i apart
      rw [find_eq_some]
      simp [apart]

theorem find_erase (set : TimedSet κ τ) (key other : κ) :
    (set.erase key).find other = if other = key then none else set.find other := by
  split
  · rename_i same
    rw [find_eq_none,mem_keys_erase]
    exact fun kept => kept.1 same
  · rename_i apart
    apply Option.ext
    intro time
    rw [find_eq_some,find_eq_some]
    simp [erase,apart]

end

end TimedSet

end Ncfcc.Library
