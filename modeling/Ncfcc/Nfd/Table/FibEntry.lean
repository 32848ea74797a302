import Mathlib.Data.List.Nodup
import Mathlib.Data.List.Sort
import Ncfcc.Library.KeyedList

/-! The next hops of a FIB entry, kept in the order of their costs. -/
namespace Ncfcc.Nfd.Table
open Ncfcc.Library

structure NextHop (Face : Type) where
  face : Face
  cost : Nat
  deriving DecidableEq

variable {Face : Type}

/-- `Entry::sortNextHops`. -/
def sortNextHops (hops : List (NextHop Face)) : List (NextHop Face) :=
  hops.mergeSort fun first second => first.cost ≤ second.cost

section
variable [DecidableEq Face]

def findNextHop (hops : List (NextHop Face)) (face : Face) : Option (NextHop Face) :=
  hops.find? fun hop => hop.face = face

def setCost : List (NextHop Face) → Face → Nat → List (NextHop Face)
  | [], _, _ => []
  | hop :: hops, face, cost => if hop.face = face then ⟨face,cost⟩ :: hops else hop :: setCost hops face cost

/-- `Entry::addNextHop`. -/
def addNextHop (hops : List (NextHop Face)) (face : Face) (cost : Nat) : List (NextHop Face) :=
  let hops := if (findNextHop hops face).isNone then hops ++ [⟨face,0⟩] else hops
  sortNextHops (setCost hops face cost)

end

private theorem sortNextHops_perm (hops : List (NextHop Face)) : (sortNextHops hops).Perm hops :=
  List.mergeSort_perm hops _

section
variable [DecidableEq Face] (hops : List (NextHop Face)) (face : Face) (cost : Nat)

private theorem setCost_faces : (setCost hops face cost).map NextHop.face = hops.map NextHop.face := by
  induction hops with
  | nil => rfl
  | cons hop hops ih =>
    unfold setCost
    split
    · rename_i same
      simp [same]
    · simp [ih]

private theorem mem_setCost (distinct : (hops.map NextHop.face).Nodup) (present : face ∈ hops.map NextHop.face)
    (hop : NextHop Face) :
    hop ∈ setCost hops face cost ↔ if hop.face = face then hop.cost = cost else hop ∈ hops := by
  induction hops with
  | nil => simp at present
  | cons head rest ih =>
    rw [List.map_cons,List.nodup_cons] at distinct
    obtain ⟨alone,distinct⟩ := distinct
    unfold setCost
    by_cases here : head.face = face
    · rw [if_pos here]
      by_cases same : hop.face = face
      · rw [if_pos same,List.mem_cons]
        constructor
        · rintro (rfl | inside)
          · rfl
          · refine absurd (List.mem_map.mpr ⟨hop,inside,?_⟩) alone
            rw [same,here]
        · rintro rfl
          left
          rw [← same]
      · rw [if_neg same,List.mem_cons,List.mem_cons]
        constructor
        · rintro (rfl | inside)
          · exact absurd rfl same
          · exact Or.inr inside
        · rintro (rfl | inside)
          · exact absurd here same
          · exact Or.inr inside
    · rw [if_neg here,List.mem_cons]
      rw [List.map_cons,List.mem_cons] at present
      have below := ih distinct (present.resolve_left (Ne.symm here))
      rw [below]
      by_cases same : hop.face = face
      · rw [if_pos same,if_pos same]
        constructor
        · rintro (rfl | right)
          · exact absurd same here
          · exact right
        · exact Or.inr
      · rw [if_neg same,if_neg same,List.mem_cons]

private theorem addNextHop_faces (distinct : (hops.map NextHop.face).Nodup) :
    let extended := if (findNextHop hops face).isNone then hops ++ [⟨face,0⟩] else hops
    (extended.map NextHop.face).Nodup ∧ face ∈ extended.map NextHop.face ∧
      ∀ hop, hop.face ≠ face → (hop ∈ extended ↔ hop ∈ hops) := by
  cases found : findNextHop hops face with
  | none =>
    refine ⟨?_,by simp,?_⟩
    · rw [Option.isNone_none,if_pos rfl,List.map_append,List.map_singleton,List.nodup_append]
      refine ⟨distinct,List.nodup_singleton _,?_⟩
      intro other member last same equal
      obtain ⟨hop,inside,rfl⟩ := List.mem_map.mp member
      rw [List.mem_singleton.mp same] at equal
      exact absurd (decide_eq_true equal) (List.find?_eq_none.mp found hop inside)
    · intro hop different
      rw [Option.isNone_none,if_pos rfl,List.mem_append,List.mem_singleton]
      constructor
      · rintro (inside | rfl)
        · exact inside
        · exact absurd rfl different
      · exact Or.inl
  | some hop =>
    have same := List.find?_some found
    exact ⟨distinct,List.mem_map.mpr ⟨hop,List.mem_of_find?_eq_some found,of_decide_eq_true same⟩,fun _ _ => .rfl⟩

theorem addNextHop_spec (distinct : (hops.map NextHop.face).Nodup) :
    ((addNextHop hops face cost).map NextHop.face).Nodup ∧
      ∀ hop, hop ∈ addNextHop hops face cost ↔ if hop.face = face then hop.cost = cost else hop ∈ hops := by
  obtain ⟨unique,present,others⟩ := addNextHop_faces hops face distinct
  unfold addNextHop
  dsimp only
  generalize (if (findNextHop hops face).isNone then hops ++ [⟨face,0⟩] else hops) = extended at unique present others
  have sorted := sortNextHops_perm (setCost extended face cost)
  constructor
  · rw [(sorted.map NextHop.face).nodup_iff,setCost_faces]
    exact unique
  · intro hop
    rw [sorted.mem_iff,mem_setCost extended face cost unique present]
    split
    · rfl
    · rename_i different
      exact others hop different

end

/-- One next hop a face, by non-decreasing cost. -/
structure Ordered (hops : List (NextHop Face)) : Prop where
  distinct : (hops.map NextHop.face).Nodup
  sorted : hops.Pairwise fun first second => first.cost ≤ second.cost

theorem Ordered.empty : Ordered ([] : List (NextHop Face)) := ⟨List.nodup_nil,List.Pairwise.nil⟩

theorem Ordered.sublist {hops fewer : List (NextHop Face)} (ordered : Ordered hops) (sublist : fewer.Sublist hops) :
    Ordered fewer :=
  ⟨ordered.distinct.sublist (sublist.map _),ordered.sorted.sublist sublist⟩

section
variable [DecidableEq Face] {hops : List (NextHop Face)}

theorem Ordered.addNextHop (ordered : Ordered hops) (face : Face) (cost : Nat) :
    Ordered (Table.addNextHop hops face cost) := by
  refine ⟨(addNextHop_spec hops face cost ordered.distinct).1,?_⟩
  have sorted : ∀ all : List (NextHop Face), (sortNextHops all).Pairwise fun first second => first.cost ≤ second.cost := by
    intro all
    refine (List.pairwise_mergeSort ?_ ?_ all).imp of_decide_eq_true
    · intro first second third one two
      exact decide_eq_true ((of_decide_eq_true one).trans (of_decide_eq_true two))
    · intro first second
      simpa using Nat.le_total first.cost second.cost
  exact sorted _

theorem Ordered.eraseP_eq (ordered : Ordered hops) (face : Face) :
    (hops.eraseP fun hop => hop.face = face) = hops.filter fun hop => hop.face ≠ face :=
  eraseP_key ordered.distinct face

end

end Ncfcc.Nfd.Table
