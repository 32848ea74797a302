import Mathlib.Algebra.Ring.Nat
import Mathlib.Algebra.BigOperators.Group.List.Basic
import Mathlib.Order.Lattice.Nat

/-! Paths and their costs in directed graphs with labelled edges. A path is the list
of the edges it takes, each with the vertex it leads to. -/
namespace Ncfcc.Library

variable {V E : Type*}

def IsPath (edges : V → List (E × V)) : V → List (E × V) → V → Prop
  | source, [], target => source = target
  | source, (edge,next) :: rest, target => (edge,next) ∈ edges source ∧ IsPath edges next rest target

def Connected (edges : V → List (E × V)) (source target : V) : Prop := ∃ path, IsPath edges source path target

def pathCost (weight : E → Nat) (path : List (E × V)) : Nat := (path.map fun step => weight step.1).sum

/-- The least cost of a path, zero if there is none. -/
noncomputable def leastCost (edges : V → List (E × V)) (weight : E → Nat) (source target : V) : Nat :=
  sInf {cost | ∃ path, IsPath edges source path target ∧ pathCost weight path = cost}

def visited (source : V) (path : List (E × V)) : List V := source :: path.map Prod.snd

section
variable {edges : V → List (E × V)} {weight : E → Nat} {source target : V}

@[simp] theorem pathCost_cons (step : E × V) (path : List (E × V)) :
    pathCost weight (step :: path) = weight step.1 + pathCost weight path := by
  simp [pathCost]

private theorem leastCost_le {path : List (E × V)} (isPath : IsPath edges source path target) :
    leastCost edges weight source target ≤ pathCost weight path := Nat.sInf_le ⟨path,isPath,rfl⟩

theorem exists_leastCost (connected : Connected edges source target) :
    ∃ path, IsPath edges source path target ∧ pathCost weight path = leastCost edges weight source target := by
  obtain ⟨path,isPath⟩ := connected
  have nonempty : {cost | ∃ path, IsPath edges source path target ∧ pathCost weight path = cost}.Nonempty :=
    ⟨pathCost weight path,path,isPath,rfl⟩
  exact Nat.sInf_mem nonempty

theorem leastCost_eq {path : List (E × V)} (isPath : IsPath edges source path target)
    (least : ∀ other, IsPath edges source other target → pathCost weight path ≤ pathCost weight other) :
    leastCost edges weight source target = pathCost weight path := by
  apply Nat.le_antisymm (leastCost_le isPath)
  obtain ⟨other,isOther,same⟩ : ∃ other, IsPath edges source other target ∧
      pathCost weight other = leastCost edges weight source target := exists_leastCost ⟨path,isPath⟩
  rw [← same]
  exact least other isOther

/-- A labelling that no edge improves bounds the cost of every path from below. -/
theorem label_le_pathCost (label : V → Nat) (feasible : ∀ vertex, ∀ step ∈ edges vertex,
    label step.2 ≤ label vertex + weight step.1) {path : List (E × V)} (isPath : IsPath edges source path target) :
    label target ≤ label source + pathCost weight path := by
  induction path generalizing source with
  | nil =>
    rw [show source = target from isPath]
    exact Nat.le_add_right _ _
  | cons step rest ih =>
    obtain ⟨taken,further⟩ := isPath
    have first := feasible source step taken
    have later := ih further
    rw [pathCost_cons]
    omega

/-- A path from any vertex on the way on. -/
theorem isPath_from {path : List (E × V)} (isPath : IsPath edges source path target) {vertex : V}
    (inside : vertex ∈ visited source path) :
    ∃ rest, IsPath edges vertex rest target ∧ rest <:+ path ∧ visited vertex rest <:+ visited source path := by
  induction path generalizing source with
  | nil =>
    rw [List.mem_singleton.mp inside]
    exact ⟨[],isPath,List.suffix_rfl,List.suffix_rfl⟩
  | cons step path ih =>
    rcases List.mem_cons.mp inside with rfl | later
    · exact ⟨step :: path,isPath,List.suffix_rfl,List.suffix_rfl⟩
    · obtain ⟨rest,isRest,shorter,fewer⟩ := ih isPath.2 later
      exact ⟨rest,isRest,shorter.trans (List.suffix_cons _ _),fewer.trans (List.suffix_cons _ _)⟩

/-- Loops can be cut out of a path. -/
theorem exists_simple [DecidableEq V] {path : List (E × V)} (isPath : IsPath edges source path target) :
    ∃ simple, IsPath edges source simple target ∧ (visited source simple).Nodup ∧ simple.Sublist path := by
  induction path generalizing source with
  | nil => exact ⟨[],isPath,List.nodup_singleton source,List.Sublist.refl []⟩
  | cons step path ih =>
    obtain ⟨rest,isRest,distinct,shorter⟩ := ih isPath.2
    by_cases again : source ∈ visited step.2 rest
    · obtain ⟨last,isLast,cut,fewer⟩ := isPath_from isRest again
      exact ⟨last,isLast,distinct.sublist fewer.sublist,cut.sublist.trans (shorter.cons step)⟩
    · exact ⟨step :: rest,⟨isPath.1,isRest⟩,List.nodup_cons.mpr ⟨again,distinct⟩,shorter.cons_cons step⟩

theorem pathCost_sublist {path longer : List (E × V)} (shorter : path.Sublist longer) :
    pathCost weight path ≤ pathCost weight longer := by
  induction shorter with
  | slnil => exact Nat.le_refl _
  | cons step _ ih =>
    rw [pathCost_cons]
    omega
  | cons_cons step _ ih =>
    rw [pathCost_cons,pathCost_cons]
    omega

theorem le_pathCost {path : List (E × V)} {step : E × V} (inside : step ∈ path) :
    weight step.1 ≤ pathCost weight path := by
  have alone : pathCost weight [step] ≤ pathCost weight path := pathCost_sublist (List.singleton_sublist.mpr inside)
  rw [pathCost_cons] at alone
  exact (Nat.le_add_right _ _).trans alone

theorem pathCost_congr {other : E → Nat} {path : List (E × V)}
    (same : ∀ step ∈ path, weight step.1 = other step.1) : pathCost weight path = pathCost other path := by
  unfold pathCost
  rw [List.map_congr_left same]

/-- Each edge of a path leaves a vertex on the way. -/
theorem isPath_leaves {path : List (E × V)} (isPath : IsPath edges source path target) {step : E × V}
    (inside : step ∈ path) : ∃ vertex ∈ visited source path, step ∈ edges vertex := by
  induction path generalizing source with
  | nil => cases inside
  | cons first path ih =>
    rcases List.mem_cons.mp inside with rfl | later
    · exact ⟨source,List.mem_cons_self,isPath.1⟩
    · obtain ⟨vertex,there,leaves⟩ := ih isPath.2 later
      exact ⟨vertex,List.mem_cons_of_mem _ there,leaves⟩

end

end Ncfcc.Library
