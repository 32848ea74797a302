import Mathlib.Data.List.Perm.Basic
import Ncfcc.Nfd.Rib.Traversal

/-! The least costs of the routes of an entry, and how one more, one fewer or one other
route changes them. -/
namespace Ncfcc.Nfd

def leastCost (test : Route → Bool) (routes : List Route) : Option Nat := ((routes.filter test).map Route.cost).min?

section
variable (test : Route → Bool)

theorem leastCost_eq_some {routes : List Route} {cost : Nat} :
    leastCost test routes = some cost ↔
      (∃ route ∈ routes, test route ∧ route.cost = cost) ∧ ∀ route ∈ routes, test route → cost ≤ route.cost := by
  rw [leastCost,List.min?_eq_some_iff,List.mem_map]
  simp only [List.mem_filter,List.mem_map,and_assoc,forall_exists_index,and_imp]
  refine and_congr_right fun _ => ⟨?_,?_⟩
  · intro least route inside passes
    exact least route.cost route inside passes rfl
  · intro least cost route inside passes same
    rw [← same]
    exact least route inside passes

private theorem leastCost_perm {first second : List Route} (perm : first.Perm second) :
    leastCost test first = leastCost test second := by
  apply Option.ext
  intro cost
  rw [leastCost_eq_some,leastCost_eq_some]
  simp only [perm.mem_iff]

private theorem leastCost_cons (route : Route) (routes : List Route) :
    leastCost test (route :: routes) =
      if test route then some ((leastCost test routes).elim route.cost (min route.cost)) else leastCost test routes := by
  unfold leastCost
  rw [List.filter_cons]
  split
  · rw [List.map_cons,List.min?_cons]
  · rfl

private theorem foldl_lowest (routes : List Route) (candidate : Route) :
    ∃ route, routes.foldl (fun candidate route =>
        match candidate with
        | none => some route
        | some best => if route.cost < best.cost then some route else some best) (some candidate) = some route ∧
      route ∈ candidate :: routes ∧ ∀ other ∈ candidate :: routes, route.cost ≤ other.cost := by
  induction routes generalizing candidate with
  | nil => exact ⟨candidate,rfl,List.mem_cons_self,fun other inside => by rw [List.mem_singleton.mp inside]⟩
  | cons next routes ih =>
    rw [List.foldl_cons]
    dsimp only
    split
    · rename_i less
      obtain ⟨route,found,inside,least⟩ := ih next
      refine ⟨route,found,List.mem_cons_of_mem _ inside,?_⟩
      intro other member
      rcases List.mem_cons.mp member with rfl | later
      · exact (least next List.mem_cons_self).trans less.le
      · exact least other later
    · rename_i notLess
      obtain ⟨route,found,inside,least⟩ := ih candidate
      refine ⟨route,found,?_,?_⟩
      · rcases List.mem_cons.mp inside with rfl | later
        · exact List.mem_cons_self
        · exact List.mem_cons_of_mem _ (List.mem_cons_of_mem _ later)
      · intro other member
        rcases List.mem_cons.mp member with rfl | later
        · exact least _ List.mem_cons_self
        · rcases List.mem_cons.mp later with rfl | last
          · exact (least candidate List.mem_cons_self).trans (Nat.le_of_not_lt notLess)
          · exact least other (List.mem_cons_of_mem _ last)

private theorem lowestCost_cases (routes : List Route) :
    (lowestCost (routes.filter test) = none ∧ leastCost test routes = none) ∨
      ∃ route, lowestCost (routes.filter test) = some route ∧ route ∈ routes ∧ test route ∧
        leastCost test routes = some route.cost := by
  cases candidates : routes.filter test with
  | nil =>
    refine Or.inl ⟨rfl,?_⟩
    rw [leastCost,candidates]
    rfl
  | cons first others =>
    obtain ⟨route,found,inside,least⟩ := foldl_lowest others first
    rw [← candidates] at inside least
    obtain ⟨member,passes⟩ := List.mem_filter.mp inside
    refine Or.inr ⟨route,found,member,passes,?_⟩
    rw [leastCost_eq_some]
    refine ⟨⟨route,member,passes,rfl⟩,?_⟩
    intro other held also
    exact least other (List.mem_filter.mpr ⟨held,also⟩)

end

theorem ownCost_perm {first second : List Route} (perm : first.Perm second) (face : Nat) :
    ownCost first face = ownCost second face := leastCost_perm _ perm

theorem passedCost_perm {first second : List Route} (perm : first.Perm second) (face : Nat) :
    passedCost first face = passedCost second face := leastCost_perm _ perm

theorem captures_perm {first second : List Route} (perm : first.Perm second) : captures first = captures second := by
  unfold captures
  rw [Bool.eq_iff_iff,List.any_eq_true,List.any_eq_true]
  simp only [perm.mem_iff]

theorem captures_cons (route : Route) (routes : List Route) :
    captures (route :: routes) = (route.capture || captures routes) := rfl

theorem ownCost_cons (route : Route) (routes : List Route) (face : Nat) :
    ownCost (route :: routes) face =
      if route.faceId = face then some ((ownCost routes face).elim route.cost (min route.cost))
      else ownCost routes face := by
  have step := leastCost_cons (fun route => route.faceId == face) route routes
  simp only [beq_iff_eq] at step
  exact step

theorem passedCost_cons (route : Route) (routes : List Route) (face : Nat) :
    passedCost (route :: routes) face =
      if route.faceId = face ∧ route.childInherit then some ((passedCost routes face).elim route.cost (min route.cost))
      else passedCost routes face := by
  have step := leastCost_cons (fun route => route.faceId == face && route.childInherit) route routes
  simp only [Bool.and_eq_true,beq_iff_eq] at step
  exact step

theorem lowestOnFace_cases (entry : RibEntry) (face : Nat) :
    (entry.getRouteWithLowestCostByFaceId face = none ∧ ownCost entry.routes face = none) ∨
      ∃ route, entry.getRouteWithLowestCostByFaceId face = some route ∧
        ownCost entry.routes face = some route.cost := by
  rcases lowestCost_cases (fun route => route.faceId == face) entry.routes with nothing | ⟨route,found,-,-,cost⟩
  · exact Or.inl nothing
  · exact Or.inr ⟨route,found,cost⟩

theorem lowestPassed_cases (entry : RibEntry) (face : Nat) :
    (entry.getRouteWithLowestCostAndChildInheritByFaceId face = none ∧ passedCost entry.routes face = none) ∨
      ∃ route, entry.getRouteWithLowestCostAndChildInheritByFaceId face = some route ∧ route.faceId = face ∧
        passedCost entry.routes face = some route.cost := by
  rcases lowestCost_cases (fun route => route.faceId == face && route.childInherit) entry.routes with
    nothing | ⟨route,found,-,passes,cost⟩
  · exact Or.inl nothing
  · rw [Bool.and_eq_true,beq_iff_eq] at passes
    exact Or.inr ⟨route,found,passes.1,cost⟩

/-! Taking a route out and putting another in its place. -/

theorem perm_eraseP {routes : List Route} {test : Route → Bool} {existing : Route}
    (found : routes.find? test = some existing) : routes.Perm (existing :: routes.eraseP test) := by
  induction routes with
  | nil => cases found
  | cons head routes ih =>
    by_cases here : test head = true
    · rw [List.find?_cons_of_pos here,Option.some.injEq] at found
      rw [List.eraseP_cons_of_pos here,found]
    · rw [List.find?_cons_of_neg here] at found
      rw [List.eraseP_cons_of_neg here]
      exact ((ih found).cons head).trans (List.Perm.swap existing head _)

theorem perm_updateRoute {routes : List Route} {route existing : Route}
    (found : routes.find? (fun other => other.same route) = some existing) :
    (updateRoute routes route).Perm (route :: routes.eraseP fun other => other.same route) := by
  induction routes with
  | nil => cases found
  | cons head routes ih =>
    rw [List.find?_cons] at found
    rw [updateRoute,List.eraseP_cons]
    cases here : head.same route with
    | true => exact List.Perm.refl _
    | false =>
      rw [here] at found
      exact ((ih found).cons head).trans (List.Perm.swap route head _)

theorem findRoute_face {entry : RibEntry} {route existing : Route} (found : entry.findRoute route = some existing) :
    existing.faceId = route.faceId := by
  have same := List.find?_some found
  unfold Route.same at same
  rw [Bool.and_eq_true] at same
  exact beq_iff_eq.mp same.1

end Ncfcc.Nfd
