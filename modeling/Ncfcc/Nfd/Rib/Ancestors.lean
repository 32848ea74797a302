import Ncfcc.Nfd.Rib.Traversal

/-! The routes that an entry can inherit, as `getAncestorRoutes` collects them. On each face
it takes the first route listed by the nearest entry that passes one on, which need not be
the cheapest of that entry. -/
namespace Ncfcc.Nfd

def Sorted (routes : List Route) : Prop := (routes.map Route.faceId).Pairwise (· < ·)

theorem Sorted.oneEach {routes : List Route} (sorted : Sorted routes) : OneEach routes :=
  List.Pairwise.imp Nat.ne_of_lt sorted

theorem Sorted.filter {routes : List Route} (sorted : Sorted routes) (test : Route → Bool) :
    Sorted (routes.filter test) := List.Pairwise.sublist (List.filter_sublist.map Route.faceId) sorted

private theorem mem_insertRoute {routes : List Route} {new route : Route} (inside : route ∈ insertRoute routes new) :
    route = new ∨ route ∈ routes := by
  induction routes with
  | nil => exact Or.inl (List.mem_singleton.mp inside)
  | cons head routes ih =>
    unfold insertRoute at inside
    split at inside
    · exact List.mem_cons.mp inside
    · split at inside
      · rcases List.mem_cons.mp inside with rfl | later
        · exact Or.inr List.mem_cons_self
        · exact (ih later).imp_right (List.mem_cons_of_mem _)
      · exact Or.inr inside

theorem Sorted.insertRoute {routes : List Route} (sorted : Sorted routes) (new : Route) :
    Sorted (insertRoute routes new) := by
  induction routes with
  | nil => exact List.pairwise_singleton _ _
  | cons head routes ih =>
    obtain ⟨first,rest⟩ := List.pairwise_cons.mp (show ((head :: routes).map Route.faceId).Pairwise (· < ·) from sorted)
    unfold Nfd.insertRoute
    split
    · rename_i before
      refine List.pairwise_cons.mpr ⟨?_,sorted⟩
      intro face inside
      rcases List.mem_cons.mp inside with rfl | later
      · exact before
      · exact before.trans (first face later)
    · split
      · rename_i after
        refine List.pairwise_cons.mpr ⟨?_,ih rest⟩
        intro face inside
        obtain ⟨route,member,rfl⟩ := List.mem_map.mp inside
        rcases mem_insertRoute member with rfl | old
        · exact after
        · exact first _ (List.mem_map_of_mem old)
      · exact sorted

private theorem findFace_above {routes : List Route} {face : Nat} (above : ∀ route ∈ routes, face < route.faceId) :
    findFace routes face = none := by
  apply List.find?_eq_none.mpr
  intro route inside same
  have bound := above route inside
  rw [beq_iff_eq.mp same] at bound
  exact Nat.lt_irrefl _ bound

theorem findFace_insertRoute {routes : List Route} (sorted : Sorted routes) (new : Route) (face : Nat) :
    findFace (insertRoute routes new) face =
      (findFace routes face).or (if new.faceId = face then some new else none) := by
  induction routes with
  | nil =>
    by_cases same : new.faceId = face
    · simp [insertRoute,findFace,same]
    · simp [insertRoute,findFace,same]
  | cons head routes ih =>
    obtain ⟨first,rest⟩ := List.pairwise_cons.mp (show ((head :: routes).map Route.faceId).Pairwise (· < ·) from sorted)
    unfold insertRoute
    split
    · rename_i before
      by_cases same : new.faceId = face
      · have missing : findFace (head :: routes) face = none := by
          apply findFace_above
          intro route inside
          rw [← same]
          rcases List.mem_cons.mp inside with rfl | later
          · exact before
          · exact before.trans (first _ (List.mem_map_of_mem later))
        rw [missing,if_pos same,findFace,List.find?_cons,beq_iff_eq.mpr same]
        rfl
      · rw [if_neg same,Option.or_none,findFace,List.find?_cons,beq_eq_false_iff_ne.mpr same]
        rfl
    · split
      · by_cases same : head.faceId = face
        · simp [findFace,same]
        · have skip : ∀ others, findFace (head :: others) face = findFace others face := by
            intro others
            simp [findFace,same]
          rw [skip,skip,ih rest]
      · rename_i notBefore notAfter
        by_cases same : new.faceId = face
        · have equal : head.faceId = face := by omega
          simp [findFace,equal]
        · rw [if_neg same,Option.or_none]

private theorem foldl_insertRoute (list : List Route) {routes : List Route} (sorted : Sorted routes) :
    Sorted (list.foldl insertRoute routes) ∧
      ∀ face, findFace (list.foldl insertRoute routes) face = (findFace routes face).or (findFace list face) := by
  induction list generalizing routes with
  | nil => exact ⟨sorted,fun face => by rw [List.foldl_nil]; exact (Option.or_none).symm⟩
  | cons new list ih =>
    obtain ⟨kept,found⟩ := ih (sorted.insertRoute new)
    refine ⟨kept,?_⟩
    intro face
    rw [List.foldl_cons,found,findFace_insertRoute sorted,Option.or_assoc]
    congr 1
    by_cases same : new.faceId = face
    · simp [findFace,same]
    · simp [findFace,same]

private theorem findFace_childInherit (routes : List Route) (face : Nat) :
    findFace (routes.filter fun route => route.childInherit) face = firstPassed routes face := by
  rw [findFace,List.find?_filter]
  congr 1
  funext route
  by_cases same : route.faceId = face
  · simp [same]
  · simp [same]

private theorem firstPassed_eq_none {routes : List Route} {face : Nat} :
    firstPassed routes face = none ↔ passedCost routes face = none := by
  rw [passedCost_eq_none,firstPassed,List.find?_eq_none,List.any_eq_false]

section
variable {rib : Rib}

private theorem source_root {name : Name} (root : rib.findParent name = none) (face : Nat) :
    rib.content.source face name name.length = none := by
  rw [Content.source_skip 0 name.length (Nat.zero_le _)]
  · rfl
  · intro size _ less
    have missing := Rib.findParent_eq_none.mp root (name.getPrefix size) (List.take_prefix _ _)
      (by rw [Name.getPrefix,List.length_take_of_le less.le]; exact less)
    rw [Rib.content,missing]
    rfl

private theorem source_parent {name above : Name} {entry : RibEntry} (longest : rib.LongestAbove name above)
    (found : rib.find above = some entry) (face : Nat) :
    rib.content.source face name name.length =
      match passedCost entry.routes face with
      | some _ => some entry.routes
      | none => if captures entry.routes then none else rib.content.source face above above.length := by
  have upper : name.getPrefix above.length = above := (List.prefix_iff_eq_take.mp longest.isPrefix).symm
  rw [Content.source_skip (above.length + 1) name.length longest.shorter,Content.source,upper,content_find found]
  · have upward : rib.content.source face name above.length = rib.content.source face above above.length :=
      Content.source_congr longest.isPrefix above.length (Nat.le_refl _)
    dsimp only
    cases passedCost entry.routes face with
    | some cost => rfl
    | none => exact congrArg (fun further => if captures entry.routes then none else further) upward
  · intro size more less
    have length : (name.getPrefix size).length = size := List.length_take_of_le less.le
    by_contra stored
    have present : (rib.find (name.getPrefix size)).isSome := by
      rw [← content_isSome]
      exact Option.isSome_iff_ne_none.mpr stored
    have bound := longest.longest (name.getPrefix size) (List.take_prefix _ _) (by rw [length]; exact less) present
    omega

private theorem ancestorRoutes_spec (tree : rib.Tree) (counted : Counted rib) (fuel : Nat) (name : Name)
    (enough : name.length ≤ fuel) {routes : List Route} (sorted : Sorted routes) :
    Sorted (rib.ancestorRoutes fuel (rib.findParent name) routes) ∧
      ∀ face, findFace (rib.ancestorRoutes fuel (rib.findParent name) routes) face =
        (findFace routes face).or
          ((rib.content.source face name name.length).bind fun routes => firstPassed routes face) := by
  induction fuel generalizing name routes with
  | zero =>
    refine ⟨sorted,?_⟩
    intro face
    rw [Nat.le_zero.mp enough,Content.source]
    exact (Option.or_none).symm
  | succ fuel ih =>
    rcases Rib.findParent_cases rib name with ⟨root,-⟩ | ⟨above,parent,longest⟩
    · rw [root]
      refine ⟨sorted,?_⟩
      intro face
      rw [source_root root]
      exact (Option.or_none).symm
    · obtain ⟨entry,found⟩ := Option.isSome_iff_exists.mp longest.present
      obtain ⟨kept,collected⟩ := foldl_insertRoute (entry.routes.filter fun route => route.childInherit) sorted
      rw [parent,Rib.ancestorRoutes,found]
      dsimp only
      rw [hasCapture_eq counted found]
      by_cases stops : captures entry.routes = true
      · rw [if_pos stops]
        refine ⟨kept,?_⟩
        intro face
        rw [collected,findFace_childInherit,source_parent longest found,stops]
        cases passes : passedCost entry.routes face with
        | some cost => rfl
        | none => rw [firstPassed_eq_none.mpr passes]; rfl
      · rw [if_neg stops,tree.parent above entry found]
        have shorter := longest.shorter
        obtain ⟨still,whole⟩ := ih above (by omega) kept
        refine ⟨still,?_⟩
        intro face
        rw [whole,collected,findFace_childInherit,source_parent longest found,if_neg stops,Option.or_assoc]
        congr 1
        cases passes : passedCost entry.routes face with
        | some cost =>
          have first : firstPassed entry.routes face ≠ none := by
            intro nothing
            rw [firstPassed_eq_none.mp nothing] at passes
            cases passes
          obtain ⟨route,listed⟩ := Option.ne_none_iff_exists'.mp first
          dsimp only
          rw [Option.bind_some,listed]
          rfl
        | none => rw [firstPassed_eq_none.mpr passes,Option.none_or]

/-- On the face, the nearest entry above that passes a route on lists its cheapest such route first. -/
def ListedFirst (content : Content) (name : Name) (face : Nat) : Prop :=
  ∀ routes, content.source face name name.length = some routes →
    (firstPassed routes face).map Route.cost = passedCost routes face

/-- What `getAncestorRoutes` returns for a name. -/
structure AncestorsOf (content : Content) (name : Name) (ancestors : List Route) : Prop where
  sorted : Sorted ancestors
  absent : ∀ face, findFace ancestors face = none ↔ content.inherited face name = none
  cost : ∀ face, ListedFirst content name face →
    (findFace ancestors face).map Route.cost = content.inherited face name

theorem getAncestorRoutesOf_spec (tree : rib.Tree) (counted : Counted rib) (name : Name) :
    AncestorsOf rib.content name (rib.getAncestorRoutesOf name) := by
  have start : Sorted [] := List.Pairwise.nil
  obtain ⟨sorted,collected⟩ := ancestorRoutes_spec tree counted name.length name (Nat.le_refl _) start
  constructor
  · exact sorted
  · intro face
    rw [Rib.getAncestorRoutesOf,collected,Content.inherited,Content.above_eq_source]
    cases source : rib.content.source face name name.length with
    | none => exact ⟨fun _ => rfl,fun _ => rfl⟩
    | some routes => exact firstPassed_eq_none
  · intro face first
    rw [Rib.getAncestorRoutesOf,collected,Content.inherited,Content.above_eq_source]
    cases source : rib.content.source face name name.length with
    | none => rfl
    | some routes => exact first routes source

theorem getAncestorRoutes_spec (tree : rib.Tree) (counted : Counted rib) {name : Name} {entry : RibEntry}
    (found : rib.find name = some entry) : AncestorsOf rib.content name (rib.getAncestorRoutes entry) := by
  rw [Rib.getAncestorRoutes,Rib.find_name found,tree.parent name entry found]
  exact getAncestorRoutesOf_spec tree counted name

end

end Ncfcc.Nfd
