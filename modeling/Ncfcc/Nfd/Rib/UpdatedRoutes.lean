import Ncfcc.Nfd.Rib.FaceMap
import Ncfcc.Nfd.Rib.PendingRemoval

/-! The next hop that is queued for an entry when one of its routes is registered again. -/
namespace Ncfcc.Nfd
open FibUpdater Library

/-- No absent route is read, and what is queued for the name and the face has the least cost of the routes. -/
def InstallsLeast (computed : Option (List Emission)) (name : Name) (face : Nat) (routes : List Route) : Prop :=
  ∃ emissions, computed = some emissions ∧
    ∀ update ∈ (fibUpdates face emissions).1 ++ (fibUpdates face emissions).2,
      update.name = name → update.faceId = face → update.cost = ownCost routes face

/-- Where the cost rises from below the least one to above it, a cheapest route is passed on. -/
def PassesLeast (updated : List Route) (route existing : Route) : Prop :=
  ∀ least, ownCost updated route.faceId = some least → existing.cost < least → least < route.cost →
    passedCost updated route.faceId = some least

/-- Capture is turned on while the entry has an inherited route on the face, and one above it. -/
def WithdrawsOwn (rib : Rib) (entry : RibEntry) (route existing : Route) : Prop :=
  existing.capture = false ∧ route.capture = true ∧
    ∃ ancestor ∈ rib.getAncestorRoutes entry, ancestor.faceId = route.faceId ∧ entry.hasInheritedRoute route = true

section
variable {rib : Rib} {name : Name} {entry : RibEntry} {route existing : Route} {updated : List Route}

/-! The update for the cost of the entry itself. -/

def costUpdates (entry : RibEntry) (route existing : Route) : Option (List Emission) :=
  if route.cost ≠ existing.cost then updatesForCost entry route existing else some []

private theorem lowest_of_mem (entry : RibEntry) (inside : route ∈ entry.routes) :
    ∃ lowest, entry.getRouteWithLowestCostByFaceId route.faceId = some lowest ∧
      ownCost entry.routes route.faceId = some lowest.cost ∧ lowest.cost ≤ route.cost := by
  rcases lowestOnFace_cases entry route.faceId with ⟨-,nothing⟩ | ⟨lowest,found,least⟩
  · rw [ownCost_eq_none,List.any_eq_false] at nothing
    exact absurd (beq_self_eq_true _) (nothing route inside)
  · refine ⟨lowest,found,least,?_⟩
    exact ((leastCost_eq_some _).mp least).2 route inside (beq_self_eq_true _)

private theorem costUpdates_iff (inside : route ∈ entry.routes) :
    (∃ own, costUpdates entry route existing = some own ∧
        hopAfter (onKey own entry.name route.faceId) (ownCost entry.routes route.faceId) =
          ownCost entry.routes route.faceId) ↔ PassesLeast entry.routes route existing := by
  obtain ⟨lowest,found,least,bound⟩ := lowest_of_mem entry inside
  have single : ∀ cost, hopAfter (onKey [.addNextHop entry.name route.faceId cost] entry.name route.faceId)
      (ownCost entry.routes route.faceId) = some cost := by
    intro cost
    rw [onKey_of_forall (by simp [Emission.name,Emission.faceId])]
    rfl
  unfold costUpdates PassesLeast updatesForCost
  rw [found]
  dsimp only
  by_cases moved : route.cost = existing.cost
  · rw [if_neg (not_not.mpr moved)]
    refine iff_of_true ⟨[],rfl,rfl⟩ ?_
    intro own _ below above
    omega
  · rw [if_pos moved]
    by_cases cheapest : route.cost ≤ lowest.cost
    · rw [if_pos cheapest]
      refine iff_of_true ⟨_,rfl,?_⟩ ?_
      · rw [single,least,Nat.le_antisymm cheapest bound]
      · intro own here _ above
        rw [least,Option.some.injEq] at here
        omega
    · rw [if_neg cheapest]
      by_cases rose : existing.cost < lowest.cost
      · rw [if_pos rose]
        rcases lowestPassed_cases entry route.faceId with ⟨absent,nothing⟩ | ⟨previous,handed,here,cost⟩
        · rw [absent]
          apply iff_of_false
          · rintro ⟨own,computed,-⟩
            cases computed
          · intro passes
            have handed := passes lowest.cost least rose (Nat.lt_of_not_le cheapest)
            rw [nothing] at handed
            cases handed
        · rw [handed,Option.map_some,cost,here]
          constructor
          · rintro ⟨own,computed,same⟩ cost here _ _
            rw [← Option.some.inj computed,single] at same
            rw [same,here]
          · intro passes
            refine ⟨_,rfl,?_⟩
            rw [single,least,passes lowest.cost least rose (Nat.lt_of_not_le cheapest)]
      · rw [if_neg rose]
        refine iff_of_true ⟨[],rfl,rfl⟩ ?_
        intro own here below _
        rw [least,Option.some.injEq] at here
        omega

/-! The capture flag. -/

private theorem hopAfter_withdrawn (entry : RibEntry) (routes : List Route) (route : Route) (hop : Option Nat) :
    hopAfter (onKey (removeInheritedRoutes entry routes) entry.name route.faceId) hop =
      if (routes.any fun other => other.faceId == route.faceId) && entry.hasInheritedRoute route then none else hop := by
  induction routes generalizing hop with
  | nil => rfl
  | cons first routes ih =>
    have joined : removeInheritedRoutes entry (first :: routes) =
        removeInheritedRoutes entry [first] ++ removeInheritedRoutes entry routes := by
      rw [removeInheritedRoutes,List.flatMap_cons,removeInheritedRoutes,List.flatMap_singleton]
      rfl
    rw [joined,onKey_append,hopAfter_append,ih,List.any_cons]
    by_cases same : first.faceId = route.faceId
    · have own : ∀ emission ∈ removeInheritedRoutes entry [first],
          emission.name = entry.name ∧ emission.faceId = route.faceId := by
        rw [removeInheritedRoutes,List.flatMap_singleton]
        split
        · simp [Emission.name,Emission.faceId,same]
        · exact fun _ inside => absurd inside List.not_mem_nil
      have alike : entry.hasInheritedRoute first = entry.hasInheritedRoute route := by
        unfold RibEntry.hasInheritedRoute
        rw [same]
      rw [onKey_of_forall own,hopAfter_removeInheritedRoutes,alike,beq_iff_eq.mpr same,Bool.true_or,Bool.true_and]
      cases entry.hasInheritedRoute route <;> simp
    · have other : onKey (removeInheritedRoutes entry [first]) entry.name route.faceId = [] := by
        apply onKey_of_none
        rw [removeInheritedRoutes,List.flatMap_singleton]
        split
        · simp [Emission.name,Emission.faceId,same]
        · exact fun _ inside => absurd inside List.not_mem_nil
      rw [other,hopAfter_nil,beq_eq_false_iff_ne.mpr same,Bool.false_or]

private theorem onKey_covered (entry : RibEntry) (routes : List Route) {face : Nat} (covered : entry.hasFaceId face = true) :
    onKey (addInheritedRoutes entry routes) entry.name face = [] := by
  apply onKey_of_none
  intro emission inside _ same
  obtain ⟨route,_,emitted⟩ := List.mem_flatMap.mp inside
  split at emitted
  · cases emitted
  · rename_i free
    have here : route.faceId = face := by
      rcases List.mem_cons.mp emitted with rfl | last
      · exact same
      · rw [List.mem_singleton.mp last] at same
        exact same
    rw [here] at free
    exact free covered

private theorem onKey_below (tree : rib.Tree) (found : rib.find name = some entry) (routesToAdd routesToRemove : List Route)
    (face : Nat) :
    onKey (modifyChildrensInheritedRoutes rib entry.children routesToAdd routesToRemove) name face = [] := by
  apply onKey_of_none
  intro emission inside same
  exact absurd same (modifyChildrens_names tree found _ _ inside).2

private theorem onKey_childInherit (tree : rib.Tree) (found : rib.find name = some entry) (face : Nat) :
    onKey (updatesForChildInherit rib {entry with routes := updated} route existing) name face = [] := by
  unfold updatesForChildInherit
  split
  · split
    · exact onKey_below tree found _ _ face
    · rfl
  · split
    · exact onKey_below tree found _ _ face
    · rfl

private theorem hopAfter_capture (tree : rib.Tree) (found : rib.find name = some entry) (inside : route ∈ updated)
    (hop : Option Nat) :
    (WithdrawsOwn rib entry route existing →
      hopAfter (onKey (updatesForCapture rib {entry with routes := updated} route existing) name route.faceId) hop = none) ∧
    (¬WithdrawsOwn rib entry route existing →
      hopAfter (onKey (updatesForCapture rib {entry with routes := updated} route existing) name route.faceId) hop = hop) := by
  obtain rfl := Rib.find_name found
  have covered : RibEntry.hasFaceId {entry with routes := updated} route.faceId = true :=
    List.any_eq_true.mpr ⟨route,inside,beq_self_eq_true _⟩
  unfold updatesForCapture
  split
  · rename_i turnedOn
    rw [Bool.and_eq_true,Bool.not_eq_true'] at turnedOn
    have removed := hopAfter_withdrawn {entry with routes := updated} (rib.getAncestorRoutes entry) route hop
    have same : rib.getAncestorRoutes {entry with routes := updated} = rib.getAncestorRoutes entry := rfl
    have recorded : RibEntry.hasInheritedRoute {entry with routes := updated} route = entry.hasInheritedRoute route := rfl
    dsimp only at removed ⊢
    rw [same,onKey_append,onKey_below tree found,List.append_nil,removed,recorded]
    constructor
    · intro ⟨_,_,ancestor,above,face,held⟩
      rw [if_pos]
      rw [Bool.and_eq_true,List.any_eq_true]
      exact ⟨⟨ancestor,above,beq_iff_eq.mpr face⟩,held⟩
    · intro free
      rw [if_neg]
      intro both
      rw [Bool.and_eq_true,List.any_eq_true] at both
      obtain ⟨⟨ancestor,above,face⟩,held⟩ := both
      exact free ⟨turnedOn.1,turnedOn.2,ancestor,above,beq_iff_eq.mp face,held⟩
  · rename_i kept
    constructor
    · intro ⟨off,on,_⟩
      rw [off,on] at kept
      exact absurd rfl kept
    · intro _
      split
      · dsimp only
        rw [onKey_append,onKey_below tree found,List.append_nil]
        rw [show onKey (addInheritedRoutes {entry with routes := updated} _) entry.name route.faceId = [] from
          onKey_covered {entry with routes := updated} _ covered]
        rfl
      · rfl

/-! The whole update. -/

private theorem updatedRoute_eq_none (absent : costUpdates {entry with routes := updated} route existing = none) :
    createFibUpdatesForUpdatedRoute rib {entry with routes := updated} route existing = none := by
  unfold costUpdates at absent
  unfold createFibUpdatesForUpdatedRoute
  by_cases moved : route.cost = existing.cost
  · rw [if_neg (not_not.mpr moved)] at absent
    cases absent
  · rw [if_pos moved] at absent
    have early : (route.childInherit == existing.childInherit && route.capture == existing.capture &&
        route.cost == existing.cost) = false := by
      rw [beq_eq_false_iff_ne.mpr moved,Bool.and_false]
    dsimp only
    rw [early,if_neg Bool.false_ne_true,if_pos moved,absent]
    rfl

private theorem updatedRoute_installsLeast (tree : rib.Tree) (found : rib.find name = some entry) (inside : route ∈ updated) :
    InstallsLeast (createFibUpdatesForUpdatedRoute rib {entry with routes := updated} route existing) name route.faceId
        updated ↔
      PassesLeast updated route existing ∧ ¬WithdrawsOwn rib entry route existing := by
  obtain rfl := Rib.find_name found
  have costs : (∃ own, costUpdates {entry with routes := updated} route existing = some own ∧
      hopAfter (onKey own entry.name route.faceId) (ownCost updated route.faceId) = ownCost updated route.faceId) ↔
      PassesLeast updated route existing := costUpdates_iff inside
  obtain ⟨lowest,-,least,-⟩ := lowest_of_mem {entry with routes := updated} inside
  have least : ownCost updated route.faceId = some lowest.cost := least
  unfold InstallsLeast
  simp only [commands_cost]
  rw [← costs]
  cases computed : costUpdates {entry with routes := updated} route existing with
  | none =>
    rw [updatedRoute_eq_none computed]
    simp
  | some own =>
    rw [updatedRoute_eq computed]
    simp only [Option.some.injEq,exists_eq_left',onKey_append,hopAfter_append]
    generalize hopAfter (onKey own entry.name route.faceId) (ownCost updated route.faceId) = hop
    split
    · rename_i whole
      simp only [Bool.and_eq_true,beq_iff_eq] at whole
      have kept : ¬WithdrawsOwn rib entry route existing := by
        intro ⟨off,on,_⟩
        rw [whole.1.2.2,off] at on
        cases on
      rw [onKey_below tree found,hopAfter_nil,and_iff_left kept]
    · rw [onKey_append,onKey_childInherit tree found,List.nil_append]
      obtain ⟨withdrawn,kept⟩ : (WithdrawsOwn rib entry route existing → _) ∧
          (¬WithdrawsOwn rib entry route existing → _) := hopAfter_capture tree found inside hop
      by_cases withdraws : WithdrawsOwn rib entry route existing
      · rw [withdrawn withdraws,least]
        apply iff_of_false nofun
        exact fun both => both.2 withdraws
      · rw [kept withdraws,and_iff_left withdraws]

end

/-- In every state reached, registering a route that is there installs the least cost of the routes on
its face exactly when a cost that replaces its own is that of a route passed on, and no inherited
route is withdrawn from the face. -/
theorem updatedRoute_installs (readSecond : List Route → Route) (updates : List RibUpdate) (state : RibState)
    (reached : run (applyUpdate readSecond) (some .empty) updates = some state) (name : Name) (route : Route)
    (entry : RibEntry) (existing : Route) (found : state.rib.find name = some entry)
    (held : entry.findRoute route = some existing) :
    InstallsLeast (RibUpdate.emissions readSecond state.rib (.register name route)) name route.faceId
        ((state.rib.insert name route).routesOf name) ↔
      PassesLeast ((state.rib.insert name route).routesOf name) route existing ∧
        ¬WithdrawsOwn state.rib entry route existing := by
  have tree := reached_tree reached
  have after : (state.rib.insert name route).routesOf name = updateRoute entry.routes route := by
    rw [Rib.routesOf_insert tree,if_pos rfl,Rib.routesOf,found]
    have held : entry.routes.find? (fun other => other.same route) = some existing := held
    dsimp only [Option.map_some,Option.getD_some]
    rw [Rib.put,held]
  have inside : route ∈ updateRoute entry.routes route := (perm_updateRoute held).mem_iff.mpr List.mem_cons_self
  have computed : RibUpdate.emissions readSecond state.rib (.register name route) =
      createFibUpdatesForUpdatedRoute state.rib {entry with routes := updateRoute entry.routes route} route existing := by
    dsimp only [RibUpdate.emissions]
    rw [computeUpdatesForRegistration,found]
    dsimp only
    rw [held]
  rw [after,computed]
  exact updatedRoute_installsLeast tree found inside

def twoOrigins : List RibUpdate := [.register [[97]] ⟨1,0,10,false,false⟩,.register [[97]] ⟨1,1,20,false,false⟩]

/-- The cost rises, but not above that of the other route. -/
theorem updatedRoute_installs_rise :
    ∃ state, run (applyUpdate firstOf) (some .empty) twoOrigins = some state ∧
      InstallsLeast (RibUpdate.emissions firstOf state.rib (.register [[97]] ⟨1,0,15,false,false⟩)) [[97]] 1
        ((state.rib.insert [[97]] ⟨1,0,15,false,false⟩).routesOf [[97]]) := by
  have evaluated : (run (applyUpdate firstOf) (some .empty) twoOrigins).map (fun state : RibState =>
      ((state.rib.find [[97]]).map fun entry => entry.findRoute ⟨1,0,15,false,false⟩,
        ownCost ((state.rib.insert [[97]] ⟨1,0,15,false,false⟩).routesOf [[97]]) 1)) =
      some (some (some ⟨1,0,10,false,false⟩),some 15) := by decide +kernel
  obtain ⟨state,reached,both⟩ := Option.map_eq_some_iff.mp evaluated
  obtain ⟨there,cost⟩ := Prod.mk.inj both
  obtain ⟨entry,found,held⟩ := Option.map_eq_some_iff.mp there
  refine ⟨state,reached,(updatedRoute_installs firstOf twoOrigins state reached [[97]] ⟨1,0,15,false,false⟩ entry _ found
    held).mpr ⟨?_,fun withdraws => by cases withdraws.2.1⟩⟩
  intro least known _ above
  rw [cost,Option.some.injEq] at known
  rw [← known] at above
  exact absurd above (Nat.lt_irrefl _)

/-- The route that takes the place of a dearer one is sought among those passed on, of which there are none. -/
theorem updatedRoute_reads_absent :
    ¬∀ (readSecond : List Route → Route) (updates : List RibUpdate) (state : RibState),
      run (applyUpdate readSecond) (some .empty) updates = some state →
      ∀ (name : Name) (route : Route) (entry : RibEntry) (existing : Route), state.rib.find name = some entry →
        entry.findRoute route = some existing →
        InstallsLeast (RibUpdate.emissions readSecond state.rib (.register name route)) name route.faceId
          ((state.rib.insert name route).routesOf name) := by
  intro always
  have evaluated : (run (applyUpdate firstOf) (some .empty) twoOrigins).map (fun state : RibState =>
      ((state.rib.find [[97]]).map fun entry => entry.findRoute ⟨1,0,30,false,false⟩,
        RibUpdate.emissions firstOf state.rib (.register [[97]] ⟨1,0,30,false,false⟩))) =
      some (some (some ⟨1,0,10,false,false⟩),none) := by decide +kernel
  obtain ⟨state,reached,both⟩ := Option.map_eq_some_iff.mp evaluated
  obtain ⟨there,absent⟩ := Prod.mk.inj both
  obtain ⟨entry,found,held⟩ := Option.map_eq_some_iff.mp there
  obtain ⟨emissions,computed,-⟩ := always firstOf twoOrigins state reached [[97]] ⟨1,0,30,false,false⟩ entry _ found held
  rw [absent] at computed
  cases computed

end Ncfcc.Nfd
