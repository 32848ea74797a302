import Ncfcc.Nfd.Rib.CaptureCount

/-! The inherited routes of an unregistration and the entry that it erases: which changes are
computed for an entry that is pending removal. -/
namespace Ncfcc.Nfd
open FibUpdater Library

def Emission.inheritor : Emission → Option Name
  | .addInheritedRoute name _ => some name
  | .removeInheritedRoute name _ => some name
  | _ => none

namespace Rib

/-- `modifyInheritedRoutes` comes to a change whose entry it does not find. -/
def AssertionFails (rib : Rib) (emissions : List Emission) : Prop :=
  ∃ before change after reached name, emissions = before ++ change :: after ∧ change.inheritor = some name ∧
    rib.modifyInheritedRoutes before = some reached ∧ reached.find name = none

/-- The changes are for names of entries, and no assertion fails. -/
def EntriesRemain (rib : Rib) (emissions : List Emission) : Prop :=
  (∀ change ∈ emissions, ∀ name, change.inheritor = some name → (rib.find name).isSome) ∧
    ¬rib.AssertionFails emissions

/-- The last route of an entry, the one that captures, is erased below routes to inherit. -/
def UncoversRemoved (rib : Rib) (name : Name) (route : Route) : Prop :=
  ∃ entry existing, rib.find name = some entry ∧ entry.findRoute route = some existing ∧ entry.routes.length = 1 ∧
    existing.capture = true ∧ entry.nRoutesWithCaptureSet = 1 ∧ rib.getAncestorRoutes entry ≠ []

end Rib

private theorem name_of_inheritor {change : Emission} {name : Name} (inherits : change.inheritor = some name) :
    change.name = name := by
  cases change with
  | addNextHop other faceId cost => cases inherits
  | removeNextHop other faceId => cases inherits
  | addInheritedRoute other route => exact Option.some.inj inherits
  | removeInheritedRoute other route => exact Option.some.inj inherits

/-- Recording inherited routes leaves the entries there are. -/
theorem entriesRemain_of_found {rib : Rib} {emissions : List Emission}
    (found : ∀ change ∈ emissions, ∀ name, change.inheritor = some name → (rib.find name).isSome) :
    rib.EntriesRemain emissions := by
  refine ⟨found,?_⟩
  intro ⟨before,change,after,reached,name,split,inherits,modified,missing⟩
  have present : change ∈ emissions := by
    rw [split]
    exact List.mem_append_right before List.mem_cons_self
  have here := found change present name inherits
  have kept := congrArg Option.isSome ((modifyInheritedRoutes_keeps modified).2 name)
  rw [Rib.shape,Rib.shape,Option.isSome_map,Option.isSome_map,missing] at kept
  rw [← kept] at here
  cases here

/-! The names that the descent emits for. -/

section
variable {rib : Rib} {name : Name}

private theorem traverseSubTree_names (tree : rib.Tree) (fuel : Nat) (routesToAdd routesToRemove : List Route)
    {emission : Emission} (emitted : emission ∈ traverseSubTree rib fuel name routesToAdd routesToRemove) :
    (rib.find emission.name).isSome ∧ name <+: emission.name := by
  induction fuel generalizing name routesToAdd routesToRemove with
  | zero => cases emitted
  | succ fuel ih =>
    rw [traverseSubTree] at emitted
    cases found : rib.find name with
    | none =>
      rw [found] at emitted
      cases emitted
    | some entry =>
      rw [found] at emitted
      have named := Rib.find_name found
      have own : emission.name = entry.name → (rib.find emission.name).isSome ∧ name <+: emission.name := by
        intro same
        rw [same,named,found]
        exact ⟨rfl,List.prefix_refl _⟩
      dsimp only at emitted
      split at emitted
      · cases emitted
      · rcases List.mem_append.mp emitted with first | below
        · rcases List.mem_append.mp first with removed | added
          · exact own (name_of_removeInheritedRoutes removed)
          · exact own (name_of_addInheritedRoutes added)
        · obtain ⟨child,inside,deeper⟩ := List.mem_flatMap.mp below
          obtain ⟨stored,under⟩ := ih _ _ deeper
          have isChild := (mem_children_iff tree found child).mp inside
          exact ⟨stored,isChild.isPrefix.trans under⟩

/-- What is emitted for the children of an entry is for entries below it. -/
theorem modifyChildrens_names (tree : rib.Tree) {entry : RibEntry} (found : rib.find name = some entry)
    (routesToAdd routesToRemove : List Route) {emission : Emission}
    (emitted : emission ∈ modifyChildrensInheritedRoutes rib entry.children routesToAdd routesToRemove) :
    (rib.find emission.name).isSome ∧ emission.name ≠ name := by
  obtain ⟨child,inside,below⟩ := List.mem_flatMap.mp emitted
  obtain ⟨stored,under⟩ := traverseSubTree_names tree _ _ _ below
  have isChild := (mem_children_iff tree found child).mp inside
  refine ⟨stored,?_⟩
  intro same
  have long := under.length_le
  rw [same] at long
  exact absurd isChild.longer (Nat.not_lt.mpr long)

end

/-! What remains after an erasure. -/

section
variable {rib : Rib} {name : Name} {entry : RibEntry} {route existing : Route}

private theorem eraseRoute_routes (held : entry.findRoute route = some existing) :
    (entry.eraseRoute route).routes.length = entry.routes.length - 1 := by
  have shorter := (perm_eraseP held).length_eq
  rw [RibEntry.eraseRoute,held]
  dsimp only
  rw [List.length_cons] at shorter
  rw [shorter]
  rfl

theorem find_erase (tree : rib.Tree) (found : rib.find name = some entry) (held : entry.findRoute route = some existing)
    (other : Name) : ((rib.erase name route).find other).isSome ↔
      (rib.find other).isSome ∧ (other = name → entry.routes.length ≠ 1) := by
  have cores : ∀ (changed : Rib) (other : Name), (changed.core other).isSome = (changed.find other).isSome :=
    fun _ _ => Option.isSome_map
  have shorter := (perm_eraseP held).length_eq
  have stays := Rib.erase_core tree name route other
  rw [← cores,← cores,stays]
  by_cases here : other = name
  · have held : entry.routes.find? (fun other => other.same route) = some existing := held
    rw [if_pos here,here,Rib.core_find found]
    dsimp only
    rw [held]
    dsimp only
    cases left : entry.routes.eraseP fun other => other.same route with
    | nil =>
      rw [left] at shorter
      simp [shorter]
    | cons first rest =>
      rw [left] at shorter
      simp [shorter]
  · rw [if_neg here]
    simp [here]

/-- Erasing a route turns capture off when it is the only one counted. -/
theorem captureWasTurnedOff_iff (held : entry.findRoute route = some existing) :
    (entry.hasCapture && !(entry.eraseRoute route).hasCapture) = true ↔
      existing.capture = true ∧ entry.nRoutesWithCaptureSet = 1 := by
  have count : (entry.eraseRoute route).nRoutesWithCaptureSet = if existing.capture then
      if entry.nRoutesWithCaptureSet = 0 then 2^64 - 1 else entry.nRoutesWithCaptureSet - 1
      else entry.nRoutesWithCaptureSet := by
    rw [RibEntry.eraseRoute,held]
  unfold RibEntry.hasCapture
  simp only [Bool.and_eq_true,Bool.not_eq_true',decide_eq_true_eq,decide_eq_false_iff_not,count]
  by_cases counts : existing.capture = true
  · rw [if_pos counts]
    split
    · rename_i none
      rw [none]
      simp
    · rw [and_iff_right counts]
      clear count
      omega
  · rw [if_neg counts]
    simpa [counts] using Nat.ne_of_gt

private theorem getAncestorRoutes_eraseRoute (rib : Rib) (entry : RibEntry) (route : Route) :
    rib.getAncestorRoutes (entry.eraseRoute route) = rib.getAncestorRoutes entry := by
  obtain ⟨named,above,-⟩ := Rib.eraseRoute_place entry route
  unfold Rib.getAncestorRoutes
  rw [named,above]

/-- The changes for the entry itself are made for routes that are uncovered, or while it has routes left. -/
def OwnChange (rib : Rib) (entry : RibEntry) (existing : Route) : Prop :=
  (existing.capture = true ∧ entry.nRoutesWithCaptureSet = 1 ∧ rib.getAncestorRoutes entry ≠ []) ∨
    entry.routes.length - 1 ≠ 0

private theorem erasedRoute_inheritor (tree : rib.Tree) (found : rib.find name = some entry)
    (held : entry.findRoute route = some existing) {change : Emission} {inheritor : Name}
    (inherits : change.inheritor = some inheritor)
    (computed : change ∈ createFibUpdatesForErasedRoute rib (entry.eraseRoute route) existing
      (entry.hasCapture && !(entry.eraseRoute route).hasCapture)) :
    (rib.find inheritor).isSome ∧ (inheritor = name → OwnChange rib entry existing) := by
  obtain ⟨named,-,children⟩ := Rib.eraseRoute_place entry route
  have ancestors := getAncestorRoutes_eraseRoute rib entry route
  have left := eraseRoute_routes held
  have below : ∀ {routesToAdd routesToRemove},
      change ∈ modifyChildrensInheritedRoutes rib entry.children routesToAdd routesToRemove →
        (rib.find inheritor).isSome ∧ (inheritor = name → OwnChange rib entry existing) := by
    intro routesToAdd routesToRemove emitted
    have placed := modifyChildrens_names tree found _ _ emitted
    rw [name_of_inheritor inherits] at placed
    exact ⟨placed.1,fun same => absurd same placed.2⟩
  have own : change.name = name → OwnChange rib entry existing →
      (rib.find inheritor).isSome ∧ (inheritor = name → OwnChange rib entry existing) := by
    intro same changed
    rw [← name_of_inheritor inherits,same,found]
    exact ⟨rfl,fun _ => changed⟩
  have self : change ∈ (if (entry.hasCapture && !(entry.eraseRoute route).hasCapture) = true
      then addInheritedRoutes (entry.eraseRoute route) (rib.getAncestorRoutes entry) else []) →
      (rib.find inheritor).isSome ∧ (inheritor = name → OwnChange rib entry existing) := by
    intro emitted
    split at emitted
    · rename_i turnedOff
      obtain ⟨counts,alone⟩ := (captureWasTurnedOff_iff held).mp turnedOff
      refine own ?_ (Or.inl ⟨counts,alone,?_⟩)
      · rw [name_of_addInheritedRoutes emitted,named,Rib.find_name found]
      · intro nothing
        rw [nothing] at emitted
        cases emitted
    · cases emitted
  unfold createFibUpdatesForErasedRoute at computed
  dsimp only at computed
  rw [ancestors,children] at computed
  rcases List.mem_cons.mp computed with rfl | rest
  · cases inherits
  · rcases List.mem_append.mp rest with spread | blocked
    · split at spread
      · rcases List.mem_append.mp spread with emitted | emitted
        · exact self emitted
        · exact below emitted
      · split at spread
        · exact below spread
        · split at spread
          · rcases List.mem_append.mp spread with emitted | emitted
            · exact self emitted
            · exact below emitted
          · cases spread
    · split at blocked
      · rename_i remains
        have more : OwnChange rib entry existing := by
          rw [Bool.and_eq_true,decide_eq_true_eq,left] at remains
          exact Or.inr remains.2
        split at blocked
        · rcases List.mem_cons.mp blocked with rfl | last
          · exact own (named.trans (Rib.find_name found)) more
          · rw [List.mem_singleton.mp last] at inherits
            cases inherits
        · cases blocked
      · cases blocked

private theorem newRoute_inheritor (tree : rib.Tree) (found : rib.find name = some entry) {next : Route} {change : Emission}
    {inheritor : Name} (inherits : change.inheritor = some inheritor)
    (computed : change ∈ createFibUpdatesForNewRoute rib (entry.eraseRoute route) next false) :
    (rib.find inheritor).isSome ∧ inheritor ≠ name := by
  obtain ⟨-,-,children⟩ := Rib.eraseRoute_place entry route
  unfold createFibUpdatesForNewRoute at computed
  dsimp only at computed
  rw [children] at computed
  rcases List.mem_append.mp computed with first | hop
  · rcases List.mem_append.mp first with removed | emitted
    · cases removed
    · have placed := modifyChildrens_names tree found _ _ emitted
      rw [name_of_inheritor inherits] at placed
      exact placed
  · have isHop : change = .addNextHop (entry.eraseRoute route).name next.faceId next.cost := by
      split at hop
      · exact List.mem_singleton.mp hop
      · split at hop
        · exact List.mem_singleton.mp hop
        · cases hop
    rw [isHop] at inherits
    cases inherits

/-- A change computed by an unregistration is for an entry; for its own only under a condition. -/
theorem unregistration_inheritor (tree : rib.Tree) (found : rib.find name = some entry)
    (held : entry.findRoute route = some existing) {readSecond : List Route → Route} {change : Emission}
    {inheritor : Name} (inherits : change.inheritor = some inheritor)
    (computed : change ∈ computeUpdatesForUnregistration readSecond rib name route) :
    (rib.find inheritor).isSome ∧ (inheritor = name → OwnChange rib entry existing) := by
  unfold computeUpdatesForUnregistration at computed
  rw [found] at computed
  dsimp only at computed
  rw [held] at computed
  dsimp only at computed
  rcases List.mem_append.mp computed with most | removed
  · rcases List.mem_append.mp most with erased | next
    · exact erasedRoute_inheritor tree found held inherits erased
    · split at next
      · have placed := newRoute_inheritor tree found inherits next
        exact ⟨placed.1,fun same => absurd same placed.2⟩
      · cases next
  · split at removed
    · obtain ⟨gone,-,rfl⟩ := List.mem_map.mp removed
      cases inherits
    · cases removed

/-- The last route of the entry uncovers a route, which is computed for the entry itself. -/
theorem uncovered_change (found : rib.find name = some entry) (held : entry.findRoute route = some existing)
    (last : entry.routes.length = 1) (counts : existing.capture = true) (alone : entry.nRoutesWithCaptureSet = 1)
    (ancestors : rib.getAncestorRoutes entry ≠ []) (readSecond : List Route → Route) :
    ∃ change ∈ computeUpdatesForUnregistration readSecond rib name route, change.inheritor = some name := by
  obtain ⟨named,-,-⟩ := Rib.eraseRoute_place entry route
  obtain ⟨ancestor,above_it⟩ := List.exists_mem_of_ne_nil _ ancestors
  have same := getAncestorRoutes_eraseRoute rib entry route
  have turnedOff := (captureWasTurnedOff_iff held).mpr ⟨counts,alone⟩
  have bare : (entry.eraseRoute route).hasFaceId ancestor.faceId = false := by
    have nothing : (entry.eraseRoute route).routes = [] := by
      rw [← List.length_eq_zero_iff,eraseRoute_routes held,last]
    rw [RibEntry.hasFaceId,nothing]
    rfl
  have added : Emission.addInheritedRoute name ancestor ∈
      addInheritedRoutes (entry.eraseRoute route) (rib.getAncestorRoutes entry) := by
    refine List.mem_flatMap.mpr ⟨ancestor,above_it,?_⟩
    rw [bare,named,Rib.find_name found]
    exact List.mem_cons_self
  have computed : Emission.addInheritedRoute name ancestor ∈ createFibUpdatesForErasedRoute rib (entry.eraseRoute route)
      existing (entry.hasCapture && !(entry.eraseRoute route).hasCapture) := by
    unfold createFibUpdatesForErasedRoute
    rw [same,turnedOff,counts]
    refine List.mem_cons_of_mem _ (List.mem_append_left _ ?_)
    cases existing.childInherit <;> exact List.mem_append_left _ added
  refine ⟨.addInheritedRoute name ancestor,?_,rfl⟩
  unfold computeUpdatesForUnregistration
  rw [found]
  dsimp only
  rw [held]
  exact List.mem_append_left _ (List.mem_append_left _ computed)

private theorem entriesRemain_iff (tree : rib.Tree) (readSecond : List Route → Route) (name : Name) (route : Route) :
    (rib.erase name route).EntriesRemain (computeUpdatesForUnregistration readSecond rib name route) ↔
      ¬rib.UncoversRemoved name route := by
  constructor
  · intro ⟨remain,_⟩ ⟨entry,existing,found,held,last,counts,alone,ancestors⟩
    obtain ⟨change,computed,inherits⟩ := uncovered_change found held last counts alone ancestors readSecond
    have there := (find_erase tree found held name).mp (remain change computed name inherits)
    exact there.2 rfl last
  · intro covered
    apply entriesRemain_of_found
    intro change computed inheritor inherits
    cases found : rib.find name with
    | none =>
      rw [computeUpdatesForUnregistration,found] at computed
      cases computed
    | some entry =>
      cases held : entry.findRoute route with
      | none =>
        rw [computeUpdatesForUnregistration,found] at computed
        dsimp only at computed
        rw [held] at computed
        cases computed
      | some existing =>
        obtain ⟨stored,own⟩ := unregistration_inheritor tree found held inherits computed
        refine (find_erase tree found held inheritor).mpr ⟨stored,?_⟩
        intro same last
        rcases own same with ⟨counts,alone,ancestors⟩ | more
        · exact covered ⟨entry,existing,found,held,last,counts,alone,ancestors⟩
        · rw [last] at more
          exact more rfl

end

/-! The states that runs of updates reach. -/

theorem reached_tree {readSecond : List Route → Route} {updates : List RibUpdate} {state : RibState}
    (reached : run (applyUpdate readSecond) (some .empty) updates = some state) : state.rib.Tree := by
  apply attempt_invariant (P := fun state : RibState => state.rib.Tree) _ Rib.empty_tree reached
  intro before update after tree stepped
  exact (beginApplyUpdate_counted tree stepped).1

/-- In every state reached, an unregistration or the removal of a face leaves the entries of all
inherited-route changes exactly when it does not uncover routes for an entry that it removes. -/
theorem unregistration_entriesRemain (readSecond : List Route → Route) (updates : List RibUpdate) (state : RibState)
    (reached : run (applyUpdate readSecond) (some .empty) updates = some state) (name : Name) (route : Route) :
    ∀ update ∈ [RibUpdate.unregister name route,.removeFace name route],
      ∃ emissions, update.emissions readSecond state.rib = some emissions ∧
        ((update.change state.rib).EntriesRemain emissions ↔ ¬state.rib.UncoversRemoved name route) := by
  have tree := reached_tree reached
  intro update either
  rcases List.mem_cons.mp either with rfl | last
  · exact ⟨_,rfl,entriesRemain_iff tree readSecond name route⟩
  · rw [List.mem_singleton.mp last]
    exact ⟨_,rfl,entriesRemain_iff tree readSecond name route⟩

def capturedBelow : List RibUpdate := [.register [[97]] ⟨1,0,10,true,false⟩,.register [[97],[98]] ⟨2,0,10,false,true⟩]

/-- The entry keeps another route. -/
theorem unregistration_entriesRemain_other_route :
    ∃ state, run (applyUpdate firstOf) (some .empty) (capturedBelow ++ [.register [[97],[98]] ⟨3,0,10,false,false⟩]) =
        some state ∧
      ∀ update ∈ [RibUpdate.unregister [[97],[98]] ⟨2,0,10,false,true⟩,.removeFace [[97],[98]] ⟨2,0,10,false,true⟩],
        ∃ emissions, update.emissions firstOf state.rib = some emissions ∧
          (update.change state.rib).EntriesRemain emissions := by
  have evaluated : (run (applyUpdate firstOf) (some .empty)
      (capturedBelow ++ [.register [[97],[98]] ⟨3,0,10,false,false⟩])).map (fun state : RibState =>
        (state.rib.find [[97],[98]]).map fun entry => entry.routes.length) = some (some 2) := by decide +kernel
  obtain ⟨state,reached,held⟩ := Option.map_eq_some_iff.mp evaluated
  refine ⟨state,reached,?_⟩
  have covered : ¬state.rib.UncoversRemoved [[97],[98]] ⟨2,0,10,false,true⟩ := by
    intro ⟨entry,existing,found,_,last,_⟩
    rw [found,Option.map_some,last] at held
    cases held
  intro update either
  obtain ⟨emissions,computed,exact⟩ := unregistration_entriesRemain firstOf _ state reached _ _ update either
  exact ⟨emissions,computed,exact.mpr covered⟩

/-- The entry is erased before it is given the route that it inherits again. -/
theorem erased_entry_inherits :
    ¬∀ (readSecond : List Route → Route) (updates : List RibUpdate) (state : RibState),
      run (applyUpdate readSecond) (some .empty) updates = some state → ∀ (name : Name) (route : Route),
        ∀ update ∈ [RibUpdate.unregister name route,.removeFace name route],
          ∃ emissions, update.emissions readSecond state.rib = some emissions ∧
            (update.change state.rib).EntriesRemain emissions := by
  intro always
  have evaluated : (run (applyUpdate firstOf) (some .empty) capturedBelow).map (fun state : RibState =>
      (state.rib.find [[97],[98]]).map fun entry => (entry.findRoute ⟨2,0,10,false,true⟩,entry.routes.length,
        entry.nRoutesWithCaptureSet,state.rib.getAncestorRoutes entry)) =
      some (some (some ⟨2,0,10,false,true⟩,1,1,[⟨1,0,10,true,false⟩])) := by decide +kernel
  obtain ⟨state,reached,held⟩ := Option.map_eq_some_iff.mp evaluated
  obtain ⟨entry,found,shape⟩ := Option.map_eq_some_iff.mp held
  simp only [Prod.mk.injEq] at shape
  obtain ⟨present,last,alone,ancestors⟩ := shape
  obtain ⟨emissions,computed,remain⟩ := always firstOf capturedBelow state reached [[97],[98]] ⟨2,0,10,false,true⟩
    (.unregister [[97],[98]] ⟨2,0,10,false,true⟩) List.mem_cons_self
  cases computed
  refine (entriesRemain_iff (reached_tree reached) firstOf _ _).mp remain ⟨entry,_,found,present,last,rfl,alone,?_⟩
  rw [ancestors]
  exact List.cons_ne_nil _ _

end Ncfcc.Nfd
