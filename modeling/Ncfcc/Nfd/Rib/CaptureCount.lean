import Ncfcc.Nfd.Rib.UpdateRun

/-! The count of capturing routes that an entry keeps beside its list of routes. -/
namespace Ncfcc.Nfd
open FibUpdater Library

/-- `hasCapture` and the count behind it agree with the routes of each entry. -/
def CaptureExact (rib : Rib) : Prop :=
  ∀ name entry, rib.find name = some entry →
    (entry.hasCapture = true ↔ ∃ route ∈ entry.routes, route.capture = true) ∧
      entry.nRoutesWithCaptureSet = entry.routes.countP Route.capture

private theorem captureExact_iff {rib : Rib} : CaptureExact rib ↔ Counted rib := by
  constructor
  · intro exact name entry found
    exact (exact name entry found).2
  · intro counted name entry found
    refine ⟨?_,counted name entry found⟩
    rw [hasCapture_eq counted found]
    exact List.any_eq_true

/-- The update gives no route that is there another CAPTURE flag. -/
def RibState.KeepsFlag (state : RibState) : RibUpdate → Prop
  | .register name route => ∀ entry existing, state.rib.find name = some entry →
      entry.findRoute route = some existing → existing.capture = route.capture
  | .unregister _ _ => True
  | .removeFace _ _ => True

private theorem counted_shape {rib : Rib} :
    Counted rib ↔ ∀ name routes count, rib.shape name = some (routes,count) → count = routes.countP Route.capture := by
  constructor
  · intro counted name routes count held
    obtain ⟨entry,found,same⟩ := Option.map_eq_some_iff.mp held
    obtain ⟨rfl,rfl⟩ := Prod.mk.inj same
    exact counted name entry found
  · intro counts name entry found
    apply counts name
    rw [Rib.shape,found]
    rfl

theorem counted_of_modify {rib changed : Rib} {emissions : List Emission}
    (applied : rib.modifyInheritedRoutes emissions = some changed) : Counted changed ↔ Counted rib := by
  obtain ⟨-,shape⟩ := modifyInheritedRoutes_keeps applied
  rw [counted_shape,counted_shape]
  simp only [shape]

private theorem countP_updateRoute {routes : List Route} {route existing : Route}
    (present : routes.find? (fun other => other.same route) = some existing) :
    (updateRoute routes route).countP Route.capture + existing.capture.toNat =
      routes.countP Route.capture + route.capture.toNat := by
  rw [(perm_updateRoute present).countP_eq,(perm_eraseP present).countP_eq,List.countP_cons,List.countP_cons]
  cases existing.capture <;> cases route.capture <;> simp

/-- A registration keeps the counts right exactly when it leaves the flag of an existing route. -/
theorem counted_insert {state : RibState} (tree : state.rib.Tree) (counted : Counted state.rib) (name : Name)
    (route : Route) : Counted (state.rib.insert name route) ↔ state.KeepsFlag (.register name route) := by
  have core := Rib.insert_core tree name route
  have others : ∀ other, other ≠ name → (state.rib.insert name route).core other = state.rib.core other := by
    intro other different
    rw [core,if_neg different]
  have own := core name
  rw [if_pos rfl] at own
  cases found : state.rib.find name with
  | none =>
    rw [Rib.core_of_absent found] at own
    apply iff_of_true
    · apply counted_change counted others
      intro routes inherited count held
      obtain ⟨rfl,rfl,rfl⟩ : [route] = routes ∧ [] = inherited ∧ (if route.capture then 1 else 0) = count := by
        simpa using own.symm.trans held
      rw [List.countP_singleton]
    · intro entry existing stored
      rw [found] at stored
      cases stored
  | some entry =>
    have count := counted name entry found
    rw [Rib.core_find found] at own
    dsimp only at own
    cases present : entry.findRoute route with
    | none =>
      rw [show entry.routes.find? (fun held => held.same route) = none from present] at own
      apply iff_of_true
      · apply counted_change counted others
        intro routes inherited count held
        obtain ⟨rfl,rfl,rfl⟩ : entry.routes ++ [route] = routes ∧ entry.inheritedRoutes = inherited ∧
            (if route.capture then entry.nRoutesWithCaptureSet + 1 else entry.nRoutesWithCaptureSet) = count := by
          simpa using own.symm.trans held
        rw [List.countP_append,List.countP_singleton,counted name entry found]
        split <;> rfl
      · intro other existing stored held
        rw [found] at stored
        cases stored
        rw [present] at held
        cases held
    | some existing =>
      rw [show entry.routes.find? (fun held => held.same route) = some existing from present] at own
      have balance := countP_updateRoute present
      constructor
      · intro kept other held stored old
        rw [found] at stored
        cases stored
        rw [present] at old
        cases old
        have same := counted_core.mp kept name _ _ _ own
        have flags : existing.capture.toNat = route.capture.toNat := by omega
        revert flags
        cases existing.capture <;> cases route.capture <;> simp
      · intro keeps
        have flags := keeps entry existing found present
        apply counted_change counted others
        intro routes inherited count held
        obtain ⟨rfl,rfl,rfl⟩ : updateRoute entry.routes route = routes ∧ entry.inheritedRoutes = inherited ∧
            entry.nRoutesWithCaptureSet = count := by
          simpa using own.symm.trans held
        rw [flags] at balance
        omega

private theorem counted_erase {rib : Rib} (tree : rib.Tree) (counted : Counted rib) (name : Name) (route : Route) :
    Counted (rib.erase name route) := by
  have core := Rib.erase_core tree name route
  apply counted_change counted
  · intro other different
    rw [core,if_neg different]
  intro routes inherited count held
  rw [core,if_pos rfl] at held
  cases found : rib.find name with
  | none =>
    rw [Rib.core_of_absent found] at held
    cases held
  | some entry =>
    rw [Rib.core_find found] at held
    dsimp only at held
    cases present : entry.findRoute route with
    | none =>
      rw [show entry.routes.find? (fun held => held.same route) = none from present] at held
      obtain ⟨rfl,rfl,rfl⟩ : entry.routes = routes ∧ entry.inheritedRoutes = inherited ∧
        entry.nRoutesWithCaptureSet = count := by simpa using held
      exact counted name entry found
    | some existing =>
      have erases := (eraseRoute_erased counted found present).counted
      unfold RibEntry.eraseRoute at erases
      rw [present] at erases
      rw [show entry.routes.find? (fun held => held.same route) = some existing from present] at held
      dsimp only at held
      split at held
      · cases held
      · obtain ⟨rfl,rfl,rfl⟩ := Prod.mk.inj (Option.some.inj held) |>.imp_right Prod.mk.inj
        exact erases

/-! Whole updates and runs of them. -/

theorem beginApplyUpdate_rib {readSecond : List Route → Route} {state next : RibState} {update : RibUpdate}
    (applied : state.beginApplyUpdate readSecond update = some next) :
    ∃ emissions, update.emissions readSecond state.rib = some emissions ∧
      (update.change state.rib).modifyInheritedRoutes emissions = some next.rib := by
  cases update with
  | register name route =>
    obtain ⟨emissions,computed,rest⟩ := Option.bind_eq_some_iff.mp applied
    obtain ⟨rib,modified,same⟩ := Option.bind_eq_some_iff.mp rest
    rw [← Option.some.inj same]
    exact ⟨emissions,computed,modified⟩
  | unregister name route =>
    obtain ⟨rib,modified,same⟩ := Option.bind_eq_some_iff.mp applied
    rw [← Option.some.inj same]
    exact ⟨_,rfl,modified⟩
  | removeFace name route =>
    obtain ⟨rib,modified,same⟩ := Option.bind_eq_some_iff.mp applied
    rw [← Option.some.inj same]
    exact ⟨_,rfl,modified⟩

theorem beginApplyUpdate_isSome {readSecond : List Route → Route} {state : RibState} {update : RibUpdate}
    {emissions : List Emission} {rib : Rib} (computed : update.emissions readSecond state.rib = some emissions)
    (modified : (update.change state.rib).modifyInheritedRoutes emissions = some rib) :
    (state.beginApplyUpdate readSecond update).isSome := by
  cases update with
  | register name route =>
    apply Option.isSome_of_eq_some
    exact Option.bind_eq_some_iff.mpr ⟨emissions,computed,Option.bind_eq_some_iff.mpr ⟨rib,modified,rfl⟩⟩
  | unregister name route =>
    rw [← Option.some.inj computed] at modified
    apply Option.isSome_of_eq_some
    exact Option.bind_eq_some_iff.mpr ⟨rib,modified,rfl⟩
  | removeFace name route =>
    rw [← Option.some.inj computed] at modified
    apply Option.isSome_of_eq_some
    exact Option.bind_eq_some_iff.mpr ⟨rib,modified,rfl⟩

private theorem change_tree {rib : Rib} (tree : rib.Tree) (update : RibUpdate) : (update.change rib).Tree := by
  cases update with
  | register name route => exact Rib.insert_tree tree name route
  | unregister name route => exact Rib.erase_tree tree name route
  | removeFace name route => exact Rib.erase_tree tree name route

private theorem counted_change_iff {state : RibState} (tree : state.rib.Tree) (counted : Counted state.rib)
    (update : RibUpdate) : Counted (update.change state.rib) ↔ state.KeepsFlag update := by
  cases update with
  | register name route => exact counted_insert tree counted name route
  | unregister name route => exact iff_of_true (counted_erase tree counted name route) trivial
  | removeFace name route => exact iff_of_true (counted_erase tree counted name route) trivial

theorem beginApplyUpdate_counted {readSecond : List Route → Route} {state next : RibState} {update : RibUpdate}
    (tree : state.rib.Tree) (applied : state.beginApplyUpdate readSecond update = some next) :
    next.rib.Tree ∧ (Counted state.rib → (Counted next.rib ↔ state.KeepsFlag update)) := by
  obtain ⟨emissions,-,modified⟩ := beginApplyUpdate_rib applied
  refine ⟨(modifyInheritedRoutes_keeps modified).1 (change_tree tree update),?_⟩
  intro counted
  rw [counted_of_modify modified]
  exact counted_change_iff tree counted update

/-- In a run of updates that are all applied, the counts are right in every state exactly when no
update gives a route that is there another CAPTURE flag. -/
theorem captureExact_along_iff (readSecond : List Route → Route) (updates : List RibUpdate) (final : RibState)
    (applied : run (applyUpdate readSecond) (some .empty) updates = some final) :
    Along (applyUpdate readSecond) (fun state => ∀ current, state = some current → CaptureExact current.rib)
        (some .empty) updates ↔
      Steps (applyUpdate readSecond) (fun state update => ∀ current, state = some current → current.KeepsFlag update)
        (some .empty) updates := by
  have defined : Steps (applyUpdate readSecond) (fun state update => (applyUpdate readSecond state update).isSome)
      (some .empty) updates := attempt_defined applied
  have trees : Along (applyUpdate readSecond) (fun state => ∀ current, state = some current → current.rib.Tree)
      (some .empty) updates := by
    refine along_of_steps ?_ ?_ defined
    · intro state update kept _ next reached
      obtain ⟨current,here,stepped⟩ := Option.bind_eq_some_iff.mp reached
      exact (beginApplyUpdate_counted (kept current here) stepped).1
    · intro current here
      rw [← Option.some.inj here]
      exact Rib.empty_tree
  have both : Along (applyUpdate readSecond)
      (fun state => ∃ current, state = some current ∧ current.rib.Tree ∧ Counted current.rib) (some .empty) updates ↔
      Steps (applyUpdate readSecond) (fun state update => ∀ current, state = some current → current.KeepsFlag update)
        (some .empty) updates := by
    refine along_iff_steps ?_ ?_ defined
    · intro state update good possible
      obtain ⟨current,rfl,tree,counted⟩ := good
      obtain ⟨next,stepped⟩ := Option.isSome_iff_exists.mp possible
      have stepped : current.beginApplyUpdate readSecond update = some next := stepped
      obtain ⟨kept,exact⟩ := beginApplyUpdate_counted tree stepped
      rw [show applyUpdate readSecond (some current) update = some next from stepped]
      constructor
      · intro ⟨reached,here,_,right⟩ before same
        cases same
        cases here
        exact (exact counted).mp right
      · intro keeps
        exact ⟨next,rfl,kept,(exact counted).mpr (keeps current rfl)⟩
    · exact ⟨.empty,rfl,Rib.empty_tree,empty_consistent.counted⟩
  rw [← both]
  constructor
  · intro exact before inside
    have reached := attempt_reaches applied inside
    obtain ⟨current,here⟩ := reached
    exact ⟨current,here,trees before inside current here,captureExact_iff.mp (exact before inside current here)⟩
  · intro good before inside current here
    obtain ⟨reached,same,-,counted⟩ := good before inside
    rw [show current = reached from Option.some.inj (here.symm.trans same)]
    exact captureExact_iff.mpr counted

/-- A route is registered, registered again with the same flag, and unregistered. -/
theorem captureExact_along_same_flag :
    (∃ final, run (applyUpdate firstOf) (some .empty)
      [.register [[97]] ⟨1,0,10,false,true⟩,.register [[97]] ⟨1,0,20,true,true⟩,
        .unregister [[97]] ⟨1,0,20,true,true⟩] = some final) ∧
    Along (applyUpdate firstOf) (fun state => ∀ current, state = some current → CaptureExact current.rib) (some .empty)
      [.register [[97]] ⟨1,0,10,false,true⟩,.register [[97]] ⟨1,0,20,true,true⟩,
        .unregister [[97]] ⟨1,0,20,true,true⟩] := by
  have complete : (run (applyUpdate firstOf) (some .empty)
      [.register [[97]] ⟨1,0,10,false,true⟩,.register [[97]] ⟨1,0,20,true,true⟩,
        .unregister [[97]] ⟨1,0,20,true,true⟩]).isSome := by decide +kernel
  obtain ⟨final,applied⟩ := Option.isSome_iff_exists.mp complete
  refine ⟨⟨final,applied⟩,(captureExact_along_iff firstOf _ final applied).mpr ?_⟩
  refine steps_cons.mpr ⟨?_,steps_cons.mpr ⟨?_,steps_cons.mpr ⟨?_,steps_nil⟩⟩⟩
  · intro current here entry existing found
    rw [← Option.some.inj here] at found
    cases found
  · intro current here entry existing found present
    have known := congrArg (Option.map fun state : RibState =>
      (state.rib.find [[97]]).bind fun entry => entry.findRoute ⟨1,0,20,true,true⟩) here
    have evaluated : (applyUpdate firstOf (some .empty) (.register [[97]] ⟨1,0,10,false,true⟩)).map
        (fun state : RibState => (state.rib.find [[97]]).bind fun entry => entry.findRoute ⟨1,0,20,true,true⟩) =
          some (some ⟨1,0,10,false,true⟩) := by decide +kernel
    rw [evaluated,Option.map_some,found,Option.bind_some,present] at known
    cases known
    rfl
  · intro current here
    trivial

/-- A route registered again with the CAPTURE flag is not counted. -/
theorem flag_set_uncounted :
    ¬∀ (readSecond : List Route → Route) (updates : List RibUpdate),
      Along (applyUpdate readSecond) (fun state => ∀ current, state = some current → CaptureExact current.rib)
        (some .empty) updates := by
  intro always
  have last := always firstOf [.register [[97]] ⟨1,0,10,false,false⟩,.register [[97]] ⟨1,0,10,false,true⟩] _
    List.prefix_rfl
  have evaluated : (run (applyUpdate firstOf) (some .empty)
      [.register [[97]] ⟨1,0,10,false,false⟩,.register [[97]] ⟨1,0,10,false,true⟩]).map
      (fun state : RibState => (state.rib.find [[97]]).map fun entry => (entry.routes,entry.nRoutesWithCaptureSet)) =
        some (some ([⟨1,0,10,false,true⟩],0)) := by decide +kernel
  obtain ⟨reached,same,held⟩ := Option.map_eq_some_iff.mp evaluated
  obtain ⟨entry,found,shape⟩ := Option.map_eq_some_iff.mp held
  obtain ⟨routes,count⟩ := Prod.mk.inj shape
  have exact := (last reached same [[97]] entry found).2
  rw [routes,count] at exact
  revert exact
  decide

end Ncfcc.Nfd
