import Ncfcc.Library.Run
import Ncfcc.Nfd.Rib.Unregistration

/-! Runs of RIB updates: the updates that leave the next hops as the RIB calls for, and
whole runs of them. -/
namespace Ncfcc.Nfd
open FibUpdater Library

def RibState.EraseOk (readSecond : List Route → Route) (state : RibState) (name : Name) (route : Route)
    (destroyed : List Nat) : Prop :=
  ∀ entry existing, state.rib.find name = some entry → entry.findRoute route = some existing →
    ErasureOk state.rib name (entry.eraseRoute route).routes existing
      (readSecond (entry.routes.filter fun other => other.faceId == route.faceId)) destroyed

/-- The updates that avoid what the updater gets wrong. -/
def RibState.UpdateOk (readSecond : List Route → Route) (state : RibState) : RibUpdate → Prop
  | .register name route =>
    match state.rib.find name with
    | none => ∀ face, face ∉ state.destroyed → NewEntryOk state.rib name route face
    | some entry =>
      match entry.findRoute route with
      | none => ∀ face, face ∉ state.destroyed → captures entry.routes = false → route.capture = true →
          state.rib.content.inherited face name ≠ none → NewRouteOk state.rib name entry.routes route face
      | some existing => UpdatedRouteOk state.rib name (updateRoute entry.routes route) route existing
          (route.faceId ∉ state.destroyed)
  | .unregister name route => state.EraseOk readSecond name route state.destroyed
  | .removeFace name route => state.EraseOk readSecond name route (route.faceId :: state.destroyed)

section
variable {state : RibState} {name : Name} {route : Route}

theorem unregistration_absent (readSecond : List Route → Route)
    (absent : ∀ entry existing, state.rib.find name = some entry → entry.findRoute route ≠ some existing) :
    computeUpdatesForUnregistration readSecond state.rib name route = [] ∧ state.rib.erase name route = state.rib := by
  unfold computeUpdatesForUnregistration Rib.erase
  cases found : state.rib.find name with
  | none => exact ⟨rfl,rfl⟩
  | some entry =>
    cases present : entry.findRoute route with
    | none => simp [present]
    | some existing => exact absurd present (absent entry existing found)

private theorem erase_consistent (consistent : Consistent state) (readSecond : List Route → Route) {destroyed : List Nat}
    (lost : ∀ face, face ∉ destroyed → face ∉ state.destroyed) (ok : state.EraseOk readSecond name route destroyed) :
    ∃ rib, (state.rib.erase name route).modifyInheritedRoutes
        (computeUpdatesForUnregistration readSecond state.rib name route) = some rib ∧
      ∀ fib : NextHops, (∀ other face, face ∉ destroyed → fib other face = hopAfter
          (onKey (computeUpdatesForUnregistration readSecond state.rib name route) other face) (state.fib other face)) →
        (∀ other face, face ∈ destroyed → fib other face = none) → Consistent ⟨rib,fib,destroyed⟩ := by
  by_cases present : ∃ entry existing, state.rib.find name = some entry ∧ entry.findRoute route = some existing
  · obtain ⟨entry,existing,found,held⟩ := present
    obtain ⟨removed,added,fits⟩ :=
      unregistration_fits consistent found held readSecond lost (ok entry existing found held)
    exact fits.consistent consistent
  · have absent : ∀ entry existing, state.rib.find name = some entry → entry.findRoute route ≠ some existing :=
      fun entry existing found held => present ⟨entry,existing,found,held⟩
    obtain ⟨nothing,same⟩ := unregistration_absent readSecond absent
    rw [nothing,same]
    refine ⟨state.rib,rfl,?_⟩
    intro fib lives gone
    refine ⟨consistent.tree,consistent.counted,?_,fun other face live => consistent.recorded other face (lost face live)⟩
    intro other face
    rw [RibState.expected]
    dsimp only
    by_cases dead : face ∈ destroyed
    · rw [if_pos dead]
      exact gone other face dead
    · have before := consistent.hops other face
      rw [RibState.expected,if_neg (lost face dead)] at before
      rw [if_neg dead,lives other face dead,← before]
      rfl

private theorem fits_commands (route : Route) {changed : Rib} {emissions : List Emission} {removed : Nat → Option Route}
    {added : Nat → List Route} (consistent : Consistent state)
    (fits : Fits state name changed emissions removed added state.destroyed) :
    ∃ rib, changed.modifyInheritedRoutes emissions = some rib ∧
      Consistent ⟨rib,((fibUpdates route.faceId emissions).1 ++ (fibUpdates route.faceId emissions).2).foldl
        (RibState.applyFibUpdate state.destroyed) state.fib,state.destroyed⟩ := by
  obtain ⟨rib,applied,kept⟩ := fits.consistent consistent
  refine ⟨rib,applied,kept _ ?_ ?_⟩
  · intro other face live
    exact commands_at route.faceId emissions state.destroyed state.fib other face live
  · intro other face dead
    refine commands_destroyed state.destroyed state.fib other face _ dead ?_
    rw [consistent.hops,RibState.expected,if_pos dead]

private theorem register_consistent (consistent : Consistent state) (readSecond : List Route → Route)
    (ok : state.UpdateOk readSecond (.register name route)) :
    ∃ next, state.beginApplyUpdate readSecond (.register name route) = some next ∧ Consistent next := by
  have fitting : ∃ emissions removed added, computeUpdatesForRegistration state.rib name route = some emissions ∧
      Fits state name (state.rib.insert name route) emissions removed added state.destroyed := by
    unfold RibState.UpdateOk at ok
    dsimp only at ok
    unfold computeUpdatesForRegistration
    cases found : state.rib.find name with
    | none =>
      rw [found] at ok
      obtain ⟨removed,added,fits⟩ := newEntry_fits consistent found (childrenOf_nonInserted consistent.tree found) ok
      exact ⟨_,removed,added,rfl,fits⟩
    | some entry =>
      rw [found] at ok
      dsimp only at ok ⊢
      cases present : entry.findRoute route with
      | none =>
        rw [present] at ok
        obtain ⟨removed,added,fits⟩ := newRoute_fits consistent found present ok
        exact ⟨_,removed,added,rfl,fits⟩
      | some existing =>
        rw [present] at ok
        exact updatedRoute_fits consistent found present ok
  obtain ⟨emissions,removed,added,computed,fits⟩ := fitting
  obtain ⟨rib,applied,kept⟩ := fits_commands route consistent fits
  refine ⟨_,?_,kept⟩
  rw [RibState.beginApplyUpdate,computed]
  dsimp only [Option.bind_eq_bind,Option.bind_some]
  rw [applied]
  rfl

private theorem unregister_consistent (consistent : Consistent state) (readSecond : List Route → Route)
    (ok : state.UpdateOk readSecond (.unregister name route)) :
    ∃ next, state.beginApplyUpdate readSecond (.unregister name route) = some next ∧ Consistent next := by
  obtain ⟨rib,applied,kept⟩ := erase_consistent consistent readSecond (fun _ live => live) ok
  refine ⟨_,?_,kept (((fibUpdates route.faceId (computeUpdatesForUnregistration readSecond state.rib name route)).1 ++
    (fibUpdates route.faceId (computeUpdatesForUnregistration readSecond state.rib name route)).2).foldl
      (RibState.applyFibUpdate state.destroyed) state.fib) ?_ ?_⟩
  · rw [RibState.beginApplyUpdate]
    dsimp only [Option.bind_eq_bind]
    rw [applied]
    rfl
  · intro other face live
    exact commands_at route.faceId _ state.destroyed state.fib other face live
  · intro other face dead
    refine commands_destroyed state.destroyed state.fib other face _ dead ?_
    rw [consistent.hops,RibState.expected,if_pos dead]

private theorem removeFace_consistent (consistent : Consistent state) (readSecond : List Route → Route)
    (ok : state.UpdateOk readSecond (.removeFace name route)) :
    ∃ next, state.beginApplyUpdate readSecond (.removeFace name route) = some next ∧ Consistent next := by
  obtain ⟨rib,applied,kept⟩ := erase_consistent consistent readSecond
    (fun _ live dead => live (List.mem_cons_of_mem _ dead)) ok
  refine ⟨_,?_,kept ((fibUpdates route.faceId (computeUpdatesForUnregistration readSecond state.rib name route)).2.foldl
    (RibState.applyFibUpdate (route.faceId :: state.destroyed))
      fun name faceId => if faceId = route.faceId then none else state.fib name faceId) ?_ ?_⟩
  · rw [RibState.beginApplyUpdate]
    dsimp only [Option.bind_eq_bind]
    rw [applied]
    rfl
  · intro other face live
    have away : face ≠ route.faceId := fun same => live (same ▸ List.mem_cons_self)
    rw [others_at _ _ _ _ _ _ live away,if_neg away]
  · intro other face dead
    refine commands_destroyed _ _ other face _ dead ?_
    split
    · rfl
    · rename_i away
      rw [consistent.hops,RibState.expected,if_pos ((List.mem_cons.mp dead).resolve_left away)]

private theorem beginApplyUpdate_consistent (consistent : Consistent state) (readSecond : List Route → Route)
    (update : RibUpdate) (ok : state.UpdateOk readSecond update) :
    ∃ next, state.beginApplyUpdate readSecond update = some next ∧ Consistent next := by
  cases update with
  | register name route => exact register_consistent consistent readSecond ok
  | unregister name route => exact unregister_consistent consistent readSecond ok
  | removeFace name route => exact removeFace_consistent consistent readSecond ok

end

/-! Runs. A failed assertion ends a run. -/

def applyUpdate (readSecond : List Route → Route) (state : Option RibState) (update : RibUpdate) : Option RibState :=
  state.bind fun state => state.beginApplyUpdate readSecond update

/-- The next hops installed are those that the RIB calls for. -/
def Installed (state : Option RibState) : Prop :=
  ∃ reached, state = some reached ∧ ∀ name face, reached.fib name face = reached.expected name face

def Admitted (readSecond : List Route → Route) (state : Option RibState) (update : RibUpdate) : Prop :=
  ∀ reached, state = some reached → reached.UpdateOk readSecond update

theorem empty_consistent : Consistent .empty := by
  refine ⟨Rib.empty_tree,?_,?_,?_⟩
  · intro name entry found
    cases found
  · intro name face
    rfl
  · rintro name face _ ⟨⟨routes,found,-⟩,-⟩
    cases found

private theorem source_stored {content : Content} {face : Nat} {name : Name} {bound : Nat} {routes : List Route}
    (found : content.source face name bound = some routes) :
    ∃ size, size < bound ∧ content (name.getPrefix size) = some routes := by
  induction bound with
  | zero => cases found
  | succ bound ih =>
    have earlier : content.source face name bound = some routes →
        ∃ size, size < bound + 1 ∧ content (name.getPrefix size) = some routes := by
      intro above
      obtain ⟨size,less,stored⟩ := ih above
      exact ⟨size,by omega,stored⟩
    rw [Content.source] at found
    cases stored : content (name.getPrefix bound) with
    | none =>
      rw [stored] at found
      exact earlier found
    | some others =>
      rw [stored] at found
      dsimp only at found
      split at found
      · exact ⟨bound,Nat.lt_succ_self _,stored.trans found⟩
      · split at found
        · cases found
        · exact earlier found

def passingRoute : Route := ⟨1,0,10,true,false⟩

def plainRoute : Route := ⟨2,0,5,false,false⟩

def firstOf : List Route → Route
  | route :: _ => route
  | [] => plainRoute

end Ncfcc.Nfd
