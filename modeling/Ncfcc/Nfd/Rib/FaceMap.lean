import Ncfcc.Nfd.Rib.Assertions
import Ncfcc.Nfd.Rib.RouteCosts
import Ncfcc.Nfd.Rib.UpdateQueue

/-! The index of the RIB by faces. It lists an entry once for each new route, while the routes
of a listed entry are all read again, so that a second route of an entry on one face makes
each of them appear twice. -/
namespace Ncfcc.Nfd
open Library

namespace Rib

def routesOf (rib : Rib) (name : Name) : List Route := ((rib.find name).map RibEntry.routes).getD []

/-- The pairs of a name and a route on the face are listed, each of them once. -/
def ListsOnce (rib : Rib) : Prop :=
  ∀ faceId, (rib.findRoutesWithFaceId faceId).Nodup ∧ ∀ name route,
    (name,route) ∈ rib.findRoutesWithFaceId faceId ↔
      ∃ entry, rib.find name = some entry ∧ route ∈ entry.routes ∧ route.faceId = faceId

/-- The index refers to entries of the RIB only. -/
def RefersInside (rib : Rib) : Prop := ∀ faceId, ∀ name ∈ rib.faceMap faceId, (rib.find name).isSome

/-- From any queue over this RIB, removing a face queues one removal for each route on it. -/
def RemovesOnce (rib : Rib) : Prop :=
  ∀ (readSecond : List Route → Route) (queue next : UpdateQueue) (faceId : Nat), queue.rib = rib →
    queue.step readSecond (.beginRemoveFace faceId) = some next →
    ∃ added, next.queued = queue.queued ++ added ∧ ∀ update,
      (added.map UpdateQueueItem.update).count update =
        match update with
        | .removeFace name route => if route.faceId = faceId ∧ route ∈ rib.routesOf name then 1 else 0
        | _ => 0

/-- The call gives no entry a second route on a face. -/
def OneOriginEach (rib : Rib) : Call → Prop
  | .insert name route => ∀ entry, rib.find name = some entry → entry.findRoute route = none →
      entry.hasFaceId route.faceId = false
  | .erase _ _ => True

/-- The index lists the entries with a route on each face, however often, and an entry
has one route of each face and origin. -/
structure Indexed (rib : Rib) : Prop where
  tree : Tree rib
  listed : ∀ faceId name, name ∈ rib.faceMap faceId ↔ ∃ route ∈ rib.routesOf name, route.faceId = faceId
  apart : ∀ name, (rib.routesOf name).Pairwise fun first second => first.same second = false

/-! What the calls do to the routes and to the index. -/

private theorem routesOf_eq (rib : Rib) (name : Name) : rib.routesOf name = ((rib.core name).map Prod.fst).getD [] := by
  unfold routesOf core
  rw [Option.map_map]
  rfl

private theorem mem_routesOf {rib : Rib} {name : Name} {route : Route} :
    route ∈ rib.routesOf name ↔ ∃ entry, rib.find name = some entry ∧ route ∈ entry.routes := by
  unfold routesOf
  cases rib.find name with
  | none => simp
  | some entry => simp

def put (routes : List Route) (route : Route) : List Route :=
  match routes.find? (fun held => held.same route) with
  | none => routes ++ [route]
  | some _ => updateRoute routes route

section
variable {rib : Rib} (tree : Tree rib) (name : Name) (route : Route)
include tree

theorem routesOf_insert (other : Name) : (rib.insert name route).routesOf other =
    if other = name then put (rib.routesOf name) route else rib.routesOf other := by
  rw [routesOf_eq,insert_core tree,routesOf_eq,routesOf_eq]
  split
  · cases rib.core name with
    | none => rfl
    | some held =>
      obtain ⟨routes,inherited,count⟩ := held
      dsimp only [Option.map_some,Option.getD_some,put]
      cases routes.find? (fun held => held.same route) with
      | none => rfl
      | some existing => rfl
  · rfl

private theorem routesOf_erase (other : Name) : (rib.erase name route).routesOf other =
    if other = name then (rib.routesOf name).eraseP fun held => held.same route else rib.routesOf other := by
  rw [routesOf_eq,erase_core tree,routesOf_eq,routesOf_eq]
  split
  · cases rib.core name with
    | none => rfl
    | some held =>
      obtain ⟨routes,inherited,count⟩ := held
      dsimp only [Option.map_some,Option.getD_some]
      cases found : routes.find? (fun held => held.same route) with
      | none =>
        rw [List.eraseP_of_forall_not]
        · rfl
        · simpa using found
      | some existing =>
        dsimp only
        split
        · rename_i empty
          rw [List.isEmpty_iff.mp empty]
          rfl
        · rfl
  · rfl

end

section
variable (rib : Rib)

private theorem faceMap_adopt (parent : Option Name) (name : Name) (child : RibEntry) :
    (adopt parent name rib child).faceMap = rib.faceMap := by
  unfold adopt
  split
  · cases parent <;> rfl
  · rfl

private theorem faceMap_adopts (parent : Option Name) (name : Name) (children : List RibEntry) :
    (children.foldl (adopt parent name) rib).faceMap = rib.faceMap := by
  induction children generalizing rib with
  | nil => rfl
  | cons child children ih => rw [List.foldl_cons,ih,faceMap_adopt]

private theorem faceMap_insertName (name : Name) (route : Route) :
    (rib.insertName name route).faceMap = (rib.addFace route.faceId name).faceMap := by
  unfold insertName addFace
  dsimp only
  rw [faceMap_adopts]
  split <;> rfl

private theorem faceMap_releases (parent : Option Name) (name : Name) (children : List Name) :
    (children.foldl (release parent name) rib).faceMap = rib.faceMap := by
  induction children generalizing rib with
  | nil => rfl
  | cons child children ih =>
    rw [List.foldl_cons,ih]
    cases parent <;> rfl

private theorem faceMap_eraseEntry (entry : RibEntry) : (rib.eraseEntry entry).faceMap = rib.faceMap := by
  unfold eraseEntry
  dsimp only
  rw [faceMap_releases]
  split <;> rfl

/-- A new route lists the name at the end of its face. -/
theorem faceMap_insert (name : Name) (route : Route) (faceId : Nat) : (rib.insert name route).faceMap faceId =
    if faceId = route.faceId ∧ (rib.routesOf name).find? (fun held => held.same route) = none then
      rib.faceMap faceId ++ [name] else rib.faceMap faceId := by
  unfold insert routesOf
  cases rib.find name with
  | none =>
    dsimp only
    rw [faceMap_insertName]
    simp [addFace]
  | some entry =>
    dsimp only [Option.map_some,Option.getD_some]
    cases found : entry.findRoute route with
    | none =>
      have missing : entry.routes.find? (fun held => held.same route) = none := found
      simp [missing,addFace,modify]
    | some existing =>
      have present : entry.routes.find? (fun held => held.same route) = some existing := found
      simp [present,modify]

/-- The last route of a name on a face takes the name from the list of the face. -/
theorem faceMap_erase (name : Name) (route : Route) (faceId : Nat) : (rib.erase name route).faceMap faceId =
    if faceId = route.faceId ∧ (rib.routesOf name).find? (fun held => held.same route) ≠ none ∧
        ∀ held ∈ (rib.routesOf name).eraseP (fun other : Route => other.same route), held.faceId ≠ faceId then
      (rib.faceMap faceId).filter fun held => held ≠ name else rib.faceMap faceId := by
  unfold erase routesOf
  cases rib.find name with
  | none => simp
  | some entry =>
    dsimp only [Option.map_some,Option.getD_some]
    cases found : entry.findRoute route with
    | none =>
      have missing : entry.routes.find? (fun held => held.same route) = none := found
      simp [missing]
    | some existing =>
      have present : entry.routes.find? (fun held => held.same route) = some existing := found
      have routes : (entry.eraseRoute route).routes = entry.routes.eraseP fun held => held.same route := by
        rw [RibEntry.eraseRoute,found]
      have faces : ∀ changed : Rib, (if (entry.eraseRoute route).routes.isEmpty then
          changed.eraseEntry (entry.eraseRoute route) else changed).faceMap = changed.faceMap := by
        intro changed
        split
        · exact faceMap_eraseEntry changed _
        · rfl
      dsimp only
      rw [faces,RibEntry.hasFaceId,routes]
      by_cases left : (entry.routes.eraseP fun held => held.same route).any (fun held => held.faceId == route.faceId) = true
      · obtain ⟨held,inside,same⟩ := List.any_eq_true.mp left
        rw [if_pos left,if_neg]
        · rfl
        · rintro ⟨rfl,-,none⟩
          exact none held inside (beq_iff_eq.mp same)
      · have none : ∀ held ∈ entry.routes.eraseP (fun held => held.same route), held.faceId ≠ route.faceId := by
          simpa using left
        rw [if_neg left]
        by_cases here : faceId = route.faceId
        · rw [if_pos ⟨here,by simp [present],here ▸ none⟩]
          simp [removeFace,here,modify]
        · rw [if_neg (fun both => here both.1)]
          simp [removeFace,here,modify]

end

/-! The invariant. -/

private theorem same_iff {first second : Route} :
    first.same second = true ↔ first.faceId = second.faceId ∧ first.origin = second.origin := by
  simp [Route.same]

private theorem same_of_find {routes : List Route} {route existing : Route}
    (found : routes.find? (fun held => held.same route) = some existing) :
    existing.faceId = route.faceId ∧ existing.origin = route.origin := by
  have same := List.find?_some found
  exact same_iff.mp same

private theorem same_symm {first second : Route} (different : first.same second = false) : second.same first = false := by
  rw [Bool.eq_false_iff,ne_eq,same_iff] at different ⊢
  intro same
  exact different ⟨same.1.symm,same.2.symm⟩

private theorem put_faces (routes : List Route) (route : Route) (faceId : Nat) :
    (∃ held ∈ put routes route, held.faceId = faceId) ↔
      faceId = route.faceId ∨ ∃ held ∈ routes, held.faceId = faceId := by
  unfold put
  cases found : routes.find? (fun held => held.same route) with
  | none =>
    simp only [List.mem_append,List.mem_singleton,or_and_right,exists_or,exists_eq_left]
    rw [or_comm,eq_comm]
  | some existing =>
    have face : existing.faceId = route.faceId := (same_of_find found).1
    have before := perm_eraseP found
    have after := perm_updateRoute found
    simp only [after.mem_iff,before.mem_iff,List.mem_cons,or_and_right,exists_or,exists_eq_left,face]
    rw [eq_comm,← or_assoc,or_self]

private theorem put_apart {routes : List Route} (apart : routes.Pairwise fun first second => first.same second = false)
    (route : Route) : (put routes route).Pairwise fun first second => first.same second = false := by
  unfold put
  cases found : routes.find? (fun held => held.same route) with
  | none =>
    refine List.pairwise_append.mpr ⟨apart,List.pairwise_singleton _ _,?_⟩
    intro held inside other single
    rw [List.mem_singleton.mp single]
    simpa using List.find?_eq_none.mp found held inside
  | some existing =>
    have same := same_of_find found
    rw [(perm_eraseP found).pairwise_iff same_symm,List.pairwise_cons] at apart
    refine ((perm_updateRoute found).pairwise_iff same_symm).mpr (List.pairwise_cons.mpr ⟨?_,apart.2⟩)
    intro other inside
    have different := apart.1 other inside
    rw [Bool.eq_false_iff,ne_eq,same_iff] at different ⊢
    rwa [same.1,same.2] at different

/-- Another face keeps its routes when a route is taken out. -/
theorem eraseP_faces {routes : List Route} {route : Route} {faceId : Nat} (other : faceId ≠ route.faceId) :
    (∃ held ∈ routes.eraseP (fun held => held.same route), held.faceId = faceId) ↔
      ∃ held ∈ routes, held.faceId = faceId := by
  constructor
  · rintro ⟨held,inside,on⟩
    exact ⟨held,List.mem_of_mem_eraseP inside,on⟩
  · rintro ⟨held,inside,on⟩
    refine ⟨held,(List.mem_eraseP_of_neg ?_).mpr inside,on⟩
    intro same
    exact other (on.symm.trans (same_iff.mp same).1)

private theorem empty_indexed : Indexed .empty where
  tree := empty_tree
  listed := by simp [empty,routesOf,find]
  apart := by simp [empty,routesOf,find]

private theorem insert_indexed {rib : Rib} (indexed : Indexed rib) (name : Name) (route : Route) :
    Indexed (rib.insert name route) where
  tree := insert_tree indexed.tree name route
  listed := by
    intro faceId other
    rw [faceMap_insert,routesOf_insert indexed.tree]
    by_cases here : other = name
    · rw [if_pos here,put_faces,here,← indexed.listed]
      split
      · rename_i both
        simp [both.1]
      · rename_i neither
        rw [iff_or_self]
        rintro rfl
        -- A route of this face and origin is there already.
        obtain ⟨existing,found⟩ := Option.ne_none_iff_exists'.mp (fun none => neither ⟨rfl,none⟩)
        exact (indexed.listed route.faceId name).mpr
          ⟨existing,List.mem_of_find?_eq_some found,(same_of_find found).1⟩
    · rw [if_neg here,← indexed.listed]
      split
      · simp [here]
      · rfl
  apart := by
    intro other
    rw [routesOf_insert indexed.tree]
    split
    · exact put_apart (indexed.apart name) route
    · exact indexed.apart other

private theorem erase_indexed {rib : Rib} (indexed : Indexed rib) (name : Name) (route : Route) :
    Indexed (rib.erase name route) where
  tree := erase_tree indexed.tree name route
  listed := by
    intro faceId other
    rw [faceMap_erase,routesOf_erase indexed.tree]
    by_cases here : other = name
    · rw [if_pos here,here]
      split
      · rename_i last
        apply iff_of_false
        · simp
        · rintro ⟨held,inside,on⟩
          exact last.2.2 held inside on
      · rename_i left
        rw [indexed.listed]
        by_cases face : faceId = route.faceId
        · by_cases found : (rib.routesOf name).find? (fun held => held.same route) = none
          · rw [List.eraseP_of_forall_not]
            simpa using found
          · constructor
            · intro _
              by_contra none
              push Not at none
              exact left ⟨face,found,none⟩
            · rintro ⟨held,inside,on⟩
              exact ⟨held,List.mem_of_mem_eraseP inside,on⟩
        · exact (eraseP_faces face).symm
    · rw [if_neg here,← indexed.listed]
      split
      · simp [here]
      · rfl
  apart := by
    intro other
    rw [routesOf_erase indexed.tree]
    split
    · exact (indexed.apart name).sublist List.eraseP_sublist
    · exact indexed.apart other

/-! What the index lists. -/

def pairsOf (rib : Rib) (faceId : Nat) (name : Name) : List (Name × Route) :=
  ((rib.routesOf name).filter fun route => route.faceId == faceId).map fun route => (name,route)

private theorem findRoutesWithFaceId_eq (rib : Rib) (faceId : Nat) :
    rib.findRoutesWithFaceId faceId = (rib.faceMap faceId).flatMap (rib.pairsOf faceId) := by
  unfold findRoutesWithFaceId
  congr 1
  funext name
  unfold pairsOf routesOf
  cases rib.find name with
  | none => rfl
  | some entry => rfl

private theorem mem_pairsOf {rib : Rib} {faceId : Nat} {name other : Name} {route : Route} :
    (other,route) ∈ rib.pairsOf faceId name ↔ other = name ∧ route ∈ rib.routesOf name ∧ route.faceId = faceId := by
  unfold pairsOf
  simp only [List.mem_map,List.mem_filter,beq_iff_eq,Prod.mk.injEq]
  constructor
  · rintro ⟨held,⟨inside,on⟩,rfl,rfl⟩
    exact ⟨rfl,inside,on⟩
  · rintro ⟨rfl,inside,on⟩
    exact ⟨route,⟨inside,on⟩,rfl,rfl⟩

section
variable {rib : Rib} (indexed : Indexed rib)
include indexed

private theorem mem_findRoutesWithFaceId {faceId : Nat} {name : Name} {route : Route} :
    (name,route) ∈ rib.findRoutesWithFaceId faceId ↔ route ∈ rib.routesOf name ∧ route.faceId = faceId := by
  rw [findRoutesWithFaceId_eq,List.mem_flatMap]
  constructor
  · rintro ⟨other,-,pair⟩
    obtain ⟨rfl,held⟩ := mem_pairsOf.mp pair
    exact held
  · intro held
    exact ⟨name,(indexed.listed faceId name).mpr ⟨route,held⟩,mem_pairsOf.mpr ⟨rfl,held⟩⟩

private theorem pairsOf_nodup (faceId : Nat) (name : Name) : (rib.pairsOf faceId name).Nodup := by
  unfold pairsOf
  apply List.Nodup.map
  · intro first second same
    exact (Prod.mk.inj same).2
  · apply List.Nodup.filter
    apply (indexed.apart name).imp
    intro first second different equal
    rw [equal,Bool.eq_false_iff,ne_eq,same_iff] at different
    exact different ⟨rfl,rfl⟩

/-- Each name is listed once exactly when each pair is. -/
theorem nodup_findRoutesWithFaceId (faceId : Nat) :
    (rib.findRoutesWithFaceId faceId).Nodup ↔ (rib.faceMap faceId).Nodup := by
  rw [findRoutesWithFaceId_eq,List.nodup_flatMap]
  have apart : ∀ {first second : Name}, first ∈ rib.faceMap faceId → second ∈ rib.faceMap faceId →
      (Function.onFun List.Disjoint (rib.pairsOf faceId) first second ↔ first ≠ second) := by
    intro first second inside _
    constructor
    · rintro disjoint rfl
      obtain ⟨route,held⟩ := (indexed.listed faceId first).mp inside
      have pair : (first,route) ∈ rib.pairsOf faceId first := mem_pairsOf.mpr ⟨rfl,held⟩
      exact disjoint pair pair
    · rintro different ⟨name,route⟩ one two
      exact different ((mem_pairsOf.mp one).1.symm.trans (mem_pairsOf.mp two).1)
  constructor
  · rintro ⟨-,disjoint⟩
    exact disjoint.imp_of_mem fun first second => (apart first second).mp
  · intro distinct
    exact ⟨fun name _ => pairsOf_nodup indexed faceId name,
      List.Pairwise.imp_of_mem (fun first second => (apart first second).mpr) distinct⟩

private theorem listsOnce_iff : rib.ListsOnce ↔ ∀ faceId, (rib.faceMap faceId).Nodup := by
  constructor
  · intro once faceId
    exact (nodup_findRoutesWithFaceId indexed faceId).mp (once faceId).1
  · intro distinct faceId
    refine ⟨(nodup_findRoutesWithFaceId indexed faceId).mpr (distinct faceId),?_⟩
    intro name route
    rw [mem_findRoutesWithFaceId indexed,mem_routesOf]
    simp only [← exists_and_right,and_assoc]

private theorem refersInside : rib.RefersInside := by
  intro faceId name inside
  obtain ⟨route,held,-⟩ := (indexed.listed faceId name).mp inside
  obtain ⟨entry,found,-⟩ := mem_routesOf.mp held
  rw [found]
  rfl

end

end Rib

namespace UpdateQueue

private theorem runCallback_queued {queue next : UpdateQueue} {callback : FibUpdater.Callback}
    (ran : queue.runCallback callback = some next) : next.queued = queue.queued := by
  cases callback with
  | onSuccess item routes =>
    obtain ⟨rib,-,rfl⟩ := Option.map_eq_some_iff.mp ran
    rfl
  | onFailure item =>
    obtain rfl := Option.some.inj ran
    rfl

/-- Sending batches adds nothing to what was ever queued. -/
theorem sendBatches_queued {readSecond : List Route → Route} (items : List UpdateQueueItem) {queue next : UpdateQueue}
    (sent : sendBatches readSecond items queue = some next) : next.queued = queue.queued := by
  induction items generalizing queue with
  | nil =>
    obtain rfl := Option.some.inj sent
    rfl
  | cons item rest ih =>
    unfold sendBatches at sent
    split at sent
    · obtain rfl := Option.some.inj sent
      rfl
    · obtain ⟨⟨updater,callback⟩,-,sent⟩ := Option.bind_eq_some_iff.mp sent
      cases callback with
      | none =>
        obtain rfl := Option.some.inj sent
        rfl
      | some callback =>
        obtain ⟨after,ran,sent⟩ := Option.bind_eq_some_iff.mp sent
        have kept := runCallback_queued ran
        exact (ih sent).trans kept

private theorem addUpdates_queued (items : List (Name × Route)) (queue : UpdateQueue) : ∃ added,
    (items.foldl (fun queue item => queue.addUpdateToQueue (.removeFace item.1 item.2)) queue).queued =
      queue.queued ++ added ∧
    added.map UpdateQueueItem.update = items.map fun item => RibUpdate.removeFace item.1 item.2 := by
  induction items generalizing queue with
  | nil => exact ⟨[],by simp,rfl⟩
  | cons item items ih =>
    obtain ⟨added,grown,updates⟩ := ih (queue.addUpdateToQueue (.removeFace item.1 item.2))
    refine ⟨⟨queue.queued.length,.removeFace item.1 item.2⟩ :: added,?_,?_⟩
    · rw [List.foldl_cons,grown]
      simp [addUpdateToQueue]
    · rw [List.map_cons,List.map_cons,updates]

/-- A removal of a face queues what the index lists for it. -/
theorem beginRemoveFace_queued {readSecond : List Route → Route} {queue next : UpdateQueue} {faceId : Nat}
    (stepped : queue.step readSecond (.beginRemoveFace faceId) = some next) :
    ∃ added, next.queued = queue.queued ++ added ∧ added.map UpdateQueueItem.update =
      (queue.rib.findRoutesWithFaceId faceId).map fun item => RibUpdate.removeFace item.1 item.2 := by
  obtain ⟨added,grown,updates⟩ := addUpdates_queued (queue.rib.findRoutesWithFaceId faceId) queue
  exact ⟨added,(sendBatches_queued _ stepped).trans grown,updates⟩

end UpdateQueue

namespace Rib
variable {rib : Rib}

private theorem removesOnce (indexed : Indexed rib) (once : rib.ListsOnce) : rib.RemovesOnce := by
  rintro readSecond queue next faceId rfl stepped
  obtain ⟨added,grown,updates⟩ := UpdateQueue.beginRemoveFace_queued stepped
  refine ⟨added,grown,?_⟩
  have distinct : ((queue.rib.findRoutesWithFaceId faceId).map fun item =>
      RibUpdate.removeFace item.1 item.2).Nodup := by
    apply List.Nodup.map
    · intro first second same
      exact Prod.ext (RibUpdate.removeFace.inj same).1 (RibUpdate.removeFace.inj same).2
    · exact (once faceId).1
  intro update
  rw [updates,distinct.count]
  cases update with
  | register name route => simp
  | unregister name route => simp
  | removeFace name route =>
    have listed : RibUpdate.removeFace name route ∈ (queue.rib.findRoutesWithFaceId faceId).map (fun item =>
        RibUpdate.removeFace item.1 item.2) ↔ route.faceId = faceId ∧ route ∈ queue.rib.routesOf name := by
      rw [and_comm,← mem_findRoutesWithFaceId indexed,List.mem_map]
      constructor
      · rintro ⟨⟨other,held⟩,inside,same⟩
        obtain ⟨rfl,rfl⟩ := RibUpdate.removeFace.inj same
        exact inside
      · intro inside
        exact ⟨(name,route),inside,rfl⟩
    simp only [listed]

/-- A new route is on a face under which the name is not listed. -/
theorem oneOriginEach_iff (indexed : Indexed rib) (name : Name) (route : Route) :
    rib.OneOriginEach (.insert name route) ↔
      ((rib.routesOf name).find? (fun held => held.same route) = none → name ∉ rib.faceMap route.faceId) := by
  have listed : name ∉ rib.faceMap route.faceId ↔ ∀ held ∈ rib.routesOf name, held.faceId ≠ route.faceId := by
    rw [indexed.listed]
    simp
  rw [listed]
  unfold OneOriginEach routesOf RibEntry.hasFaceId RibEntry.findRoute
  cases found : rib.find name with
  | none => simp [found]
  | some entry => simp [found]

private theorem insert_nodup (indexed : Indexed rib) (distinct : ∀ faceId, (rib.faceMap faceId).Nodup) (name : Name)
    (route : Route) :
    (∀ faceId, ((rib.insert name route).faceMap faceId).Nodup) ↔ rib.OneOriginEach (.insert name route) := by
  rw [oneOriginEach_iff indexed]
  constructor
  · intro after fresh inside
    have twice := after route.faceId
    rw [faceMap_insert,if_pos ⟨rfl,fresh⟩,List.nodup_append] at twice
    exact twice.2.2 name inside name (List.mem_singleton_self name) rfl
  · intro absent faceId
    rw [faceMap_insert]
    split
    · rename_i new
      obtain ⟨rfl,fresh⟩ := new
      refine List.nodup_append.mpr ⟨distinct _,List.nodup_singleton name,?_⟩
      rintro held inside other single rfl
      rw [List.mem_singleton.mp single] at inside
      exact absent fresh inside
    · exact distinct faceId

private theorem exact_iff (indexed : Indexed rib) :
    rib.ListsOnce ∧ rib.RefersInside ∧ rib.RemovesOnce ↔ ∀ faceId, (rib.faceMap faceId).Nodup := by
  rw [← listsOnce_iff indexed]
  exact ⟨And.left,fun once => ⟨once,refersInside indexed,removesOnce indexed once⟩⟩

/-- A call keeps the invariant, and an exact index exactly without a second route on a face. -/
theorem call_indexed (indexed : Indexed rib) {made : Call} {changed : Rib} (called : rib.call made = some changed) :
    Indexed changed ∧ ((∀ faceId, (rib.faceMap faceId).Nodup) →
      ((∀ faceId, (changed.faceMap faceId).Nodup) ↔ rib.OneOriginEach made)) := by
  cases made with
  | insert name route =>
    obtain rfl := Option.some.inj ((insertAsserting_eq indexed.tree name route).symm.trans called)
    exact ⟨insert_indexed indexed name route,fun distinct => insert_nodup indexed distinct name route⟩
  | erase name route =>
    obtain rfl := Option.some.inj ((eraseAsserting_eq indexed.tree name route).symm.trans called)
    refine ⟨erase_indexed indexed name route,fun distinct => iff_of_true ?_ trivial⟩
    intro faceId
    rw [faceMap_erase]
    split
    · exact (distinct faceId).filter _
    · exact distinct faceId

/-- The index is exact in every state of a run exactly when no call gives an entry a second
route on a face. -/
theorem faceMap_exact_iff (calls : List Call) :
    Along (attempt call) (fun state => ∀ rib, state = some rib →
        rib.ListsOnce ∧ rib.RefersInside ∧ rib.RemovesOnce) (some .empty) calls ↔
      Steps (attempt call) (fun state made => ∀ rib, state = some rib → rib.OneOriginEach made)
        (some .empty) calls := by
  have anything : Steps (attempt call) (fun state made => ∀ rib, state = some rib → (fun _ _ => True) rib made)
      (some .empty) calls := fun _ _ _ _ _ => trivial
  refine attempt_along_iff_steps (I := Indexed) ?_ ?_ empty_indexed ?_ anything
  · intro rib made changed indexed _ called
    obtain ⟨kept,exact⟩ := call_indexed indexed called
    rw [exact_iff indexed,exact_iff kept]
    exact ⟨kept,exact⟩
  · intro rib made failed
    cases made with
    | insert name route =>
      -- Only the insertion of a new name has assertions.
      intro entry found
      simp [call,insertAsserting,found] at failed
    | erase name route => trivial
  · rw [exact_iff empty_indexed]
    intro faceId
    exact List.nodup_nil

/-- Two routes of one name on a face, from an application and by hand. -/
theorem second_origin_lists_twice : ¬∀ calls : List Call,
    Along (attempt call) (fun state => ∀ rib, state = some rib → rib.ListsOnce) (some .empty) calls := by
  intro always
  have last := always [.insert [[97]] ⟨1,0,10,true,false⟩,.insert [[97]] ⟨1,255,20,true,false⟩] _ List.prefix_rfl
  have evaluated : (run (attempt call) (some .empty) [.insert [[97]] ⟨1,0,10,true,false⟩,
      .insert [[97]] ⟨1,255,20,true,false⟩]).map (fun rib => rib.findRoutesWithFaceId 1) =
      some [([[97]],⟨1,0,10,true,false⟩),([[97]],⟨1,255,20,true,false⟩),
        ([[97]],⟨1,0,10,true,false⟩),([[97]],⟨1,255,20,true,false⟩)] := by decide +kernel
  obtain ⟨rib,reached,listed⟩ := Option.map_eq_some_iff.mp evaluated
  have distinct := (last rib reached 1).1
  rw [listed] at distinct
  revert distinct
  decide

end Rib

end Ncfcc.Nfd
