import Ncfcc.Nfd.Rib.Traversal

/-! What the emissions of an update do to the next hops and to the inherited routes. Both
are read off, for each name and face, from the emissions for that name and face. -/
namespace Ncfcc.Nfd
open FibUpdater

/-! Next hops. -/

def hopAfter (emissions : List Emission) (hop : Option Nat) : Option Nat :=
  emissions.foldl (fun hop emission =>
    match emission with
    | .addNextHop _ _ cost => some cost
    | .removeNextHop _ _ => none
    | _ => hop) hop

@[simp] theorem hopAfter_nil (hop : Option Nat) : hopAfter [] hop = hop := rfl

@[simp] theorem hopAfter_append (first second : List Emission) (hop : Option Nat) :
    hopAfter (first ++ second) hop = hopAfter second (hopAfter first hop) := List.foldl_append

private def onUpdates (updates : List FibUpdate) (name : Name) (face : Nat) : List FibUpdate :=
  updates.filter fun update => update.name = name ∧ update.faceId = face

private theorem onUpdates_addFibUpdate (updates : List FibUpdate) (new : FibUpdate) (name : Name) (face : Nat)
    (single : (onUpdates updates name face).length ≤ 1) :
    onUpdates (addFibUpdate updates new) name face =
      if new.name = name ∧ new.faceId = face then [new] else onUpdates updates name face := by
  induction updates with
  | nil => simp only [addFibUpdate,onUpdates,List.filter_cons,List.filter_nil,decide_eq_true_eq]
  | cons update updates ih =>
    by_cases same : update.name = new.name ∧ update.faceId = new.faceId
    · rw [addFibUpdate,if_pos same]
      simp only [onUpdates,List.filter_cons,decide_eq_true_eq] at single ⊢
      rw [same.1,same.2] at single ⊢
      by_cases keyed : new.name = name ∧ new.faceId = face
      · rw [if_pos keyed] at single ⊢
        rw [if_pos keyed]
        rw [List.length_cons] at single
        rw [List.length_eq_zero_iff.mp (Nat.le_zero.mp (Nat.le_of_succ_le_succ single))]
      · rw [if_neg keyed,if_neg keyed,if_neg keyed]
    · rw [addFibUpdate,if_neg same]
      have shorter : (onUpdates updates name face).length ≤ 1 :=
        Nat.le_trans (List.Sublist.length_le (List.Sublist.filter _ (List.sublist_cons_self update updates))) single
      have rest := ih shorter
      simp only [onUpdates,List.filter_cons,decide_eq_true_eq] at rest ⊢
      rw [rest]
      by_cases keyed : update.name = name ∧ update.faceId = face
      · have other : ¬(new.name = name ∧ new.faceId = face) := by
          intro also
          exact same ⟨keyed.1.trans also.1.symm,keyed.2.trans also.2.symm⟩
        rw [if_pos keyed,if_neg other,if_neg other,if_pos keyed]
      · rw [if_neg keyed,if_neg keyed]

private theorem onUpdates_foldl (updates : List FibUpdate) (name : Name) (face : Nat) :
    onUpdates (updates.foldl addFibUpdate []) name face = (onUpdates updates name face).getLast?.toList := by
  induction updates using List.reverseRecOn with
  | nil => rfl
  | append_singleton updates new ih =>
    have single : (onUpdates (updates.foldl addFibUpdate []) name face).length ≤ 1 := by
      rw [ih]
      cases (onUpdates updates name face).getLast? with
      | none => exact Nat.zero_le _
      | some _ => exact Nat.le_refl _
    rw [List.foldl_append,List.foldl_cons,List.foldl_nil,onUpdates_addFibUpdate _ _ _ _ single,ih]
    unfold onUpdates
    rw [List.filter_append]
    by_cases keyed : new.name = name ∧ new.faceId = face
    · simp [keyed]
    · rw [if_neg keyed,List.filter_cons,if_neg (by simpa using keyed),List.filter_nil,List.append_nil]

private theorem apply_at (destroyed : List Nat) (updates : List FibUpdate) (fib : NextHops) (name : Name) (face : Nat) :
    updates.foldl (RibState.applyFibUpdate destroyed) fib name face =
      match (onUpdates updates name face).getLast? with
      | none => fib name face
      | some update => if face ∈ destroyed then none else update.cost := by
  induction updates using List.reverseRecOn with
  | nil => rfl
  | append_singleton updates new ih =>
    rw [List.foldl_append,List.foldl_cons,List.foldl_nil]
    unfold onUpdates at ih ⊢
    rw [List.filter_append,List.filter_cons,List.filter_nil]
    by_cases keyed : new.name = name ∧ new.faceId = face
    · rw [if_pos (by simpa using keyed),List.getLast?_append]
      unfold RibState.applyFibUpdate
      rw [if_pos ⟨keyed.1.symm,keyed.2.symm⟩]
      rfl
    · rw [if_neg (by simpa using keyed),List.append_nil,← ih]
      unfold RibState.applyFibUpdate
      rw [if_neg]
      rintro ⟨same,also⟩
      exact keyed ⟨same.symm,also.symm⟩

private theorem hopAfter_eq (emissions : List Emission) (name : Name) (face : Nat) (hop : Option Nat) :
    hopAfter (onKey emissions name face) hop =
      match (onUpdates (emissions.filterMap fibUpdate) name face).getLast? with
      | none => hop
      | some update => update.cost := by
  induction emissions using List.reverseRecOn with
  | nil => rfl
  | append_singleton emissions emission ih =>
    rw [onKey_append,hopAfter_append,ih]
    unfold onUpdates
    rw [List.filterMap_append,List.filter_append,List.getLast?_append]
    generalize (List.filter _ (List.filterMap fibUpdate emissions)).getLast? = last
    by_cases keyed : emission.name = name ∧ emission.faceId = face
    · have alone : onKey [emission] name face = [emission] := onKey_of_forall (by simpa using keyed)
      rw [alone]
      cases emission with
      | addNextHop named faced cost =>
        obtain ⟨rfl,rfl⟩ : named = name ∧ faced = face := keyed
        simp [hopAfter,fibUpdate]
      | removeNextHop named faced =>
        obtain ⟨rfl,rfl⟩ : named = name ∧ faced = face := keyed
        simp [hopAfter,fibUpdate]
      | addInheritedRoute named route => rfl
      | removeInheritedRoute named route => rfl
    · have alone : onKey [emission] name face = [] := onKey_of_none (by simpa using keyed)
      rw [alone]
      cases emission with
      | addNextHop named faced cost =>
        have other : ¬(named = name ∧ faced = face) := keyed
        simp [fibUpdate,other]
      | removeNextHop named faced =>
        have other : ¬(named = name ∧ faced = face) := keyed
        simp [fibUpdate,other]
      | addInheritedRoute named route => rfl
      | removeInheritedRoute named route => rfl

private theorem onUpdates_filter (updates : List FibUpdate) (test : Nat → Bool) (name : Name) (face : Nat) :
    onUpdates (updates.filter fun update => test update.faceId) name face =
      if test face then onUpdates updates name face else [] := by
  unfold onUpdates
  rw [List.filter_filter]
  split
  · rename_i passes
    apply List.filter_congr
    intro update _
    by_cases same : update.faceId = face
    · simp [same,passes]
    · simp [same]
  · rename_i fails
    apply List.filter_eq_nil_iff.mpr
    intro update _
    by_cases same : update.faceId = face
    · simp [same,fails]
    · simp [same]

section
variable (batchFaceId : Nat) (emissions : List Emission) (destroyed : List Nat) (fib : NextHops) (name : Name) (face : Nat)

private theorem onUpdates_commands :
    onUpdates ((fibUpdates batchFaceId emissions).1 ++ (fibUpdates batchFaceId emissions).2) name face =
      (onUpdates (emissions.filterMap fibUpdate) name face).getLast?.toList := by
  have divided : ∀ first second, onUpdates (first ++ second) name face =
      onUpdates first name face ++ onUpdates second name face := fun _ _ => List.filter_append ..
  unfold fibUpdates
  dsimp only
  rw [divided,onUpdates_foldl,onUpdates_foldl,onUpdates_filter _ fun face => decide (face = batchFaceId),
    onUpdates_filter _ fun face => decide (face ≠ batchFaceId)]
  by_cases batch : face = batchFaceId
  · simp [batch]
  · simp [batch]

/-- The next hops after all commands of an update. -/
theorem commands_at (live : face ∉ destroyed) :
    ((fibUpdates batchFaceId emissions).1 ++ (fibUpdates batchFaceId emissions).2).foldl
        (RibState.applyFibUpdate destroyed) fib name face =
      hopAfter (onKey emissions name face) (fib name face) := by
  rw [apply_at,hopAfter_eq,onUpdates_commands]
  cases (onUpdates (emissions.filterMap fibUpdate) name face).getLast? with
  | none => rfl
  | some update => simp [live]

/-- The commands for a name and a face have a cost if the emissions leave it as it is. -/
theorem commands_cost (cost : Option Nat) :
    (∀ update ∈ (fibUpdates batchFaceId emissions).1 ++ (fibUpdates batchFaceId emissions).2,
        update.name = name → update.faceId = face → update.cost = cost) ↔
      hopAfter (onKey emissions name face) cost = cost := by
  have keyed : (∀ update ∈ (fibUpdates batchFaceId emissions).1 ++ (fibUpdates batchFaceId emissions).2,
      update.name = name → update.faceId = face → update.cost = cost) ↔
      ∀ update ∈ (onUpdates (emissions.filterMap fibUpdate) name face).getLast?.toList, update.cost = cost := by
    rw [← onUpdates_commands batchFaceId]
    simp only [onUpdates,List.mem_filter,decide_eq_true_eq,and_imp]
  rw [keyed,hopAfter_eq]
  cases (onUpdates (emissions.filterMap fibUpdate) name face).getLast? with
  | none => simp
  | some update => simp

theorem others_at (live : face ∉ destroyed) (away : face ≠ batchFaceId) :
    (fibUpdates batchFaceId emissions).2.foldl (RibState.applyFibUpdate destroyed) fib name face =
      hopAfter (onKey emissions name face) (fib name face) := by
  have none_in_batch : onUpdates (fibUpdates batchFaceId emissions).1 name face = [] := by
    unfold fibUpdates
    dsimp only
    rw [onUpdates_foldl,onUpdates_filter _ fun face => decide (face = batchFaceId),if_neg (by simpa using away)]
    rfl
  rw [← commands_at batchFaceId emissions destroyed fib name face live,apply_at,apply_at]
  unfold onUpdates at none_in_batch ⊢
  rw [List.filter_append,none_in_batch,List.nil_append]

theorem commands_destroyed (updates : List FibUpdate) (gone : face ∈ destroyed) (nothing : fib name face = none) :
    updates.foldl (RibState.applyFibUpdate destroyed) fib name face = none := by
  rw [apply_at]
  split
  · exact nothing
  · rw [if_pos gone]

end

/-! Inherited routes. -/

def Rib.records (rib : Rib) (name : Name) (face : Nat) : Nat :=
  match rib.find name with
  | none => 0
  | some entry => entry.inheritedRoutes.countP fun route => route.faceId == face

def recordStep (records : Nat) : Emission → Option Nat
  | .addInheritedRoute _ _ => some (records + 1)
  | .removeInheritedRoute _ _ => if records = 0 then none else some (records - 1)
  | _ => some records

def recordsAfter (emissions : List Emission) (records : Nat) : Option Nat := emissions.foldlM recordStep records

@[simp] theorem recordsAfter_nil (records : Nat) : recordsAfter [] records = some records := rfl

theorem recordsAfter_append (first second : List Emission) (records : Nat) :
    recordsAfter (first ++ second) records = (recordsAfter first records).bind (recordsAfter second) :=
  List.foldlM_append

def Emission.isRecord : Emission → Bool
  | addInheritedRoute _ _ => true
  | removeInheritedRoute _ _ => true
  | _ => false

def Emission.isAddition : Emission → Bool
  | addInheritedRoute _ _ => true
  | _ => false

private theorem recordsAfter_of_additions {emissions : List Emission}
    (additions : ∀ emission ∈ emissions, emission.isRecord = true → emission.isAddition = true) (records : Nat) :
    recordsAfter emissions records = some (records + emissions.countP Emission.isAddition) := by
  induction emissions generalizing records with
  | nil => rfl
  | cons emission emissions ih =>
    have first := additions emission List.mem_cons_self
    have rest := ih fun other inside => additions other (List.mem_cons_of_mem _ inside)
    rw [recordsAfter,List.foldlM_cons,List.countP_cons]
    cases emission with
    | addNextHop name faceId cost => exact rest records
    | removeNextHop name faceId => exact rest records
    | addInheritedRoute name route =>
      refine (rest (records + 1)).trans ?_
      simp only [Emission.isAddition,if_true]
      congr 1
      omega
    | removeInheritedRoute name route => cases first rfl

theorem recordsAfter_of_hops {emissions : List Emission} (hops : ∀ emission ∈ emissions, emission.isRecord = false)
    (records : Nat) : recordsAfter emissions records = some records := by
  rw [recordsAfter_of_additions]
  · have nothing : emissions.countP Emission.isAddition = 0 := by
      apply List.countP_eq_zero.mpr
      intro emission inside added
      have hop := hops emission inside
      cases emission with
      | addInheritedRoute name route => cases hop
      | addNextHop name faceId cost => cases added
      | removeNextHop name faceId => cases added
      | removeInheritedRoute name route => cases added
    rw [nothing]
    rfl
  · intro emission inside record
    rw [hops emission inside] at record
    cases record

def Rib.shape (rib : Rib) (name : Name) : Option (List Route × Nat) :=
  (rib.find name).map fun entry => (entry.routes,entry.nRoutesWithCaptureSet)

theorem records_find {rib : Rib} {name : Name} {entry : RibEntry} (found : rib.find name = some entry) (face : Nat) :
    rib.records name face = entry.inheritedRoutes.countP fun route => route.faceId == face := by
  rw [Rib.records,found]

theorem hasInheritedRoute_iff {rib : Rib} {name : Name} {entry : RibEntry} (found : rib.find name = some entry)
    (route : Route) : entry.hasInheritedRoute route = true ↔ 0 < rib.records name route.faceId := by
  rw [records_find found,List.countP_pos_iff,RibEntry.hasInheritedRoute,List.any_eq_true]

private theorem modify_inherited (rib : Rib) (name : Name) (change : List Route → List Route) :
    (rib.Tree → (rib.modify name fun entry => {entry with inheritedRoutes := change entry.inheritedRoutes}).Tree) ∧
    (∀ other, (rib.modify name fun entry => {entry with inheritedRoutes := change entry.inheritedRoutes}).shape other =
      rib.shape other) ∧
    ∀ other face, (rib.modify name fun entry =>
        {entry with inheritedRoutes := change entry.inheritedRoutes}).records other face =
      match rib.find other with
      | none => 0
      | some entry => (if other = name then change entry.inheritedRoutes else entry.inheritedRoutes).countP
          fun route => route.faceId == face := by
  have looked := rib.find_modify name (fun entry => {entry with inheritedRoutes := change entry.inheritedRoutes})
    fun _ => rfl
  refine ⟨?_,?_,?_⟩
  · intro tree
    exact Rib.modify_tree tree name _ fun _ => ⟨rfl,rfl,rfl⟩
  · intro other
    unfold Rib.shape
    rw [looked]
    cases rib.find other with
    | none => rfl
    | some entry => by_cases same : other = name <;> simp [same]
  · intro other face
    unfold Rib.records
    rw [looked]
    cases rib.find other with
    | none => rfl
    | some entry => by_cases same : other = name <;> simp [same]

private theorem countP_eraseP_face (routes : List Route) (gone face : Nat)
    (inside : 0 < routes.countP fun route => route.faceId == gone) :
    (routes.eraseP fun route => route.faceId == gone).countP (fun route => route.faceId == face) =
      (routes.countP fun route => route.faceId == face) - if gone = face then 1 else 0 := by
  induction routes with
  | nil => cases inside
  | cons route routes ih =>
    by_cases here : route.faceId = gone
    · rw [List.eraseP_cons_of_pos (by simpa using here),List.countP_cons,here]
      by_cases same : gone = face <;> simp [same]
    · rw [List.eraseP_cons_of_neg (by simpa using here),List.countP_cons,List.countP_cons]
      rw [List.countP_cons_of_neg (by simpa using here)] at inside
      rw [ih inside]
      by_cases same : gone = face
      · rw [← same,if_pos rfl,if_neg (by simpa using here)]
        omega
      · rw [if_neg same]
        omega

private theorem modifyInheritedRoute_step (rib : Rib) (emission : Emission) (left : Nat)
    (counts : recordStep (rib.records emission.name emission.faceId) emission = some left)
    (present : emission.isRecord → (rib.find emission.name).isSome) :
    ∃ changed, rib.modifyInheritedRoute emission = some changed ∧ (rib.Tree → changed.Tree) ∧
      (∀ other, changed.shape other = rib.shape other) ∧
      ∀ other face, changed.records other face =
        if emission.name = other ∧ emission.faceId = face then left else rib.records other face := by
  cases emission with
  | addNextHop name faceId cost =>
    refine ⟨rib,rfl,id,fun _ => rfl,?_⟩
    intro other face
    split
    · rename_i keyed
      rw [← keyed.1,← keyed.2]
      exact Option.some.inj counts
    · rfl
  | removeNextHop name faceId =>
    refine ⟨rib,rfl,id,fun _ => rfl,?_⟩
    intro other face
    split
    · rename_i keyed
      rw [← keyed.1,← keyed.2]
      exact Option.some.inj counts
    · rfl
  | addInheritedRoute name route =>
    obtain ⟨entry,found⟩ := Option.isSome_iff_exists.mp (present rfl)
    obtain ⟨keepsTree,keepsShape,recorded⟩ := modify_inherited rib name fun routes => routes ++ [route]
    refine ⟨_,if_pos (by rw [show rib.find name = some entry from found]; rfl),keepsTree,keepsShape,?_⟩
    intro other face
    have left_eq : rib.records name route.faceId + 1 = left := Option.some.inj counts
    have stored : rib.find name = some entry := found
    rw [recorded]
    by_cases same : other = name
    · rw [same,stored]
      dsimp only
      rw [if_pos rfl,List.countP_append,List.countP_singleton,← records_find stored]
      by_cases here : route.faceId = face
      · rw [if_pos (by simpa using here),if_pos ⟨rfl,here⟩,← left_eq,here]
      · rw [if_neg (by simpa using here),if_neg fun keyed => here keyed.2]
        rfl
    · rw [if_neg fun keyed => same keyed.1.symm]
      simp only [if_neg same]
      rfl
  | removeInheritedRoute name route =>
    obtain ⟨entry,found⟩ := Option.isSome_iff_exists.mp (present rfl)
    have stored : rib.find name = some entry := found
    have inside : rib.records name route.faceId ≠ 0 := by
      intro none_left
      have stuck : (if rib.records name route.faceId = 0 then none else some (rib.records name route.faceId - 1)) =
          some left := counts
      rw [if_pos none_left] at stuck
      cases stuck
    have left_eq : rib.records name route.faceId - 1 = left := by
      have taken : (if rib.records name route.faceId = 0 then none else some (rib.records name route.faceId - 1)) =
          some left := counts
      rw [if_neg inside] at taken
      exact Option.some.inj taken
    have held : entry.hasInheritedRoute route = true := (hasInheritedRoute_iff stored route).mpr (Nat.pos_of_ne_zero inside)
    obtain ⟨keepsTree,keepsShape,recorded⟩ := modify_inherited rib name fun routes =>
      routes.eraseP fun other => other.faceId == route.faceId
    refine ⟨_,?_,keepsTree,keepsShape,?_⟩
    · simp only [Rib.modifyInheritedRoute,stored,held,if_true]
    intro other face
    rw [recorded]
    by_cases same : other = name
    · rw [same,stored]
      dsimp only
      rw [if_pos rfl,countP_eraseP_face _ _ _ (by rw [← records_find stored]; exact Nat.pos_of_ne_zero inside),
        ← records_find stored]
      by_cases here : route.faceId = face
      · rw [if_pos here,if_pos ⟨rfl,here⟩,← left_eq,here]
      · rw [if_neg here,if_neg fun keyed => here keyed.2]
        rfl
    · rw [if_neg fun keyed => same keyed.1.symm]
      simp only [if_neg same]
      rfl

theorem modifyInheritedRoutes_spec (emissions : List Emission) (rib : Rib) (left : Name → Nat → Nat)
    (counts : ∀ name face, recordsAfter (onKey emissions name face) (rib.records name face) = some (left name face))
    (present : ∀ emission ∈ emissions, emission.isRecord → (rib.find emission.name).isSome) :
    ∃ changed, rib.modifyInheritedRoutes emissions = some changed ∧ (rib.Tree → changed.Tree) ∧
      (∀ name, changed.shape name = rib.shape name) ∧ ∀ name face, changed.records name face = left name face := by
  induction emissions generalizing rib with
  | nil => exact ⟨rib,rfl,id,fun _ => rfl,fun name face => Option.some.inj (counts name face)⟩
  | cons emission emissions ih =>
    have first : ∃ next, recordStep (rib.records emission.name emission.faceId) emission = some next := by
      have whole := counts emission.name emission.faceId
      rw [onKey,List.filter_cons,if_pos (by simp)] at whole
      cases step : recordStep (rib.records emission.name emission.faceId) emission with
      | some next => exact ⟨next,rfl⟩
      | none =>
        rw [recordsAfter,List.foldlM_cons,step] at whole
        cases whole
    obtain ⟨next,stepped⟩ := first
    obtain ⟨changed,applied,keepsTree,keepsShape,recorded⟩ :=
      modifyInheritedRoute_step rib emission next stepped (present emission List.mem_cons_self)
    have stays : ∀ name, (changed.find name).isSome = (rib.find name).isSome := by
      intro name
      have same := congrArg Option.isSome (keepsShape name)
      rw [Rib.shape,Rib.shape,Option.isSome_map,Option.isSome_map] at same
      exact same
    obtain ⟨final,rest,tree,shape,records⟩ := ih changed
      (by
        intro name face
        rw [← counts name face,recorded]
        by_cases keyed : emission.name = name ∧ emission.faceId = face
        · obtain ⟨rfl,rfl⟩ := keyed
          rw [if_pos ⟨rfl,rfl⟩,onKey,onKey,List.filter_cons,if_pos (by simp),recordsAfter,recordsAfter,
            List.foldlM_cons,stepped]
          rfl
        · rw [if_neg keyed,onKey,onKey,List.filter_cons,if_neg (by simpa using keyed)])
      (by
        intro other inside isRecord
        rw [stays]
        exact present other (List.mem_cons_of_mem _ inside) isRecord)
    refine ⟨final,?_,tree ∘ keepsTree,fun name => (shape name).trans (keepsShape name),records⟩
    rw [Rib.modifyInheritedRoutes,List.foldlM_cons,applied]
    exact rest

/-- Whatever is recorded, the tree, the routes and their counts stay. -/
theorem modifyInheritedRoute_keeps {rib changed : Rib} {emission : Emission}
    (applied : rib.modifyInheritedRoute emission = some changed) :
    (rib.Tree → changed.Tree) ∧ ∀ name, changed.shape name = rib.shape name := by
  cases emission with
  | addNextHop name faceId cost =>
    rw [← Option.some.inj applied]
    exact ⟨id,fun _ => rfl⟩
  | removeNextHop name faceId =>
    rw [← Option.some.inj applied]
    exact ⟨id,fun _ => rfl⟩
  | addInheritedRoute name route =>
    unfold Rib.modifyInheritedRoute at applied
    dsimp only at applied
    split at applied
    · rw [← Option.some.inj applied]
      obtain ⟨tree,shape,-⟩ := modify_inherited rib name fun routes => routes ++ [route]
      exact ⟨tree,shape⟩
    · cases applied
  | removeInheritedRoute name route =>
    unfold Rib.modifyInheritedRoute at applied
    dsimp only at applied
    split at applied
    · cases applied
    · split at applied
      · rw [← Option.some.inj applied]
        obtain ⟨tree,shape,-⟩ := modify_inherited rib name fun routes =>
          routes.eraseP fun other => other.faceId == route.faceId
        exact ⟨tree,shape⟩
      · cases applied

theorem modifyInheritedRoutes_keeps {rib changed : Rib} {emissions : List Emission}
    (applied : rib.modifyInheritedRoutes emissions = some changed) :
    (rib.Tree → changed.Tree) ∧ ∀ name, changed.shape name = rib.shape name := by
  induction emissions generalizing rib with
  | nil =>
    rw [← Option.some.inj applied]
    exact ⟨id,fun _ => rfl⟩
  | cons emission emissions ih =>
    rw [Rib.modifyInheritedRoutes,List.foldlM_cons] at applied
    obtain ⟨next,first,rest⟩ := Option.bind_eq_some_iff.mp applied
    obtain ⟨keepsTree,keepsShape⟩ := modifyInheritedRoute_keeps first
    obtain ⟨tree,shape⟩ := ih rest
    exact ⟨tree ∘ keepsTree,fun name => (shape name).trans (keepsShape name)⟩

/-! What is emitted for an entry that a descent reaches. -/

theorem hopAfter_removeInheritedRoutes (entry : RibEntry) (route : Route) (hop : Option Nat) :
    hopAfter (removeInheritedRoutes entry [route]) hop = if entry.hasInheritedRoute route then none else hop := by
  rw [removeInheritedRoutes,List.flatMap_singleton]
  split <;> rfl

theorem hopAfter_addInheritedRoutes (entry : RibEntry) {routes : List Route} {face : Nat}
    (faces : ∀ route ∈ routes, route.faceId = face) (hop : Option Nat) :
    hopAfter (addInheritedRoutes entry routes) hop =
      if entry.hasFaceId face then hop
      else match routes.getLast? with
        | none => hop
        | some route => some route.cost := by
  induction routes using List.reverseRecOn with
  | nil =>
    split <;> rfl
  | append_singleton routes route ih =>
    have joined : addInheritedRoutes entry (routes ++ [route]) =
        addInheritedRoutes entry routes ++ addInheritedRoutes entry [route] := List.flatMap_append
    rw [joined,hopAfter_append,ih fun other inside => faces other (List.mem_append_left _ inside),
      List.getLast?_append,addInheritedRoutes,List.flatMap_singleton,
      faces route (List.mem_append_right _ List.mem_cons_self)]
    split <;> rfl

private theorem recordsAfter_removeInheritedRoutes {rib : Rib} {name : Name} {entry : RibEntry}
    (found : rib.find name = some entry) (route : Route) :
    recordsAfter (removeInheritedRoutes entry [route]) (rib.records name route.faceId) =
      some (rib.records name route.faceId - 1) := by
  rw [removeInheritedRoutes,List.flatMap_singleton]
  by_cases held : entry.hasInheritedRoute route = true
  · have some_left := (hasInheritedRoute_iff found route).mp held
    rw [if_pos held]
    simp [recordsAfter,recordStep,Nat.ne_of_gt some_left]
  · have nothing : rib.records name route.faceId = 0 := by
      have not_pos := mt (hasInheritedRoute_iff found route).mpr held
      omega
    rw [if_neg held,nothing]
    rfl

theorem recordsAfter_removed {rib : Rib} {name : Name} {entry : RibEntry} (found : rib.find name = some entry)
    {removed : Option Route} {face : Nat} (named : ∀ route, removed = some route → route.faceId = face) :
    recordsAfter (removeInheritedRoutes entry removed.toList) (rib.records name face) =
      some (rib.records name face - if removed.isSome then 1 else 0) := by
  cases removed with
  | none => rfl
  | some route =>
    have step := recordsAfter_removeInheritedRoutes found route
    rw [named route rfl] at step
    exact step

theorem recordsAfter_addInheritedRoutes (entry : RibEntry) {routes : List Route} {face : Nat}
    (faces : ∀ route ∈ routes, route.faceId = face) (records : Nat) :
    recordsAfter (addInheritedRoutes entry routes) records =
      some (if entry.hasFaceId face then records else records + routes.length) := by
  induction routes generalizing records with
  | nil =>
    split <;> rfl
  | cons route routes ih =>
    have joined : addInheritedRoutes entry (route :: routes) =
        addInheritedRoutes entry [route] ++ addInheritedRoutes entry routes := by
      rw [addInheritedRoutes,List.flatMap_cons,addInheritedRoutes,List.flatMap_singleton]
      rfl
    rw [joined,recordsAfter_append,addInheritedRoutes,List.flatMap_singleton,faces route List.mem_cons_self]
    have rest := fun records => ih (fun other inside => faces other (List.mem_cons_of_mem _ inside)) records
    by_cases own : entry.hasFaceId face = true
    · rw [if_pos own,recordsAfter_nil,Option.bind_some,rest,if_pos own,if_pos own]
    · have one : recordsAfter [Emission.addInheritedRoute entry.name route,.addNextHop entry.name face route.cost]
          records = some (records + 1) := rfl
      rw [if_neg own,one,Option.bind_some,rest,if_neg own,if_neg own,List.length_cons]
      congr 1
      omega

end Ncfcc.Nfd
