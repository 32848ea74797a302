import Ncfcc.Nfd.Rib.Ancestors
import Ncfcc.Nfd.Rib.Consistency
import Ncfcc.Nfd.Rib.RouteCosts

/-! Registering a route: when the emitted updates fit the new content of the RIB. -/
namespace Ncfcc.Nfd
open FibUpdater

theorem oneEach_nil : OneEach [] := List.nodup_nil

theorem oneEach_singleton (route : Route) : OneEach [route] := List.nodup_singleton _

theorem findFace_singleton (route : Route) (face : Nat) :
    findFace [route] face = if route.faceId = face then some route else none := by
  by_cases same : route.faceId = face
  · simp [findFace,same]
  · simp [findFace,same]

/-! A route for a name without an entry. -/

section
variable {rib : Rib} {name : Name} {route : Route}

private theorem name_of_addInheritedRoutesOf {routes : List Route} {emission : Emission}
    (inside : emission ∈ addInheritedRoutesOf name routes route) : emission.name = name := by
  obtain ⟨other,-,emitted⟩ := List.mem_flatMap.mp inside
  split at emitted
  · cases emitted
  · simp only [List.mem_cons,List.not_mem_nil,or_false] at emitted
    rcases emitted with rfl | rfl <;> rfl

private theorem onKey_addInheritedRoutesOf {routes : List Route} (unique : OneEach routes) (face : Nat) :
    onKey (addInheritedRoutesOf name routes route) name face =
      addInheritedRoutesOf name (findFace routes face).toList route := by
  apply onKey_routes unique
  intro other emission inside
  split at inside
  · cases inside
  · simp only [List.mem_cons,List.not_mem_nil,or_false] at inside
    rcases inside with rfl | rfl <;> exact ⟨rfl,rfl⟩

def newEntryOwn (name : Name) (route : Route) (ancestors : List Route) : List Emission :=
  .addNextHop name route.faceId route.cost :: if route.capture then [] else addInheritedRoutesOf name ancestors route

def newEntryAdds (route : Route) (ancestors : List Route) : List Route :=
  if route.childInherit then
    if route.capture then [route] else insertRoute (ancestors.filter fun other => other.faceId ≠ route.faceId) route
  else []

def newEntryRemoves (route : Route) (ancestors : List Route) : List Route := if route.capture then ancestors else []

private theorem newEntry_eq (children : List Name) :
    createFibUpdatesForNewRibEntry rib name route children =
      newEntryOwn name route (rib.getAncestorRoutesOf name) ++
        if route.childInherit || route.capture then
          modifyChildrensInheritedRoutes rib children (newEntryAdds route (rib.getAncestorRoutesOf name))
            (newEntryRemoves route (rib.getAncestorRoutesOf name))
        else [] := by
  unfold createFibUpdatesForNewRibEntry newEntryAdds newEntryRemoves newEntryOwn
  cases route.childInherit <;> cases route.capture <;> simp

theorem newEntry_emissions (tree : rib.Tree) (counted : Counted rib) {children : List Name}
    (below : ChildrenOf rib name children) :
    Spreads rib name (createFibUpdatesForNewRibEntry rib name route children)
        (findFace (newEntryRemoves route (rib.getAncestorRoutesOf name)))
        (fun face => (findFace (newEntryAdds route (rib.getAncestorRoutesOf name)) face).toList) ∧
      ∀ face, onKey (createFibUpdatesForNewRibEntry rib name route children) name face =
        onKey (newEntryOwn name route (rib.getAncestorRoutesOf name)) name face := by
  rw [newEntry_eq]
  have sorted := (getAncestorRoutesOf_spec tree counted name).sorted
  generalize rib.getAncestorRoutesOf name = ancestors at sorted ⊢
  have own : ∀ emission ∈ newEntryOwn name route ancestors, emission.name = name := by
    intro emission inside
    rcases List.mem_cons.mp inside with rfl | later
    · rfl
    · split at later
      · cases later
      · exact name_of_addInheritedRoutesOf later
  have oneAdd : OneEach (newEntryAdds route ancestors) := by
    unfold newEntryAdds
    split
    · split
      · exact oneEach_singleton route
      · exact ((sorted.filter fun other => other.faceId ≠ route.faceId).insertRoute route).oneEach
    · exact oneEach_nil
  have oneRemove : OneEach (newEntryRemoves route ancestors) := by
    unfold newEntryRemoves
    split
    · exact sorted.oneEach
    · exact oneEach_nil
  by_cases descends : (route.childInherit || route.capture) = true
  · rw [if_pos descends]
    refine ⟨(modifyChildrens_spreads tree counted below oneAdd oneRemove).after_own own,?_⟩
    intro face
    rw [onKey_append,onKey_modifyChildrens tree counted below oneAdd oneRemove,List.append_nil]
  · obtain ⟨keeps,free⟩ := Bool.or_eq_false_iff.mp (Bool.eq_false_iff.mpr descends)
    rw [if_neg descends,List.append_nil,newEntryAdds,newEntryRemoves,keeps,free]
    exact ⟨spreads_own own,fun _ => rfl⟩

private theorem onKey_newEntryOwn {ancestors : List Route} (unique : OneEach ancestors) (face : Nat) :
    onKey (newEntryOwn name route ancestors) name face =
      (if route.faceId = face then [.addNextHop name face route.cost] else []) ++
        if route.capture then [] else addInheritedRoutesOf name (findFace ancestors face).toList route := by
  have divided : newEntryOwn name route ancestors = [.addNextHop name route.faceId route.cost] ++
      if route.capture then [] else addInheritedRoutesOf name ancestors route := rfl
  rw [divided,onKey_append]
  congr 1
  · by_cases same : route.faceId = face
    · rw [if_pos same,same]
      simp [onKey,Emission.name,Emission.faceId]
    · rw [if_neg same]
      simp [onKey,Emission.name,Emission.faceId,same]
  · split
    · rfl
    · exact onKey_addInheritedRoutesOf unique face

private theorem hopAfter_newEntryOwn {ancestors : List Route} (unique : OneEach ancestors) (face : Nat) :
    hopAfter (onKey (newEntryOwn name route ancestors) name face) none =
      if route.faceId = face then some route.cost
      else if route.capture then none else (findFace ancestors face).map Route.cost := by
  rw [onKey_newEntryOwn unique]
  by_cases same : route.faceId = face
  · rw [if_pos same,if_pos same]
    cases route.capture with
    | true => rfl
    | false =>
      cases found : findFace ancestors face with
      | none => rfl
      | some other =>
        have named := (findFace_some found).2
        simp [addInheritedRoutesOf,named,same,hopAfter]
  · rw [if_neg same,if_neg same]
    cases route.capture with
    | true => rfl
    | false =>
      cases found : findFace ancestors face with
      | none => rfl
      | some other =>
        have named := (findFace_some found).2
        simp [addInheritedRoutesOf,named,Ne.symm same,hopAfter]

theorem recordsAfter_newEntryOwn {ancestors : List Route} (unique : OneEach ancestors) (face : Nat) :
    recordsAfter (onKey (newEntryOwn name route ancestors) name face) 0 =
      some (if route.faceId = face ∨ route.capture then 0 else (findFace ancestors face).toList.length) := by
  rw [onKey_newEntryOwn unique]
  by_cases same : route.faceId = face
  · rw [if_pos same,if_pos (Or.inl same)]
    cases route.capture with
    | true => rfl
    | false =>
      cases found : findFace ancestors face with
      | none => rfl
      | some other =>
        have named := (findFace_some found).2
        simp [addInheritedRoutesOf,named,same,recordsAfter,recordStep]
  · rw [if_neg same]
    cases route.capture with
    | true => rw [if_pos (Or.inr rfl)]; rfl
    | false =>
      have neither : ¬(route.faceId = face ∨ false = true) := by simpa using same
      rw [if_neg neither]
      cases found : findFace ancestors face with
      | none => rfl
      | some other =>
        have named := (findFace_some found).2
        simp [addInheritedRoutesOf,named,Ne.symm same,recordsAfter,recordStep]

/-- When a first route for a name is passed on as it should be: the routes from above are taken over at
the cost that the entries above pass on, and a capturing route finds no leftover inherited routes below. -/
structure NewEntryOk (rib : Rib) (name : Name) (route : Route) (face : Nat) : Prop where
  listed : face ≠ route.faceId → route.capture = false → ListedFirst rib.content name face
  clear : route.capture = true → rib.content.inherited face name ≠ none → NoLeftover rib name face

theorem findFace_newEntryAdds {ancestors : List Route} (sorted : Sorted ancestors) (face : Nat) :
    findFace (newEntryAdds route ancestors) face =
      if route.childInherit then
        if route.faceId = face then some route else if route.capture then none else findFace ancestors face
      else none := by
  unfold newEntryAdds
  split
  · split
    · exact findFace_singleton route face
    · have kept := findFace_filter ancestors (fun other => decide (other ≠ route.faceId)) face
      rw [findFace_insertRoute (sorted.filter _),kept]
      by_cases same : route.faceId = face
      · simp [same]
      · simp [same,Ne.symm same]
  · rfl

theorem findFace_newEntryRemoves (ancestors : List Route) (face : Nat) :
    findFace (newEntryRemoves route ancestors) face = if route.capture then findFace ancestors face else none := by
  unfold newEntryRemoves
  split <;> rfl

private theorem newEntry_handed {ancestors : List Route} (collected : AncestorsOf rib.content name ancestors)
    {changed : Content} (absent : rib.content name = none) (agree : Content.AgreeOff rib.content changed name)
    (stored : changed name = some [route]) {face : Nat} (ok : NewEntryOk rib name route face) :
    Handed (findFace (newEntryRemoves route ancestors) face) (findFace (newEntryAdds route ancestors) face).toList
      (rib.content.offer face name) (changed.offer face name) := by
  have passed : passedCost [route] face =
      if route.faceId = face ∧ route.childInherit then some route.cost else none := passedCost_cons ..
  have caught : captures [route] = route.capture := by rw [captures_cons]; exact Bool.or_false _
  rw [offer_of_absent absent,handed_iff,findFace_newEntryAdds collected.sorted,findFace_newEntryRemoves]
  by_cases own : route.faceId = face ∧ route.childInherit = true
  · rw [if_pos own] at passed
    rw [offer_of_passed stored passed,if_pos own.2,if_pos own.1]
    simp
  · rw [if_neg own] at passed
    cases stops : route.capture with
    | true =>
      rw [offer_of_captures stored passed (caught.trans stops)]
      refine ⟨?_,fun _ _ => rfl,fun _ removed => ((collected.absent face).mp removed).symm⟩
      intro other added
      split at added
      · rename_i passes
        rw [if_neg fun same => own ⟨same,passes⟩] at added
        cases added
      · cases added
    | false =>
      rw [offer_of_inherited stored passed (caught.trans stops),inherited_self agree]
      refine ⟨?_,fun _ removed => absurd rfl removed,fun _ _ => rfl⟩
      intro other added
      split at added
      · rename_i passes
        have different : route.faceId ≠ face := fun same => own ⟨same,passes⟩
        rw [if_neg different] at added
        have cost := collected.cost face (ok.listed (Ne.symm different) stops)
        rw [← cost,show findFace ancestors face = some other from added]
        rfl
      · cases added

theorem replaces_absent (tree : rib.Tree) (counted : Counted rib) (absent : rib.find name = none) :
    Replaces rib (rib.insert name route) name (some [route]) := by
  have missing := Rib.core_of_absent absent
  have stored : (rib.insert name route).core name = some ([route],[],if route.capture then 1 else 0) := by
    rw [Rib.insert_core tree,if_pos rfl,missing]
  have others : ∀ other, other ≠ name → (rib.insert name route).core other = rib.core other :=
    fun _ => Rib.insert_core_other tree route
  refine ⟨Rib.insert_tree tree name route,?_,agreeOff_core others,kept_core others,?_,?_⟩
  · refine counted_change counted others ?_
    intro routes inherited count held
    rw [stored,Option.some.injEq,Prod.mk.injEq,Prod.mk.injEq] at held
    rw [← held.1,← held.2.2]
    cases stops : route.capture <;> simp [stops]
  · rw [content_core,stored]
    rfl
  · intro _ face
    rw [records_core,records_core,stored,missing]
    rfl

theorem newEntry_fits {state : RibState} (consistent : Consistent state) (absent : state.rib.find name = none)
    {children : List Name} (below : ChildrenOf state.rib name children)
    (ok : ∀ face, face ∉ state.destroyed → NewEntryOk state.rib name route face) :
    ∃ removed added, Fits state name (state.rib.insert name route)
      (createFibUpdatesForNewRibEntry state.rib name route children) removed added state.destroyed := by
  have collected := getAncestorRoutesOf_spec consistent.tree consistent.counted name
  obtain ⟨spreads,own⟩ : _ ∧ ∀ face, onKey (createFibUpdatesForNewRibEntry state.rib name route children) name face = _ :=
    newEntry_emissions consistent.tree consistent.counted below
  have nothing : state.rib.content name = none := by
    rw [Rib.content,absent]
    rfl
  have replaces : Replaces state.rib (state.rib.insert name route) name (some [route]) :=
    replaces_absent consistent.tree consistent.counted absent
  have agree := replaces.agree
  have content := replaces.content
  refine ⟨_,_,replaces.tree,replaces.counted,agree,replaces.kept,fun _ live => live,spreads,?_,?_,?_,?_,?_⟩
  · intro face live
    exact newEntry_handed collected nothing agree content (ok face live)
  · intro face live removed
    rw [findFace_newEntryRemoves] at removed
    split at removed
    · rename_i stops
      refine (ok face live).clear stops ?_
      rw [Ne,← collected.absent face]
      exact Option.isSome_iff_ne_none.mp removed
    · cases removed
  · intro face live
    have before : state.rib.content.nextHop face name = none := by rw [Content.nextHop,nothing]
    have ownCosts : ownCost [route] face = if route.faceId = face then some route.cost else none := ownCost_cons ..
    have caught : captures [route] = route.capture := by rw [captures_cons]; exact Bool.or_false _
    rw [own,before,hopAfter_newEntryOwn collected.sorted.oneEach]
    by_cases same : route.faceId = face
    · rw [if_pos same] at ownCosts
      rw [if_pos same,nextHop_of_own content ownCosts]
    · rw [if_neg same] at ownCosts
      rw [if_neg same]
      cases stops : route.capture with
      | true => rw [nextHop_of_captures content ownCosts (caught.trans stops)]; rfl
      | false =>
        rw [nextHop_of_inherited content ownCosts (caught.trans stops),inherited_self agree]
        exact collected.cost face ((ok face live).listed (Ne.symm same) stops)
  · intro face
    have start : (state.rib.insert name route).records name face = 0 := by
      rw [replaces.records (Option.some_ne_none _),Rib.records,absent]
    rw [own,start,recordsAfter_newEntryOwn collected.sorted.oneEach]
    refine ⟨_,rfl,?_⟩
    rintro live ⟨⟨routes,held,free,without⟩,offered⟩
    rw [content,Option.some.injEq] at held
    rw [← held] at free without
    have different : route.faceId ≠ face := by
      intro same
      rw [ownCost_cons,if_pos same] at without
      cases without
    have neither : ¬(route.faceId = face ∨ route.capture = true) := by
      rw [captures_cons,Bool.or_eq_false_iff] at free
      rw [free.1]
      simpa using different
    rw [if_neg neither]
    rw [inherited_self agree,Ne,← collected.absent face] at offered
    obtain ⟨other,found⟩ := Option.ne_none_iff_exists'.mp offered
    rw [found]
    exact Nat.zero_lt_one
  · intro gone
    rw [content] at gone
    cases gone

end

/-! A further route for an entry. -/

def AtMost (cost : Nat) (other : Option Nat) : Prop := ∀ least, other = some least → cost ≤ least

instance (cost : Nat) (other : Option Nat) : Decidable (AtMost cost other) :=
  decidable_of_iff (other.all fun least => cost ≤ least) (by cases other <;> simp [AtMost])

section
variable {rib : Rib} {name : Name} {entry : RibEntry} {route : Route}

private theorem elim_min_of_atMost {cost : Nat} {other : Option Nat} (least : AtMost cost other) :
    other.elim cost (min cost) = cost := by
  cases other with
  | none => rfl
  | some old => exact Nat.min_eq_left (least old rfl)

private theorem elim_min_of_not_atMost {cost : Nat} {other : Option Nat} (above : ¬AtMost cost other) :
    some (other.elim cost (min cost)) = other := by
  cases other with
  | none => exact absurd (fun least impossible => by cases impossible) above
  | some old =>
    have less : old < cost := by
      by_contra more
      refine above ?_
      intro least same
      rw [Option.some.injEq] at same
      omega
    exact congrArg some (Nat.min_eq_right less.le)

private def newRouteAdds (entry : RibEntry) (route : Route) : List Route :=
  if route.childInherit ∧ AtMost route.cost (passedCost entry.routes route.faceId) then [route] else []

private def newRouteHop (entry : RibEntry) (route : Route) : List Emission :=
  if AtMost route.cost (ownCost entry.routes route.faceId) then [.addNextHop entry.name route.faceId route.cost] else []

private theorem newRoute_eq (captureWasTurnedOn : Bool) :
    createFibUpdatesForNewRoute rib entry route captureWasTurnedOn =
      removeInheritedRoutes entry (if captureWasTurnedOn then rib.getAncestorRoutes entry else []) ++
        modifyChildrensInheritedRoutes rib entry.children (newRouteAdds entry route)
          (if captureWasTurnedOn then rib.getAncestorRoutes entry else []) ++
        newRouteHop entry route := by
  unfold createFibUpdatesForNewRoute newRouteAdds newRouteHop
  rcases lowestPassed_cases entry route.faceId with ⟨passed,leastPassed⟩ | ⟨other,passed,-,leastPassed⟩ <;>
    rcases lowestOnFace_cases entry route.faceId with ⟨found,least⟩ | ⟨own,found,least⟩ <;>
    rw [passed,leastPassed,found,least] <;>
    cases route.childInherit <;> simp [AtMost]

private theorem oneEach_newRouteAdds (entry : RibEntry) (route : Route) : OneEach (newRouteAdds entry route) := by
  unfold newRouteAdds
  split
  · exact oneEach_singleton route
  · exact oneEach_nil

private theorem onKey_newRouteHop (named : entry.name = name) (face : Nat) :
    onKey (newRouteHop entry route) name face =
      if route.faceId = face ∧ AtMost route.cost (ownCost entry.routes face) then [.addNextHop name face route.cost]
      else [] := by
  unfold newRouteHop
  rw [named]
  by_cases same : route.faceId = face
  · rw [← same]
    by_cases least : AtMost route.cost (ownCost entry.routes route.faceId)
    · rw [if_pos least,if_pos ⟨rfl,least⟩]
      simp [onKey,Emission.name,Emission.faceId]
    · have neither : ¬(route.faceId = route.faceId ∧ AtMost route.cost (ownCost entry.routes route.faceId)) :=
        fun both => least both.2
      rw [if_neg least,if_neg neither]
      rfl
  · have neither : ¬(route.faceId = face ∧ AtMost route.cost (ownCost entry.routes face)) := fun both => same both.1
    rw [if_neg neither]
    split
    · simp [onKey,Emission.name,Emission.faceId,same]
    · rfl

theorem newRoute_emissions (tree : rib.Tree) (counted : Counted rib) (named : entry.name = name)
    (below : ChildrenOf rib name entry.children) (captureWasTurnedOn : Bool)
    (unique : OneEach (rib.getAncestorRoutes entry)) :
    Spreads rib name (createFibUpdatesForNewRoute rib entry route captureWasTurnedOn)
        (fun face => if captureWasTurnedOn then findFace (rib.getAncestorRoutes entry) face else none)
        (fun face => (if route.faceId = face ∧ route.childInherit ∧ AtMost route.cost (passedCost entry.routes face)
          then some route else none).toList) ∧
      ∀ face, onKey (createFibUpdatesForNewRoute rib entry route captureWasTurnedOn) name face =
        removeInheritedRoutes entry
          (if captureWasTurnedOn then findFace (rib.getAncestorRoutes entry) face else none).toList ++
        if route.faceId = face ∧ AtMost route.cost (ownCost entry.routes face) then [.addNextHop name face route.cost]
        else [] := by
  have oneRemove : OneEach (if captureWasTurnedOn then rib.getAncestorRoutes entry else []) := by
    split
    · exact unique
    · exact oneEach_nil
  have removed : ∀ face, findFace (if captureWasTurnedOn then rib.getAncestorRoutes entry else []) face =
      if captureWasTurnedOn then findFace (rib.getAncestorRoutes entry) face else none := by
    intro face
    split <;> rfl
  have added : ∀ face, findFace (newRouteAdds entry route) face =
      if route.faceId = face ∧ route.childInherit ∧ AtMost route.cost (passedCost entry.routes face)
      then some route else none := by
    intro face
    unfold newRouteAdds
    by_cases same : route.faceId = face
    · rw [← same]
      split
      · rename_i both
        rw [findFace_singleton,if_pos rfl,if_pos ⟨rfl,both⟩]
      · rename_i unmet
        have neither : ¬(route.faceId = route.faceId ∧ route.childInherit ∧
            AtMost route.cost (passedCost entry.routes route.faceId)) := fun all => unmet all.2
        rw [if_neg neither]
        rfl
    · have neither : ¬(route.faceId = face ∧ route.childInherit ∧
          AtMost route.cost (passedCost entry.routes face)) := fun all => same all.1
      rw [if_neg neither]
      split
      · rw [findFace_singleton,if_neg same]
      · rfl
  rw [newRoute_eq]
  constructor
  · have spreads := modifyChildrens_spreads tree counted below (oneEach_newRouteAdds entry route) oneRemove
    simp only [added] at spreads
    rw [funext removed] at spreads
    refine (spreads.after_own ?_).before_own ?_
    · intro emission inside
      exact (name_of_removeInheritedRoutes inside).trans named
    · intro emission inside
      unfold newRouteHop at inside
      split at inside
      · rw [List.mem_singleton.mp inside]
        exact named
      · cases inside
  · intro face
    rw [onKey_append,onKey_append,onKey_modifyChildrens tree counted below (oneEach_newRouteAdds entry route) oneRemove,
      List.append_nil,onKey_newRouteHop named,← removed,← onKey_removeInheritedRoutes entry oneRemove,named]

/-- When a further capturing route keeps the routes from above out as it should: nothing that the entry
has or passes on itself on the face is taken away with them. -/
structure NewRouteOk (rib : Rib) (name : Name) (routes : List Route) (route : Route) (face : Nat) : Prop where
  clear : NoLeftover rib name face
  own : ∀ cost, ownCost routes face = some cost → 0 < rib.records name face →
    face = route.faceId ∧ route.cost ≤ cost
  passed : ∀ cost, passedCost routes face = some cost →
    face = route.faceId ∧ route.childInherit = true ∧ route.cost ≤ cost

private theorem newRoute_handed {ancestors : List Route} (collected : AncestorsOf rib.content name ancestors)
    {changed : Content} {routes grown : List Route} (perm : grown.Perm (route :: routes))
    (agree : Content.AgreeOff rib.content changed name) (before : rib.content name = some routes)
    (after : changed name = some grown) {face : Nat}
    (ok : captures routes = false → route.capture = true → rib.content.inherited face name ≠ none →
      NewRouteOk rib name routes route face) :
    Handed (if !captures routes && route.capture then findFace ancestors face else none)
      (if route.faceId = face ∧ route.childInherit ∧ AtMost route.cost (passedCost routes face)
        then some route else none).toList
      (rib.content.offer face name) (changed.offer face name) := by
  have passed : passedCost grown face = if route.faceId = face ∧ route.childInherit
      then some ((passedCost routes face).elim route.cost (min route.cost)) else passedCost routes face :=
    (passedCost_perm perm face).trans (passedCost_cons ..)
  have caught : captures grown = (route.capture || captures routes) := captures_perm perm
  rw [handed_iff]
  by_cases least : route.faceId = face ∧ route.childInherit ∧ AtMost route.cost (passedCost routes face)
  · rw [if_pos least]
    rw [if_pos ⟨least.1,least.2.1⟩,elim_min_of_atMost least.2.2] at passed
    rw [offer_of_passed after passed]
    simp
  · have same : passedCost grown face = passedCost routes face := by
      rw [passed]
      split
      · rename_i both
        exact elim_min_of_not_atMost fun atMost => least ⟨both.1,both.2,atMost⟩
      · rfl
    rw [if_neg least]
    refine ⟨fun other impossible => (Option.some_ne_none other impossible.symm).elim,fun _ => ?_,fun _ => ?_⟩
    · intro removed
      split at removed
      · rename_i turned
        rw [Bool.and_eq_true,Bool.not_eq_true'] at turned
        have offered : rib.content.inherited face name ≠ none := mt (collected.absent face).mpr removed
        have conditions := ok turned.1 turned.2 offered
        refine offer_of_captures after (same.trans ?_) (by rw [caught,turned.2]; rfl)
        by_contra something
        obtain ⟨cost,passes⟩ := Option.ne_none_iff_exists'.mp something
        obtain ⟨here,inherits,atMost⟩ := conditions.passed cost passes
        refine least ⟨here.symm,inherits,?_⟩
        intro other equal
        rw [passes,Option.some.injEq] at equal
        rw [← equal]
        exact atMost
      · exact absurd rfl removed
    · intro kept
      cases passes : passedCost routes face with
      | some cost => rw [offer_of_passed before passes,offer_of_passed after (same.trans passes)]
      | none =>
        have nothing := same.trans passes
        cases stops : captures routes with
        | true =>
          rw [offer_of_captures before passes stops,
            offer_of_captures after nothing (by rw [caught,stops]; exact Bool.or_true _)]
        | false =>
          rw [offer_of_inherited before passes stops]
          cases turned : route.capture with
          | true =>
            rw [stops,turned] at kept
            rw [offer_of_captures after nothing (by rw [caught,turned]; rfl)]
            exact ((collected.absent face).mp kept).symm
          | false =>
            rw [offer_of_inherited after nothing (by rw [caught,turned,stops]; rfl),inherited_self agree]

private theorem newRoute_hop {state : RibState} (consistent : Consistent state) (found : state.rib.find name = some entry)
    {ancestors : List Route} (collected : AncestorsOf state.rib.content name ancestors) {changed : Content}
    {grown : List Route} (perm : grown.Perm (route :: entry.routes))
    (agree : Content.AgreeOff state.rib.content changed name) (after : changed name = some grown) {face : Nat}
    (live : face ∉ state.destroyed)
    (ok : captures entry.routes = false → route.capture = true → state.rib.content.inherited face name ≠ none →
      NewRouteOk state.rib name entry.routes route face) :
    hopAfter (removeInheritedRoutes entry
        (if !captures entry.routes && route.capture then findFace ancestors face else none).toList ++
        if route.faceId = face ∧ AtMost route.cost (ownCost entry.routes face) then [.addNextHop name face route.cost]
        else []) (state.rib.content.nextHop face name) = changed.nextHop face name := by
  have before := content_find found
  have owned : ownCost grown face = if route.faceId = face
      then some ((ownCost entry.routes face).elim route.cost (min route.cost)) else ownCost entry.routes face :=
    (ownCost_perm perm face).trans (ownCost_cons ..)
  have caught : captures grown = (route.capture || captures entry.routes) := captures_perm perm
  rw [hopAfter_append]
  by_cases least : route.faceId = face ∧ AtMost route.cost (ownCost entry.routes face)
  · rw [if_pos least.1,elim_min_of_atMost least.2] at owned
    rw [if_pos least,nextHop_of_own after owned]
    rfl
  · have same : ownCost grown face = ownCost entry.routes face := by
      rw [owned]
      split
      · rename_i here
        exact elim_min_of_not_atMost fun atMost => least ⟨here,atMost⟩
      · rfl
    rw [if_neg least,hopAfter_nil]
    cases removed : (if !captures entry.routes && route.capture then findFace ancestors face else none) with
    | none =>
      rw [Option.toList_none,show removeInheritedRoutes entry [] = [] from rfl,hopAfter_nil]
      cases held : ownCost entry.routes face with
      | some cost => rw [nextHop_of_own before held,nextHop_of_own after (same.trans held)]
      | none =>
        have nothing := same.trans held
        cases stops : captures entry.routes with
        | true =>
          rw [nextHop_of_captures before held stops,
            nextHop_of_captures after nothing (by rw [caught,stops]; exact Bool.or_true _)]
        | false =>
          rw [nextHop_of_inherited before held stops]
          cases turned : route.capture with
          | true =>
            rw [stops,turned] at removed
            rw [nextHop_of_captures after nothing (by rw [caught,turned]; rfl)]
            exact (collected.absent face).mp removed
          | false =>
            rw [nextHop_of_inherited after nothing (by rw [caught,turned,stops]; rfl),inherited_self agree]
    | some other =>
      have turned : (!captures entry.routes && route.capture) = true := by
        by_contra unturned
        rw [if_neg unturned] at removed
        cases removed
      rw [if_pos turned] at removed
      rw [Bool.and_eq_true,Bool.not_eq_true'] at turned
      have named := (findFace_some removed).2
      have offered : state.rib.content.inherited face name ≠ none := by
        rw [Ne,← collected.absent face,removed]
        exact Option.some_ne_none other
      rw [Option.toList_some,hopAfter_removeInheritedRoutes]
      cases held : ownCost entry.routes face with
      | some cost =>
        rw [nextHop_of_own before held,nextHop_of_own after (same.trans held),if_neg]
        rw [hasInheritedRoute_iff found,named]
        intro recorded
        obtain ⟨here,atMost⟩ := (ok turned.1 turned.2 offered).own cost held recorded
        refine least ⟨here.symm,?_⟩
        intro other equal
        rw [held,Option.some.injEq] at equal
        rw [← equal]
        exact atMost
      | none =>
        have recorded := consistent.recorded name face live ⟨⟨entry.routes,before,turned.1,held⟩,offered⟩
        rw [if_pos ((hasInheritedRoute_iff found other).mpr (by rw [named]; exact recorded)),
          nextHop_of_captures after (same.trans held) (by rw [caught,turned.2]; rfl)]

theorem replaces_fresh (tree : rib.Tree) (counted : Counted rib) (found : rib.find name = some entry)
    (fresh : entry.findRoute route = none) :
    Replaces rib (rib.insert name route) name (some (entry.routes ++ [route])) := by
  have held := Rib.core_find found
  have stored : (rib.insert name route).core name = some (entry.routes ++ [route],entry.inheritedRoutes,
      if route.capture then entry.nRoutesWithCaptureSet + 1 else entry.nRoutesWithCaptureSet) := by
    rw [Rib.insert_core tree,if_pos rfl,held]
    dsimp only
    rw [show entry.routes.find? (fun other => other.same route) = none from fresh]
  have others : ∀ other, other ≠ name → (rib.insert name route).core other = rib.core other :=
    fun _ => Rib.insert_core_other tree route
  refine ⟨Rib.insert_tree tree name route,?_,agreeOff_core others,kept_core others,?_,?_⟩
  · refine counted_change counted others ?_
    intro routes inherited count same
    rw [stored,Option.some.injEq,Prod.mk.injEq,Prod.mk.injEq] at same
    rw [← same.1,← same.2.2,counted name entry found,List.countP_append,List.countP_singleton]
    cases route.capture <;> rfl
  · rw [content_core,stored]
    rfl
  · intro _ face
    rw [records_core,records_core,stored,held]
    rfl

theorem recordsAfter_newRoute (found : rib.find name = some entry) (turnedOn : Bool) (ancestors : List Route)
    (face : Nat) :
    recordsAfter (removeInheritedRoutes entry (if turnedOn then findFace ancestors face else none).toList ++
        if route.faceId = face ∧ AtMost route.cost (ownCost entry.routes face)
        then [.addNextHop name face route.cost] else []) (rib.records name face) =
      some (rib.records name face - if turnedOn ∧ (findFace ancestors face).isSome then 1 else 0) := by
  have hops : ∀ count, recordsAfter (if route.faceId = face ∧ AtMost route.cost (ownCost entry.routes face)
      then [.addNextHop name face route.cost] else []) count = some count := by
    intro count
    split <;> rfl
  have named : ∀ other, (if turnedOn then findFace ancestors face else none) = some other → other.faceId = face := by
    intro other taken
    split at taken
    · exact (findFace_some taken).2
    · cases taken
  rw [recordsAfter_append,recordsAfter_removed found named,Option.bind_some,hops]
  cases turnedOn with
  | false => simp
  | true => simp

theorem newRoute_fits {state : RibState} (consistent : Consistent state) (found : state.rib.find name = some entry)
    (fresh : entry.findRoute route = none)
    (ok : ∀ face, face ∉ state.destroyed → captures entry.routes = false → route.capture = true →
      state.rib.content.inherited face name ≠ none → NewRouteOk state.rib name entry.routes route face) :
    ∃ removed added, Fits state name (state.rib.insert name route)
      (createFibUpdatesForNewRoute state.rib entry route (!entry.hasCapture && route.capture))
      removed added state.destroyed := by
  have collected := getAncestorRoutes_spec consistent.tree consistent.counted found
  have unique := collected.sorted.oneEach
  have before := content_find found
  have replaces := replaces_fresh consistent.tree consistent.counted found fresh
  have agree := replaces.agree
  have after := replaces.content
  have records := replaces.records (Option.some_ne_none _)
  have perm : (entry.routes ++ [route]).Perm (route :: entry.routes) := List.perm_append_singleton route entry.routes
  have caught : captures (entry.routes ++ [route]) = (route.capture || captures entry.routes) := captures_perm perm
  rw [hasCapture_eq consistent.counted found]
  obtain ⟨spreads,own⟩ : _ ∧ ∀ face, onKey (createFibUpdatesForNewRoute state.rib entry route
      (!captures entry.routes && route.capture)) name face = _ :=
    newRoute_emissions consistent.tree consistent.counted (Rib.find_name found) (childrenOf_entry consistent.tree found)
      (!captures entry.routes && route.capture) unique
  refine ⟨_,_,replaces.tree,replaces.counted,agree,replaces.kept,fun _ live => live,spreads,?_,?_,?_,?_,?_⟩
  · intro face live
    exact newRoute_handed collected perm agree before after (ok face live)
  · intro face live removed
    split at removed
    · rename_i turned
      rw [Bool.and_eq_true,Bool.not_eq_true'] at turned
      have offered := mt (collected.absent face).mpr (Option.isSome_iff_ne_none.mp removed)
      exact (ok face live turned.1 turned.2 offered).clear
    · cases removed
  · intro face live
    rw [own]
    exact newRoute_hop consistent found collected perm agree after live (ok face live)
  · intro face
    rw [own,records,recordsAfter_newRoute found]
    refine ⟨_,rfl,?_⟩
    rintro live ⟨⟨routes,same,free,without⟩,offered⟩
    rw [after,Option.some.injEq] at same
    rw [← same,caught,Bool.or_eq_false_iff] at free
    rw [← same,ownCost_perm perm,ownCost_cons] at without
    rw [free.1,Bool.and_false,if_neg (fun both => Bool.noConfusion both.1),Nat.sub_zero]
    split at without
    · cases without
    · exact consistent.recorded name face live
        ⟨⟨entry.routes,before,free.2,without⟩,by rw [← inherited_self agree]; exact offered⟩
  · intro gone
    rw [after] at gone
    cases gone

end

/-! Other values for a route that the entry has. -/

/-- When new values for a route are taken over as they should be: the capture flag stays, the route
that takes over as the cheapest is passed on, and so is one that becomes the cheapest passed on; and
where the route is no longer passed on, what takes its place below is what the entry passes on. -/
structure UpdatedRouteOk (rib : Rib) (name : Name) (updated : List Route) (route existing : Route) (live : Prop) :
    Prop where
  capture : route.capture = existing.capture
  replaced : ∀ own, ownCost updated route.faceId = some own → own < route.cost → existing.cost < own →
    passedCost updated route.faceId = some own
  passed : live → existing.childInherit = true → route.childInherit = true →
    ∀ cost, passedCost updated route.faceId = some cost → cost < route.cost → cost ≤ existing.cost
  dropped : live → existing.childInherit = true → route.childInherit = false →
    NoLeftover rib name route.faceId ∧ (passedCost updated route.faceId = none →
      rib.content.inherited route.faceId name ≠ none →
        captures updated = false ∧ ListedFirst rib.content name route.faceId)

/-- A change of the entry that the names below it are told of. -/
structure Told (rib : Rib) (name : Name) (emissions : List Emission) (changed : Content)
    (removed : Nat → Option Route) (added : Nat → List Route) (destroyed : List Nat) : Prop where
  spreads : Spreads rib name emissions removed added
  own : ∀ face, onKey emissions name face = []
  handed : ∀ face, face ∉ destroyed → Handed (removed face) (added face) (rib.content.offer face name)
    (changed.offer face name)
  noLeftover : ∀ face, face ∉ destroyed → (removed face).isSome → NoLeftover rib name face

section
variable {rib : Rib} {name : Name} {entry : RibEntry} {route existing : Route} {rest updated : List Route}

private theorem isLowestForChildren_iff : isLowestForChildren entry route = true ↔
    AtMost route.cost (passedCost entry.routes route.faceId) := by
  unfold isLowestForChildren
  rcases lowestPassed_cases entry route.faceId with ⟨found,least⟩ | ⟨other,found,-,least⟩
  · rw [found,least]
    simp [AtMost]
  · rw [found,least]
    simp [AtMost]

private theorem told_nothing {changed : Content} {destroyed : List Nat}
    (same : ∀ face, face ∉ destroyed → changed.offer face name = rib.content.offer face name) :
    Told rib name [] changed (fun _ => none) (fun _ => []) destroyed := by
  refine ⟨spreads_own (fun _ inside => absurd inside List.not_mem_nil),fun _ => rfl,?_,?_⟩
  · intro face live
    exact same face live
  · intro face live removed
    cases removed

private theorem offer_same {content changed : Content} {before after : List Route} {face : Nat}
    (agree : Content.AgreeOff content changed name) (stored : content name = some before)
    (also : changed name = some after) (passed : passedCost after face = passedCost before face)
    (caught : captures after = captures before) : changed.offer face name = content.offer face name := by
  rw [Content.offer,Content.offer,stored,also]
  dsimp only
  rw [passed,caught,inherited_self agree]

private theorem told_route (tree : rib.Tree) (counted : Counted rib) (found : rib.find name = some entry)
    {changed : Content} {destroyed : List Nat}
    (here : route.faceId ∉ destroyed → changed.offer route.faceId name = some route.cost)
    (away : ∀ face, face ≠ route.faceId → changed.offer face name = rib.content.offer face name) :
    Told rib name (modifyChildrensInheritedRoutes rib entry.children [route] []) changed
      (fun _ => none) (fun face => (findFace [route] face).toList) destroyed := by
  have below := childrenOf_entry tree found
  refine ⟨modifyChildrens_spreads tree counted below (oneEach_singleton route) oneEach_nil,?_,?_,?_⟩
  · exact onKey_modifyChildrens tree counted below (oneEach_singleton route) oneEach_nil
  · intro face live
    rw [findFace_singleton,handed_iff]
    by_cases same : route.faceId = face
    · rw [if_pos same]
      refine ⟨?_,by simp,by simp⟩
      intro other equal
      rw [← Option.some.inj equal,← same]
      exact here (same ▸ live)
    · rw [if_neg same]
      exact ⟨by simp,by simp,fun _ _ => away face (Ne.symm same)⟩
  · intro face _ removed
    cases removed

/-- The children are told what takes the place of a route that is no longer passed on. -/
private theorem told_dropped (tree : rib.Tree) (counted : Counted rib) (found : rib.find name = some entry)
    {changed : Content} {destroyed : List Nat} {added : Option Route}
    (named : ∀ other, added = some other → other.faceId = route.faceId)
    (clear : route.faceId ∉ destroyed → NoLeftover rib name route.faceId)
    (here : route.faceId ∉ destroyed → changed.offer route.faceId name = added.map Route.cost)
    (away : ∀ face, face ≠ route.faceId → changed.offer face name = rib.content.offer face name) :
    Told rib name (modifyChildrensInheritedRoutes rib entry.children added.toList [route]) changed
      (findFace [route]) (fun face => (findFace added.toList face).toList) destroyed := by
  have below := childrenOf_entry tree found
  have oneAdd : OneEach added.toList := by
    cases added with
    | none => exact oneEach_nil
    | some other => exact oneEach_singleton other
  refine ⟨modifyChildrens_spreads tree counted below oneAdd (oneEach_singleton route),?_,?_,?_⟩
  · exact onKey_modifyChildrens tree counted below oneAdd (oneEach_singleton route)
  · intro face live
    rw [findFace_singleton,handed_iff]
    by_cases same : route.faceId = face
    · rw [if_pos same]
      have after := here (same ▸ live)
      rw [same] at after
      cases added with
      | none => exact ⟨by simp [findFace],fun _ _ => after,by simp⟩
      | some other =>
        rw [Option.toList_some,findFace_singleton,if_pos ((named other rfl).trans same)]
        refine ⟨?_,by simp,by simp⟩
        intro equal taken
        rw [← Option.some.inj taken]
        exact after
    · rw [if_neg same]
      have missing : findFace added.toList face = none := by
        cases added with
        | none => rfl
        | some other => rw [Option.toList_some,findFace_singleton,if_neg fun equal => same ((named other rfl).symm.trans equal)]
      rw [missing]
      exact ⟨by simp,by simp,fun _ _ => away face (Ne.symm same)⟩
  · intro face live removed
    rw [findFace_singleton] at removed
    split at removed
    · rename_i same
      rw [← same]
      exact clear (same ▸ live)
    · cases removed

private theorem updatesForCapture_same (same : route.capture = existing.capture) :
    updatesForCapture rib entry route existing = [] := by
  unfold updatesForCapture
  rw [same]
  cases existing.capture <;> rfl

theorem captures_changed {routes : List Route} (old : routes.Perm (existing :: rest)) (new : updated.Perm (route :: rest))
    (capture : route.capture = existing.capture) : captures updated = captures routes := by
  rw [captures_perm old,captures_perm new,captures_cons,captures_cons,capture]

theorem passedCost_changed (new : updated.Perm (route :: rest)) (face : Nat) : passedCost updated face =
    if route.faceId = face ∧ route.childInherit
      then some ((passedCost rest face).elim route.cost (min route.cost)) else passedCost rest face :=
  (passedCost_perm new face).trans (passedCost_cons ..)

theorem passedCost_of_least (new : updated.Perm (route :: rest)) (inherits : route.childInherit = true)
    (least : AtMost route.cost (passedCost updated route.faceId)) :
    passedCost updated route.faceId = some route.cost := by
  have passed := passedCost_changed new route.faceId
  rw [if_pos ⟨rfl,inherits⟩] at passed
  have bound := least _ passed
  rw [passed,Option.some.injEq]
  cases others : passedCost rest route.faceId with
  | none => rfl
  | some cost =>
    rw [others] at bound
    exact Nat.min_eq_left (Nat.le_min.mp bound).2

/-- A route that is not the cheapest passed on leaves the cheapest of the others in place. -/
theorem passedCost_of_beaten (new : updated.Perm (route :: rest)) (inherits : route.childInherit = true)
    (beaten : ¬ AtMost route.cost (passedCost updated route.faceId)) :
    ∃ cost, passedCost rest route.faceId = some cost ∧ cost < route.cost ∧
      passedCost updated route.faceId = some cost := by
  have passed := passedCost_changed new route.faceId
  rw [if_pos ⟨rfl,inherits⟩] at passed
  cases others : passedCost rest route.faceId with
  | none =>
    rw [others] at passed
    refine absurd ?_ beaten
    intro least equal
    rw [passed,Option.some.injEq] at equal
    exact Nat.le_of_eq equal
  | some cost =>
    rw [others] at passed
    have less : cost < route.cost := by
      by_contra more
      refine beaten ?_
      intro least equal
      rw [passed,Option.some.injEq] at equal
      rw [← equal]
      exact Nat.le_min.mpr ⟨Nat.le_refl _,Nat.le_of_not_lt more⟩
    exact ⟨cost,rfl,less,passed.trans (congrArg some (Nat.min_eq_right less.le))⟩

/-- What the names below are told when a route gets other values and keeps its capture flag: nothing,
the route, or what takes its place where it is no longer passed on. -/
theorem updatedRoute_cases (updated : List Route) (capture : route.capture = existing.capture) {told : List Emission}
    (emitted : told = if route.cost ≠ existing.cost && isLowestForChildren {entry with routes := updated} route &&
        (route.childInherit == existing.childInherit && route.capture == existing.capture) && route.childInherit
      then modifyChildrensInheritedRoutes rib entry.children [route] []
      else updatesForChildInherit rib {entry with routes := updated} route existing ++
        updatesForCapture rib {entry with routes := updated} route existing) :
    (told = [] ∧ (existing.childInherit = true → route.childInherit = true) ∧
      (route.childInherit = true → (existing.childInherit = true ∧ route.cost = existing.cost) ∨
        ¬AtMost route.cost (passedCost updated route.faceId))) ∨
    (told = modifyChildrensInheritedRoutes rib entry.children [route] [] ∧ route.childInherit = true ∧
      AtMost route.cost (passedCost updated route.faceId) ∧
      (existing.childInherit = true → route.cost ≠ existing.cost)) ∨
    (existing.childInherit = true ∧ route.childInherit = false ∧ ∃ added : Option Route,
      told = modifyChildrensInheritedRoutes rib entry.children added.toList [route] ∧
      ((∃ previous, added = some previous ∧ previous.faceId = route.faceId ∧
          passedCost updated route.faceId = some previous.cost) ∨
        (passedCost updated route.faceId = none ∧ added = findFace (rib.getAncestorRoutes entry) route.faceId))) := by
  have lowest : isLowestForChildren {entry with routes := updated} route = true ↔
    AtMost route.cost (passedCost updated route.faceId) := isLowestForChildren_iff
  rw [capture,beq_self_eq_true,Bool.and_true,updatesForCapture_same capture,List.append_nil] at emitted
  cases inherits : route.childInherit with
  | false =>
    rw [inherits,Bool.and_false,if_neg Bool.noConfusion] at emitted
    cases inherited : existing.childInherit with
    | false =>
      left
      rw [emitted]
      simp [updatesForChildInherit,inherits,inherited]
    | true =>
      refine Or.inr (Or.inr ⟨rfl,rfl,?_⟩)
      unfold updatesForChildInherit at emitted
      rw [inherits,inherited] at emitted
      rcases lowestPassed_cases {entry with routes := updated} route.faceId with
        ⟨missing,nothing⟩ | ⟨previous,present,named,least⟩
      · rw [missing] at emitted
        exact ⟨_,emitted,Or.inr ⟨nothing,rfl⟩⟩
      · rw [present] at emitted
        exact ⟨some previous,emitted,Or.inl ⟨previous,rfl,named,least⟩⟩
  | true =>
    rw [inherits,Bool.and_true] at emitted
    cases inherited : existing.childInherit with
    | false =>
      rw [inherited] at emitted
      have different : (true == false) = false := rfl
      rw [different,Bool.and_false,if_neg Bool.noConfusion] at emitted
      by_cases least : AtMost route.cost (passedCost updated route.faceId)
      · refine Or.inr (Or.inl ⟨?_,rfl,least,fun impossible => nomatch impossible⟩)
        rw [emitted]
        simp [updatesForChildInherit,inherits,inherited,lowest.mpr least]
      · refine Or.inl ⟨?_,fun _ => rfl,fun _ => Or.inr least⟩
        rw [emitted]
        simp [updatesForChildInherit,inherits,inherited,mt lowest.mp least]
    | true =>
      have nothing : updatesForChildInherit rib {entry with routes := updated} route existing = [] := by
        simp [updatesForChildInherit,inherits,inherited]
      rw [nothing] at emitted
      split at emitted
      · rename_i all
        simp only [Bool.and_eq_true,decide_eq_true_eq] at all
        exact Or.inr (Or.inl ⟨emitted,rfl,lowest.mp all.1.2,fun _ => all.1.1⟩)
      · rename_i missed
        refine Or.inl ⟨emitted,fun _ => rfl,fun _ => ?_⟩
        by_cases same : route.cost = existing.cost
        · exact Or.inl ⟨rfl,same⟩
        · refine Or.inr fun least => missed ?_
          simp [same,inherited,lowest.mpr least]

private theorem updatedRoute_told (tree : rib.Tree) (counted : Counted rib) (found : rib.find name = some entry)
    (old : entry.routes.Perm (existing :: rest)) (new : updated.Perm (route :: rest))
    (face : existing.faceId = route.faceId) {changed : Content} (agree : Content.AgreeOff rib.content changed name)
    (after : changed name = some updated) {destroyed : List Nat}
    (ok : UpdatedRouteOk rib name updated route existing (route.faceId ∉ destroyed)) :
    ∃ removed added, Told rib name
      (if route.cost ≠ existing.cost && isLowestForChildren {entry with routes := updated} route &&
          (route.childInherit == existing.childInherit && route.capture == existing.capture) && route.childInherit
        then modifyChildrensInheritedRoutes rib entry.children [route] []
        else updatesForChildInherit rib {entry with routes := updated} route existing ++
          updatesForCapture rib {entry with routes := updated} route existing) changed removed added destroyed := by
  have before := content_find found
  have collected := getAncestorRoutes_spec tree counted found
  have caught := captures_changed old new ok.capture
  have away : ∀ other, other ≠ route.faceId → changed.offer other name = rib.content.offer other name := by
    intro other different
    refine offer_same agree before after ?_ caught
    rw [passedCost_changed old,passedCost_changed new,if_neg fun both => different both.1.symm,
      if_neg fun both => different (both.1.symm.trans face)]
  have passedOld := passedCost_changed old route.faceId
  have passedNew := passedCost_changed new route.faceId
  rcases updatedRoute_cases updated ok.capture rfl with
    ⟨told,kept,beaten⟩ | ⟨told,inherits,least,-⟩ | ⟨inherited,keeps,added,told,known⟩
  · rw [told]
    refine ⟨_,_,told_nothing ?_⟩
    intro other live
    by_cases own : other = route.faceId
    · rw [own] at live ⊢
      refine offer_same agree before after ?_ caught
      cases inherits : route.childInherit with
      | false =>
        have keeps : existing.childInherit = false := by
          rw [inherits] at kept
          exact Bool.eq_false_iff.mpr fun yes => Bool.noConfusion (kept yes)
        rw [inherits,if_neg (by simp)] at passedNew
        rw [keeps,if_neg (by simp)] at passedOld
        exact passedNew.trans passedOld.symm
      | true =>
        rcases beaten inherits with ⟨inherited,moved⟩ | least
        · rw [if_pos ⟨rfl,inherits⟩,moved] at passedNew
          rw [if_pos ⟨face,inherited⟩] at passedOld
          exact passedNew.trans passedOld.symm
        · obtain ⟨cost,others,less,final⟩ := passedCost_of_beaten new inherits least
          cases inherited : existing.childInherit with
          | false =>
            rw [inherited,if_neg (by simp)] at passedOld
            exact final.trans (passedOld.trans others).symm
          | true =>
            have bound := ok.passed live inherited inherits cost final less
            rw [if_pos ⟨face,inherited⟩,others] at passedOld
            rw [final,passedOld]
            exact congrArg some (Nat.min_eq_right bound).symm
    · exact away other own
  · rw [told]
    exact ⟨_,_,told_route tree counted found (fun _ => offer_of_passed after (passedCost_of_least new inherits least)) away⟩
  · rw [told]
    have conditions := fun live => ok.dropped live inherited keeps
    refine ⟨_,_,told_dropped tree counted found ?_ (fun live => (conditions live).1) ?_ away⟩
    · intro other taken
      rcases known with ⟨previous,only,named,-⟩ | ⟨-,only⟩
      · rw [← Option.some.inj (only.symm.trans taken)]
        exact named
      · exact (findFace_some (only.symm.trans taken)).2
    · intro live
      rcases known with ⟨previous,only,-,passes⟩ | ⟨nothing,only⟩
      · rw [only]
        exact offer_of_passed after passes
      · rw [only]
        by_cases offered : rib.content.inherited route.faceId name = none
        · rw [(collected.absent route.faceId).mpr offered]
          cases stops : captures updated with
          | true => exact offer_of_captures after nothing stops
          | false => exact (offer_of_inherited after nothing stops).trans ((inherited_self agree _).trans offered)
        · obtain ⟨free,first⟩ := (conditions live).2 nothing offered
          rw [offer_of_inherited after nothing free,inherited_self agree,collected.cost route.faceId first]

private theorem updatesForCost_spec (named : entry.name = name) (old : entry.routes.Perm (existing :: rest))
    (new : updated.Perm (route :: rest)) (face : existing.faceId = route.faceId)
    (replaced : ∀ own, ownCost updated route.faceId = some own → own < route.cost → existing.cost < own →
      passedCost updated route.faceId = some own) :
    ∃ own, (if route.cost ≠ existing.cost then updatesForCost {entry with routes := updated} route existing
        else some []) = some own ∧
      (∀ emission ∈ own, emission.name = name ∧ emission.faceId = route.faceId ∧ emission.isRecord = false) ∧
      hopAfter own (ownCost entry.routes route.faceId) = ownCost updated route.faceId := by
  have before : ownCost entry.routes route.faceId =
      some ((ownCost rest route.faceId).elim existing.cost (min existing.cost)) := by
    rw [ownCost_perm old,ownCost_cons,if_pos face]
  have after : ownCost updated route.faceId = some ((ownCost rest route.faceId).elim route.cost (min route.cost)) := by
    rw [ownCost_perm new,ownCost_cons,if_pos rfl]
  by_cases moved : route.cost = existing.cost
  · refine ⟨[],if_neg (not_not.mpr moved),fun _ inside => absurd inside List.not_mem_nil,?_⟩
    rw [hopAfter_nil,before,after,moved]
  · rw [if_pos moved]
    unfold updatesForCost
    rcases lowestOnFace_cases {entry with routes := updated} route.faceId with ⟨-,nothing⟩ | ⟨lowest,found,least⟩
    · rw [show ownCost updated route.faceId = none from nothing] at after
      cases after
    · have least : ownCost updated route.faceId = some lowest.cost := least
      rw [found]
      dsimp only
      by_cases cheapest : route.cost ≤ lowest.cost
      · rw [if_pos cheapest]
        refine ⟨_,rfl,?_,?_⟩
        · intro emission inside
          rw [List.mem_singleton.mp inside]
          exact ⟨named,rfl,rfl⟩
        · have bound : lowest.cost ≤ route.cost := by
            rw [after,Option.some.injEq] at least
            rw [← least]
            cases ownCost rest route.faceId with
            | none => exact Nat.le_refl _
            | some cost => exact Nat.min_le_left _ _
          rw [least]
          exact congrArg some (Nat.le_antisymm cheapest bound)
      · rw [if_neg cheapest]
        by_cases rose : existing.cost < lowest.cost
        · rw [if_pos rose]
          have passed := replaced lowest.cost least (Nat.lt_of_not_le cheapest) rose
          rcases lowestPassed_cases {entry with routes := updated} route.faceId with
            ⟨-,nothing⟩ | ⟨previous,handed,here,cost⟩
          · rw [show passedCost updated route.faceId = none from nothing] at passed
            cases passed
          · rw [handed]
            refine ⟨_,rfl,?_,?_⟩
            · intro emission inside
              rw [List.mem_singleton.mp inside]
              exact ⟨named,here,rfl⟩
            · rw [least,← passed]
              exact cost.symm
        · rw [if_neg rose]
          refine ⟨[],rfl,fun _ inside => absurd inside List.not_mem_nil,?_⟩
          rw [hopAfter_nil,before,after]
          rw [after,Option.some.injEq] at least
          cases others : ownCost rest route.faceId with
          | none =>
            rw [others] at least
            have same : route.cost = lowest.cost := least
            omega
          | some cost =>
            rw [others] at least
            have same : min route.cost cost = lowest.cost := least
            show some (min existing.cost cost) = some (min route.cost cost)
            rw [Option.some.injEq]
            omega

theorem updatedRoute_eq {own : List Emission}
    (costs : (if route.cost ≠ existing.cost then updatesForCost {entry with routes := updated} route existing
      else some []) = some own) :
    createFibUpdatesForUpdatedRoute rib {entry with routes := updated} route existing =
      some (own ++ if route.cost ≠ existing.cost && isLowestForChildren {entry with routes := updated} route &&
          (route.childInherit == existing.childInherit && route.capture == existing.capture) && route.childInherit
        then modifyChildrensInheritedRoutes rib entry.children [route] []
        else updatesForChildInherit rib {entry with routes := updated} route existing ++
          updatesForCapture rib {entry with routes := updated} route existing) := by
  unfold createFibUpdatesForUpdatedRoute
  dsimp only
  by_cases early : (route.childInherit == existing.childInherit && route.capture == existing.capture &&
      route.cost == existing.cost) = true
  · rw [if_pos early]
    simp only [Bool.and_eq_true,beq_iff_eq] at early
    obtain ⟨⟨inherits,stops⟩,moved⟩ := early
    rw [if_neg (not_not.mpr moved),Option.some.injEq] at costs
    rw [← costs,updatesForCapture_same stops,if_neg (by simp [moved])]
    unfold updatesForChildInherit
    rw [inherits]
    cases existing.childInherit <;> rfl
  · rw [if_neg early]
    by_cases moved : route.cost ≠ existing.cost
    · rw [if_pos moved] at costs ⊢
      rw [costs]
      simp only [Option.bind_eq_bind,Option.bind_some]
      split
      · rfl
      · rw [List.append_assoc]
        rfl
    · rw [if_neg moved] at costs ⊢
      rw [← Option.some.inj costs]
      simp only [Option.bind_eq_bind,Option.bind_some]
      split
      · rfl
      · rw [List.append_assoc]
        rfl

theorem replaces_present (tree : rib.Tree) (counted : Counted rib) (found : rib.find name = some entry)
    (present : entry.findRoute route = some existing) (capture : route.capture = existing.capture) :
    Replaces rib (rib.insert name route) name (some (updateRoute entry.routes route)) := by
  have held := Rib.core_find found
  have stored : (rib.insert name route).core name = some (updateRoute entry.routes route,entry.inheritedRoutes,
      entry.nRoutesWithCaptureSet) := by
    rw [Rib.insert_core tree,if_pos rfl,held]
    dsimp only
    rw [show entry.routes.find? (fun other => other.same route) = some existing from present]
  have others : ∀ other, other ≠ name → (rib.insert name route).core other = rib.core other :=
    fun _ => Rib.insert_core_other tree route
  refine ⟨Rib.insert_tree tree name route,?_,agreeOff_core others,kept_core others,?_,?_⟩
  · refine counted_change counted others ?_
    intro routes inherited count equal
    rw [stored,Option.some.injEq,Prod.mk.injEq,Prod.mk.injEq] at equal
    rw [← equal.1,← equal.2.2,counted name entry found,(perm_eraseP present).countP_eq,
      (perm_updateRoute present).countP_eq,List.countP_cons,List.countP_cons,capture]
  · rw [content_core,stored]
    rfl
  · intro _ face
    rw [records_core,records_core,stored,held]
    rfl

theorem updatedRoute_fits {state : RibState} (consistent : Consistent state) (found : state.rib.find name = some entry)
    (present : entry.findRoute route = some existing)
    (ok : UpdatedRouteOk state.rib name (updateRoute entry.routes route) route existing
      (route.faceId ∉ state.destroyed)) :
    ∃ emissions removed added,
      createFibUpdatesForUpdatedRoute state.rib {entry with routes := updateRoute entry.routes route} route existing =
        some emissions ∧
      Fits state name (state.rib.insert name route) emissions removed added state.destroyed := by
  have face := findRoute_face present
  have old : entry.routes.Perm (existing :: entry.routes.eraseP fun other => other.same route) := perm_eraseP present
  have new : (updateRoute entry.routes route).Perm (route :: entry.routes.eraseP fun other => other.same route) :=
    perm_updateRoute present
  have before := content_find found
  have replaces := replaces_present consistent.tree consistent.counted found present ok.capture
  have agree := replaces.agree
  have after := replaces.content
  have records := replaces.records (Option.some_ne_none _)
  have caught := captures_changed old new ok.capture
  obtain ⟨own,costs,keyed,hop⟩ := updatesForCost_spec (Rib.find_name found) old new face ok.replaced
  obtain ⟨removed,added,told⟩ := updatedRoute_told consistent.tree consistent.counted found old new face agree after ok
  refine ⟨_,removed,added,updatedRoute_eq costs,?_⟩
  have onOwn : onKey own name route.faceId = own := by
    apply onKey_of_forall
    intro emission inside
    exact ⟨(keyed emission inside).1,(keyed emission inside).2.1⟩
  have offOwn : ∀ other, other ≠ route.faceId → onKey own name other = [] := by
    intro other different
    apply onKey_of_none
    intro emission inside _ equal
    exact different (equal.symm.trans (keyed emission inside).2.1)
  refine ⟨replaces.tree,replaces.counted,agree,replaces.kept,fun _ live => live,?_,told.handed,told.noLeftover,?_,?_,?_⟩
  · exact told.spreads.after_own fun emission inside => (keyed emission inside).1
  · intro other live
    rw [onKey_append,told.own,List.append_nil]
    by_cases here : other = route.faceId
    · have some_before : ∃ cost, ownCost entry.routes route.faceId = some cost := by
        rw [ownCost_perm old,ownCost_cons,if_pos face]
        exact ⟨_,rfl⟩
      have some_after : ∃ cost, ownCost (updateRoute entry.routes route) route.faceId = some cost := by
        rw [ownCost_perm new,ownCost_cons,if_pos rfl]
        exact ⟨_,rfl⟩
      obtain ⟨cost,costed⟩ := some_before
      obtain ⟨final,finally_cost⟩ := some_after
      rw [costed,finally_cost] at hop
      rw [here,onOwn,nextHop_of_own before costed,nextHop_of_own after finally_cost,hop]
    · have equal : ownCost (updateRoute entry.routes route) other = ownCost entry.routes other := by
        rw [ownCost_perm old,ownCost_perm new,ownCost_cons,ownCost_cons,if_neg (Ne.symm here),
          if_neg fun same => here (same.symm.trans face)]
      rw [offOwn other here,hopAfter_nil,Content.nextHop,Content.nextHop,before,after]
      dsimp only
      rw [equal,caught,inherited_self agree]
  · intro other
    have none_recorded : ∀ emission ∈ onKey own name other, emission.isRecord = false := by
      intro emission inside
      exact (keyed emission (List.mem_of_mem_filter inside)).2.2
    rw [onKey_append,told.own,List.append_nil,records,recordsAfter_of_hops none_recorded]
    refine ⟨_,rfl,?_⟩
    rintro live ⟨⟨routes,equal,free,without⟩,offered⟩
    rw [after,Option.some.injEq] at equal
    rw [← equal] at free without
    have apart : other ≠ route.faceId := by
      intro here
      rw [here,ownCost_perm new,ownCost_cons,if_pos rfl] at without
      cases without
    have without : ownCost entry.routes other = none := by
      rw [ownCost_perm old,ownCost_cons,if_neg fun same => apart (same.symm.trans face)]
      rw [ownCost_perm new,ownCost_cons,if_neg (Ne.symm apart)] at without
      exact without
    exact consistent.recorded name other live
      ⟨⟨entry.routes,before,caught.symm.trans free,without⟩,by rw [← inherited_self agree]; exact offered⟩
  · intro gone
    rw [after] at gone
    cases gone

end

end Ncfcc.Nfd
