import Ncfcc.Nfd.Rib.Registration

/-! Unregistering a route: when the emitted updates fit the new content of the RIB. -/
namespace Ncfcc.Nfd
open FibUpdater

section
variable {rib : Rib} {name : Name} {entry erased : RibEntry} {route existing : Route} {rest : List Route}

structure Erased (rib : Rib) (name : Name) (entry erased : RibEntry) (existing : Route) : Prop where
  found : rib.find name = some entry
  perm : entry.routes.Perm (existing :: erased.routes)
  name : erased.name = name
  parent : erased.parent = entry.parent
  children : erased.children = entry.children
  inheritedRoutes : erased.inheritedRoutes = entry.inheritedRoutes
  counted : erased.nRoutesWithCaptureSet = erased.routes.countP Route.capture

theorem eraseRoute_erased (counted : Counted rib) (found : rib.find name = some entry)
    (present : entry.findRoute route = some existing) : Erased rib name entry (entry.eraseRoute route) existing := by
  have perm : entry.routes.Perm (existing :: entry.routes.eraseP fun other => other.same route) := perm_eraseP present
  have count : entry.nRoutesWithCaptureSet =
      (if existing.capture then 1 else 0) +
        (entry.routes.eraseP fun other => other.same route).countP Route.capture := by
    rw [counted name entry found,perm.countP_eq,List.countP_cons,Nat.add_comm]
  unfold RibEntry.eraseRoute
  rw [present]
  have named := Rib.find_name found
  refine ⟨found,perm,named,rfl,rfl,rfl,?_⟩
  dsimp only
  rw [count]
  cases existing.capture with
  | true => simp
  | false => simp

namespace Erased

variable (erases : Erased rib name entry erased existing)
include erases

theorem hasCapture : erased.hasCapture = captures erased.routes := by
  rw [RibEntry.hasCapture,erases.counted,captures,Bool.eq_iff_iff,decide_eq_true_eq,gt_iff_lt,List.countP_pos_iff,
    List.any_eq_true]

theorem captures_eq : captures entry.routes = (existing.capture || captures erased.routes) := captures_perm erases.perm

theorem captureWasTurnedOff (counted : Counted rib) :
    (entry.hasCapture && !erased.hasCapture) = (existing.capture && !captures erased.routes) := by
  rw [hasCapture_eq counted erases.found,erases.hasCapture,erases.captures_eq]
  cases existing.capture <;> cases captures erased.routes <;> rfl

theorem ancestors : rib.getAncestorRoutes erased = rib.getAncestorRoutes entry := by
  rw [Rib.getAncestorRoutes,Rib.getAncestorRoutes,erases.name,erases.parent,Rib.find_name erases.found]

end Erased

/-- What the entries below gain from above when the route no longer stands in the way. -/
def uncovered (existing : Route) (rest ancestors : List Route) : List Route :=
  if (existing.childInherit || existing.capture) && !captures rest then ancestors else []

def withdrawn (existing : Route) : List Route := if existing.childInherit then [existing] else []

def erasedSelf (erased : RibEntry) (existing : Route) (ancestors : List Route) : List Emission :=
  if existing.capture && !captures erased.routes then addInheritedRoutes erased ancestors else []

def blockedHop (erased : RibEntry) (existing : Route) (ancestors : List Route) : List Emission :=
  if !captures erased.routes && erased.routes.length ≠ 0 then
    match findFace ancestors existing.faceId with
    | some ancestor =>
      [.addInheritedRoute erased.name ancestor,.addNextHop erased.name ancestor.faceId ancestor.cost]
    | none => []
  else []

private theorem erasedRoute_eq (counted : Counted rib) (erases : Erased rib name entry erased existing) :
    createFibUpdatesForErasedRoute rib erased existing (entry.hasCapture && !erased.hasCapture) =
      [.removeNextHop erased.name existing.faceId] ++ erasedSelf erased existing (rib.getAncestorRoutes entry) ++
        (if existing.childInherit || existing.capture then
          modifyChildrensInheritedRoutes rib entry.children
            (uncovered existing erased.routes (rib.getAncestorRoutes entry)) (withdrawn existing)
        else []) ++ blockedHop erased existing (rib.getAncestorRoutes entry) := by
  rw [erases.captureWasTurnedOff counted]
  unfold createFibUpdatesForErasedRoute uncovered withdrawn erasedSelf blockedHop
  dsimp only
  rw [erases.ancestors,erases.children,erases.hasCapture]
  generalize rib.getAncestorRoutes entry = ancestors
  cases findFace ancestors existing.faceId <;> cases existing.childInherit <;> cases existing.capture <;>
    cases captures erased.routes <;> simp

theorem findFace_uncovered (ancestors : List Route) (face : Nat) :
    findFace (uncovered existing rest ancestors) face =
      if (existing.childInherit || existing.capture) && !captures rest then findFace ancestors face else none := by
  unfold uncovered
  split <;> rfl

theorem findFace_withdrawn (face : Nat) :
    findFace (withdrawn existing) face =
      if existing.childInherit ∧ existing.faceId = face then some existing else none := by
  unfold withdrawn
  cases existing.childInherit with
  | true => simp [findFace_singleton]
  | false => simp [findFace]

def erasedOwn (erased : RibEntry) (existing : Route) (ancestors : List Route) (face : Nat) : List Emission :=
  (if existing.faceId = face then [.removeNextHop erased.name face] else []) ++
    (if existing.capture && !captures erased.routes then addInheritedRoutes erased (findFace ancestors face).toList
      else []) ++
    if existing.faceId = face then blockedHop erased existing ancestors else []

private theorem erasedRoute_emissions (tree : rib.Tree) (counted : Counted rib)
    (erases : Erased rib name entry erased existing) :
    Spreads rib name (createFibUpdatesForErasedRoute rib erased existing (entry.hasCapture && !erased.hasCapture))
        (findFace (withdrawn existing))
        (fun face => (findFace (uncovered existing erased.routes (rib.getAncestorRoutes entry)) face).toList) ∧
      ∀ face, onKey (createFibUpdatesForErasedRoute rib erased existing (entry.hasCapture && !erased.hasCapture))
          name face = erasedOwn erased existing (rib.getAncestorRoutes entry) face := by
  have unique := (getAncestorRoutes_spec tree counted erases.found).sorted.oneEach
  have below := childrenOf_entry tree erases.found
  rw [erasedRoute_eq counted erases]
  generalize rib.getAncestorRoutes entry = ancestors at unique ⊢
  have oneAdd : OneEach (uncovered existing erased.routes ancestors) := by
    unfold uncovered
    split
    · exact unique
    · exact oneEach_nil
  have oneRemove : OneEach (withdrawn existing) := by
    unfold withdrawn
    split
    · exact oneEach_singleton existing
    · exact oneEach_nil
  have first : ∀ emission ∈ [Emission.removeNextHop erased.name existing.faceId] ++
      erasedSelf erased existing ancestors, emission.name = name := by
    intro emission inside
    rcases List.mem_append.mp inside with hop | inherited
    · rw [List.mem_singleton.mp hop]
      exact erases.name
    · unfold erasedSelf at inherited
      split at inherited
      · exact (name_of_addInheritedRoutes inherited).trans erases.name
      · cases inherited
  have last : ∀ emission ∈ blockedHop erased existing ancestors,
      emission.name = name ∧ emission.faceId = existing.faceId := by
    intro emission inside
    unfold blockedHop at inside
    split at inside
    · split at inside
      · rename_i ancestor found
        have named := (findFace_some found).2
        simp only [List.mem_cons,List.not_mem_nil,or_false] at inside
        rcases inside with rfl | rfl
        · exact ⟨erases.name,named⟩
        · exact ⟨erases.name,named⟩
      · cases inside
    · cases inside
  have descent : Spreads rib name (if existing.childInherit || existing.capture then
        modifyChildrensInheritedRoutes rib entry.children (uncovered existing erased.routes ancestors)
          (withdrawn existing)
        else []) (findFace (withdrawn existing))
        (fun face => (findFace (uncovered existing erased.routes ancestors) face).toList) ∧
      ∀ face, onKey (if existing.childInherit || existing.capture then
        modifyChildrensInheritedRoutes rib entry.children (uncovered existing erased.routes ancestors)
          (withdrawn existing)
        else []) name face = [] := by
    by_cases either : (existing.childInherit || existing.capture) = true
    · rw [if_pos either]
      exact ⟨modifyChildrens_spreads tree counted below oneAdd oneRemove,
        onKey_modifyChildrens tree counted below oneAdd oneRemove⟩
    · rw [if_neg either]
      have nothing : uncovered existing erased.routes ancestors = [] := by
        unfold uncovered
        rw [Bool.eq_false_iff.mpr either]
        rfl
      have kept : withdrawn existing = [] := by
        unfold withdrawn
        rw [(Bool.or_eq_false_iff.mp (Bool.eq_false_iff.mpr either)).1]
        rfl
      rw [nothing,kept]
      exact ⟨spreads_own fun _ inside => absurd inside List.not_mem_nil,fun _ => rfl⟩
  refine ⟨(descent.1.after_own first).before_own fun emission inside => (last emission inside).1,?_⟩
  intro face
  have hop : onKey [Emission.removeNextHop erased.name existing.faceId] name face =
      if existing.faceId = face then [.removeNextHop erased.name face] else [] := by
    by_cases same : existing.faceId = face
    · simp [onKey,Emission.name,Emission.faceId,same,erases.name]
    · simp [onKey,Emission.name,Emission.faceId,same]
  have self : onKey (erasedSelf erased existing ancestors) name face =
      if existing.capture && !captures erased.routes then addInheritedRoutes erased (findFace ancestors face).toList
      else [] := by
    unfold erasedSelf
    split
    · rw [← onKey_addInheritedRoutes erased unique,erases.name]
    · rfl
  have blocked : onKey (blockedHop erased existing ancestors) name face =
      if existing.faceId = face then blockedHop erased existing ancestors else [] := by
    split
    · rename_i same
      apply onKey_of_forall
      intro emission inside
      exact ⟨(last emission inside).1,(last emission inside).2.trans same⟩
    · rename_i different
      apply onKey_of_none
      intro emission inside _ same
      exact different ((last emission inside).2.symm.trans same)
  rw [onKey_append,onKey_append,onKey_append,descent.2,List.append_nil,hop,self,blocked]
  rfl

/-- The route on the face that is read in the place of the erased one, if there is another. -/
def nextAdded (second : Option Route) (rest : List Route) (face : Nat) : Option Route :=
  second.filter fun next => next.faceId = face ∧ next.childInherit ∧ AtMost next.cost (passedCost rest face)

def nextOwn (name : Name) (second : Option Route) (rest : List Route) (face : Nat) : List Emission :=
  (second.filter fun next => next.faceId = face ∧ AtMost next.cost (ownCost rest face)).toList.map fun next =>
    .addNextHop name face next.cost

def unregistrationEmissions (rib : Rib) (entry erased : RibEntry) (existing : Route) (second : Option Route) :
    List Emission :=
  createFibUpdatesForErasedRoute rib erased existing (entry.hasCapture && !erased.hasCapture) ++
    (match second with
      | some next => createFibUpdatesForNewRoute rib erased next false
      | none => []) ++
    if entry.routes.length = 1 then createFibUpdatesForErasedRibEntry entry else []

theorem unregistration_emissions (tree : rib.Tree) (counted : Counted rib)
    (erases : Erased rib name entry erased existing) (second : Option Route) :
    Spreads rib name (unregistrationEmissions rib entry erased existing second) (findFace (withdrawn existing))
        (fun face => (findFace (uncovered existing erased.routes (rib.getAncestorRoutes entry)) face).toList ++
          (nextAdded second erased.routes face).toList) ∧
      ∀ face, onKey (unregistrationEmissions rib entry erased existing second) name face =
        erasedOwn erased existing (rib.getAncestorRoutes entry) face ++ nextOwn name second erased.routes face ++
          onKey (if entry.routes.length = 1 then createFibUpdatesForErasedRibEntry entry else []) name face := by
  obtain ⟨spreads,own⟩ := erasedRoute_emissions tree counted erases
  have below : ChildrenOf rib name erased.children := erases.children ▸ childrenOf_entry tree erases.found
  have unique : OneEach (rib.getAncestorRoutes erased) := by
    rw [erases.ancestors]
    exact (getAncestorRoutes_spec tree counted erases.found).sorted.oneEach
  have named : ∀ emission ∈ if entry.routes.length = 1 then createFibUpdatesForErasedRibEntry entry else [],
      emission.name = name := by
    intro emission inside
    split at inside
    · obtain ⟨route,-,rfl⟩ := List.mem_map.mp inside
      exact Rib.find_name erases.found
    · cases inside
  have next : Spreads rib name (match second with
        | some next => createFibUpdatesForNewRoute rib erased next false
        | none => []) (fun _ => none) (fun face => (nextAdded second erased.routes face).toList) ∧
      ∀ face, onKey (match second with
        | some next => createFibUpdatesForNewRoute rib erased next false
        | none => []) name face = nextOwn name second erased.routes face := by
    cases second with
    | none => exact ⟨spreads_own fun _ inside => absurd inside List.not_mem_nil,fun _ => rfl⟩
    | some next =>
      obtain ⟨spreads,own⟩ : Spreads rib name (createFibUpdatesForNewRoute rib erased next false) _ _ ∧ _ :=
        newRoute_emissions tree counted erases.name below false unique
      have added : ∀ face, nextAdded (some next) erased.routes face =
          if next.faceId = face ∧ next.childInherit ∧ AtMost next.cost (passedCost erased.routes face)
          then some next else none := by
        intro face
        rw [nextAdded,Option.filter_some]
        simp only [decide_eq_true_eq]
      refine ⟨?_,?_⟩
      · simp only [added]
        exact spreads
      · intro face
        dsimp only
        rw [own,nextOwn,Option.filter_some]
        simp only [decide_eq_true_eq]
        by_cases cheapest : next.faceId = face ∧ AtMost next.cost (ownCost erased.routes face)
        · rw [if_pos cheapest,if_pos cheapest]
          rfl
        · rw [if_neg cheapest,if_neg cheapest]
          rfl
  unfold unregistrationEmissions
  refine ⟨(spreads.append next.1).before_own named,?_⟩
  intro face
  rw [onKey_append,onKey_append,own,next.2]

/-- When the erasure of a route is passed on as it should be on a face. The routes from above that come
in are those that the entries above pass on, and come only where the entry does not pass on its own; no
leftover inherited routes are found below; and the route read in the place of the erased one is the
cheapest that is left, and is passed on if the cheapest passed on is. -/
structure ErasedRouteOk (rib : Rib) (name : Name) (rest : List Route) (existing next : Route) (face : Nat) : Prop where
  listed : captures rest = false →
    ((existing.childInherit = true ∨ existing.capture = true) ∧
      (face ≠ existing.faceId ∨ passedCost rest face = none)) ∨
    (face = existing.faceId ∧ rest ≠ [] ∧ ownCost rest face = none) → ListedFirst rib.content name face
  shadowed : captures rest = false → existing.childInherit = true ∨ existing.capture = true →
    face ≠ existing.faceId → rib.content.inherited face name ≠ none → passedCost rest face = none
  clear : existing.childInherit = true → face = existing.faceId → NoLeftover rib name face
  second : face = existing.faceId → ∀ own, ownCost rest face = some own → next.cost = own
  handed : face = existing.faceId → ∀ own, ownCost rest face = some own →
    (passedCost rest face = none → next.childInherit = false) ∧
    ∀ passed, passedCost rest face = some passed →
      (next.childInherit = true ∧ own = passed) ∨
      (next.childInherit = false ∧ existing.childInherit = false ∧
        (existing.capture = true → captures rest = false → rib.content.inherited face name = none))

/-- When the erasure of a route succeeds and is passed on as it should be. -/
structure ErasureOk (rib : Rib) (name : Name) (rest : List Route) (existing next : Route) (destroyed : List Nat) :
    Prop where
  secondFace : ownCost rest existing.faceId ≠ none → next.faceId = existing.faceId
  lastCapture : rest = [] → existing.capture = true → ∀ face, rib.content.inherited face name = none
  faces : ∀ face, face ∉ destroyed → ErasedRouteOk rib name rest existing next face

private theorem handed_append {removed first second : Option Route} {before after : Option Nat} :
    Handed removed (first.toList ++ second.toList) before after ↔ Handed removed (second.or first).toList before after := by
  unfold Handed
  cases first <;> cases second <;> rfl

def left (rest : List Route) : Option (List Route) := if rest.isEmpty then none else some rest

theorem offer_left {content changed : Content} (agree : Content.AgreeOff content changed name)
    (after : changed name = left rest) (face : Nat) :
    changed.offer face name =
      match passedCost rest face with
      | some cost => some cost
      | none => if captures rest then none else content.inherited face name := by
  unfold left at after
  split at after
  · rename_i empty
    rw [List.isEmpty_iff.mp empty,offer_of_absent after,inherited_self agree]
    rfl
  · cases passes : passedCost rest face with
    | some cost => exact offer_of_passed after passes
    | none =>
      cases stops : captures rest with
      | true => exact offer_of_captures after passes stops
      | false => exact (offer_of_inherited after passes stops).trans (inherited_self agree face)

private theorem second_eq {second : Option Route} {next : Route}
    (isSecond : second = if ownCost rest existing.faceId = none then none else some next) :
    (ownCost rest existing.faceId = none → second = none) ∧
      ∀ own, ownCost rest existing.faceId = some own → second = some next := by
  refine ⟨fun none_left => isSecond.trans (if_pos none_left),?_⟩
  intro own some_left
  rw [isSecond,if_neg (by rw [some_left]; exact Option.some_ne_none own)]

/-- Where no route on the face is passed on any more and none is read in the place of the erased one,
what comes from above is what is passed on. -/
private theorem uncovered_handed (erases : Erased rib name entry erased existing)
    (collected : AncestorsOf rib.content name (rib.getAncestorRoutes entry)) {after : Option Nat} {face : Nat}
    (nothing : passedCost erased.routes face = none)
    (offered : after = if captures erased.routes then none else rib.content.inherited face name)
    (listed : captures erased.routes = false → existing.childInherit = true ∨ existing.capture = true →
      ListedFirst rib.content name face) :
    Handed (findFace (withdrawn existing) face)
      (findFace (uncovered existing erased.routes (rib.getAncestorRoutes entry)) face).toList
      (rib.content.offer face name) after := by
  have before := content_find erases.found
  rw [handed_iff,findFace_uncovered,findFace_withdrawn]
  cases stops : captures erased.routes with
  | true =>
    rw [stops,if_pos rfl] at offered
    have caught : captures entry.routes = true := by
      rw [erases.captures_eq,stops]
      exact Bool.or_true _
    rw [Bool.not_true,Bool.and_false]
    refine ⟨by simp,fun _ _ => offered,?_⟩
    intro _ kept
    have still : passedCost entry.routes face = none := by
      rw [passedCost_perm erases.perm,passedCost_cons,nothing,if_neg]
      intro both
      rw [if_pos ⟨both.2,both.1⟩] at kept
      cases kept
    rw [offered,offer_of_captures before still caught]
  | false =>
    rw [stops,if_neg Bool.noConfusion] at offered
    rw [Bool.not_false,Bool.and_true]
    by_cases either : existing.childInherit = true ∨ existing.capture = true
    · rw [if_pos ((Bool.or_eq_true _ _).mpr either)]
      have cost := collected.cost face (listed stops either)
      refine ⟨?_,?_,?_⟩
      · intro other found
        rw [offered,← cost,found]
        rfl
      · intro missing _
        rw [offered]
        exact (collected.absent face).mp missing
      · intro missing kept
        have none_offered := (collected.absent face).mp missing
        rw [offered,none_offered]
        have still : passedCost entry.routes face = none := by
          rw [passedCost_perm erases.perm,passedCost_cons,nothing,if_neg]
          intro both
          rw [if_pos ⟨both.2,both.1⟩] at kept
          cases kept
        cases caught : captures entry.routes with
        | true => rw [offer_of_captures before still caught]
        | false => rw [offer_of_inherited before still caught,none_offered]
    · have neither : (existing.childInherit || existing.capture) = false := by
        rw [Bool.or_eq_false_iff]
        exact ⟨Bool.eq_false_iff.mpr fun yes => either (Or.inl yes),Bool.eq_false_iff.mpr fun yes => either (Or.inr yes)⟩
      obtain ⟨keeps,free⟩ := Bool.or_eq_false_iff.mp neither
      rw [neither,keeps]
      refine ⟨by simp,by simp,fun _ _ => ?_⟩
      have still : passedCost entry.routes face = none := by
        rw [passedCost_perm erases.perm,passedCost_cons,nothing,if_neg (by simp [keeps])]
      have caught : captures entry.routes = false := by
        rw [erases.captures_eq,free,stops]
        rfl
      rw [offered,offer_of_inherited before still caught]

private theorem erased_handed (erases : Erased rib name entry erased existing)
    (collected : AncestorsOf rib.content name (rib.getAncestorRoutes entry)) {changed : Content}
    (agree : Content.AgreeOff rib.content changed name) (after : changed name = left erased.routes)
    {second : Option Route} {next : Route}
    (isSecond : second = if ownCost erased.routes existing.faceId = none then none else some next)
    (secondFace : ownCost erased.routes existing.faceId ≠ none → next.faceId = existing.faceId) {face : Nat}
    (ok : ErasedRouteOk rib name erased.routes existing next face) :
    Handed (findFace (withdrawn existing) face)
      ((findFace (uncovered existing erased.routes (rib.getAncestorRoutes entry)) face).toList ++
        (nextAdded second erased.routes face).toList)
      (rib.content.offer face name) (changed.offer face name) := by
  have before := content_find erases.found
  have offered := offer_left agree after face
  rw [handed_append]
  by_cases same : face = existing.faceId
  · cases passes : passedCost erased.routes face with
    | none =>
      -- The route read second is not passed on either.
      have nothing : nextAdded second erased.routes face = none := by
        cases left : ownCost erased.routes existing.faceId with
        | none => rw [(second_eq isSecond).1 left]; rfl
        | some own =>
          have keeps := (ok.handed same own (by rw [same]; exact left)).1 passes
          rw [(second_eq isSecond).2 own left,nextAdded,Option.filter_some,if_neg (by simp [keeps])]
      rw [passes] at offered
      rw [nothing,Option.none_or]
      exact uncovered_handed erases collected passes offered fun free either =>
        ok.listed free (Or.inl ⟨either,Or.inr passes⟩)
    | some passed =>
      obtain ⟨own,left⟩ : ∃ own, ownCost erased.routes face = some own := by
        refine Option.ne_none_iff_exists'.mp ?_
        intro none_left
        rw [passedCost_of_ownCost none_left] at passes
        cases passes
      have leftThere : ownCost erased.routes existing.faceId = some own := by
        rw [← same]
        exact left
      have read := (second_eq isSecond).2 own leftThere
      have there : next.faceId = face := by
        rw [same]
        exact secondFace (by rw [leftThere]; exact Option.some_ne_none own)
      rw [passes] at offered
      rcases (ok.handed same own left).2 passed passes with ⟨inherits,equal⟩ | ⟨keeps,kept,uncaught⟩
      · have cost := ok.second same own left
        have taken : nextAdded second erased.routes face = some next := by
          rw [read,nextAdded,Option.filter_some,if_pos]
          simp [there,inherits,AtMost,passes,cost,equal]
        rw [taken,Option.some_or,handed_iff]
        refine ⟨?_,by simp,by simp⟩
        intro other found
        rw [← Option.some.inj found,cost,equal]
        exact offered
      · have nothing : nextAdded second erased.routes face = none := by
          rw [read,nextAdded,Option.filter_some,if_neg (by simp [keeps])]
        have still : passedCost entry.routes face = some passed := by
          rw [passedCost_perm erases.perm,passedCost_cons,if_neg (by simp [kept]),passes]
        have uncovers : findFace (uncovered existing erased.routes (rib.getAncestorRoutes entry)) face = none := by
          rw [findFace_uncovered]
          split
          · rename_i both
            rw [kept,Bool.false_or,Bool.and_eq_true,Bool.not_eq_true'] at both
            exact (collected.absent face).mpr (uncaught both.1 both.2)
          · rfl
        rw [nothing,uncovers,findFace_withdrawn,if_neg (by simp [kept]),handed_iff]
        refine ⟨by simp,by simp,fun _ _ => ?_⟩
        rw [offered,offer_of_passed before still]
  · have nothing : nextAdded second erased.routes face = none := by
      cases left : ownCost erased.routes existing.faceId with
      | none => rw [(second_eq isSecond).1 left]; rfl
      | some own =>
        have there := secondFace (by rw [left]; exact Option.some_ne_none own)
        rw [(second_eq isSecond).2 own left,nextAdded,Option.filter_some,if_neg]
        intro all
        have here := (of_decide_eq_true all).1
        exact same (here.symm.trans there)
    rw [nothing,Option.none_or]
    cases passes : passedCost erased.routes face with
    | none =>
      rw [passes] at offered
      exact uncovered_handed erases collected passes offered fun free either =>
        ok.listed free (Or.inl ⟨either,Or.inl same⟩)
    | some passed =>
      rw [passes] at offered
      have still : passedCost entry.routes face = some passed := by
        rw [passedCost_perm erases.perm,passedCost_cons,if_neg fun both => same both.1.symm,passes]
      have uncovers : findFace (uncovered existing erased.routes (rib.getAncestorRoutes entry)) face = none := by
        rw [findFace_uncovered]
        split
        · rename_i both
          rw [Bool.and_eq_true,Bool.or_eq_true,Bool.not_eq_true'] at both
          refine (collected.absent face).mpr ?_
          by_contra above
          rw [ok.shadowed both.2 both.1 same above] at passes
          cases passes
        · rfl
      rw [uncovers,findFace_withdrawn,if_neg fun both => same both.2.symm,handed_iff]
      refine ⟨by simp,by simp,fun _ _ => ?_⟩
      rw [offered,offer_of_passed before still]

private theorem nextOwn_other {second : Option Route} {next : Route}
    (isSecond : second = if ownCost rest existing.faceId = none then none else some next)
    (secondFace : ownCost rest existing.faceId ≠ none → next.faceId = existing.faceId) {face : Nat}
    (different : face ≠ existing.faceId ∨ ownCost rest existing.faceId = none) : nextOwn name second rest face = [] := by
  cases left : ownCost rest existing.faceId with
  | none => rw [(second_eq isSecond).1 left]; rfl
  | some own =>
    have there := secondFace (by rw [left]; exact Option.some_ne_none own)
    have away := different.resolve_right (by rw [left]; exact Option.some_ne_none own)
    rw [(second_eq isSecond).2 own left,nextOwn,Option.filter_some,if_neg]
    · rfl
    · intro all
      have here := (of_decide_eq_true all).1
      exact away (here.symm.trans there)

private theorem erased_hop (erases : Erased rib name entry erased existing)
    (collected : AncestorsOf rib.content name (rib.getAncestorRoutes entry)) {changed : Content}
    (agree : Content.AgreeOff rib.content changed name) (after : changed name = some erased.routes)
    (some_left : erased.routes ≠ []) {second : Option Route} {next : Route}
    (isSecond : second = if ownCost erased.routes existing.faceId = none then none else some next)
    (secondFace : ownCost erased.routes existing.faceId ≠ none → next.faceId = existing.faceId) {face : Nat}
    (ok : ErasedRouteOk rib name erased.routes existing next face) :
    hopAfter (erasedOwn erased existing (rib.getAncestorRoutes entry) face ++ nextOwn name second erased.routes face)
      (rib.content.nextHop face name) = changed.nextHop face name := by
  have before := content_find erases.found
  rw [hopAfter_append]
  unfold erasedOwn
  by_cases same : existing.faceId = face
  · rw [if_pos same,if_pos same]
    cases own : ownCost erased.routes face with
    | some cost =>
      have left : ownCost erased.routes existing.faceId = some cost := by
        rw [same]
        exact own
      have there := secondFace (by rw [left]; exact Option.some_ne_none cost)
      have cheapest := ok.second same.symm cost own
      rw [nextHop_of_own after own,(second_eq isSecond).2 cost left,nextOwn,Option.filter_some,if_pos]
      · exact congrArg some cheapest
      · simp [there,same,AtMost,own,cheapest]
    | none =>
      have without : ownCost erased.routes existing.faceId = none := by
        rw [same]
        exact own
      rw [nextOwn_other isSecond secondFace (Or.inr without),hopAfter_nil]
      unfold blockedHop
      cases stops : captures erased.routes with
      | true =>
        rw [nextHop_of_captures after own stops,Bool.not_true,Bool.and_false]
        rfl
      | false =>
        have counts : (!false && decide (erased.routes.length ≠ 0)) = true := by simpa using some_left
        rw [nextHop_of_inherited after own stops,inherited_self agree,if_pos counts,same]
        cases above : findFace (rib.getAncestorRoutes entry) face with
        | none =>
          rw [(collected.absent face).mp above]
          cases existing.capture <;> rfl
        | some other =>
          have cost := collected.cost face (ok.listed stops (Or.inr ⟨same.symm,some_left,own⟩))
          rw [← cost,above,hopAfter_append]
          rfl
  · rw [if_neg same,if_neg same,nextOwn_other isSecond secondFace (Or.inl (Ne.symm same)),hopAfter_nil,List.nil_append,
      List.append_nil]
    have owned : ownCost entry.routes face = ownCost erased.routes face := by
      rw [ownCost_perm erases.perm,ownCost_cons,if_neg same]
    cases off : existing.capture && !captures erased.routes with
    | true =>
      rw [Bool.and_eq_true,Bool.not_eq_true'] at off
      have faces : ∀ route ∈ (findFace (rib.getAncestorRoutes entry) face).toList, route.faceId = face :=
        fun route inside => (findFace_some (Option.mem_toList.mp inside)).2
      rw [if_pos rfl,hopAfter_addInheritedRoutes erased faces]
      cases own : ownCost erased.routes face with
      | some cost =>
        have held : erased.hasFaceId face = true := by
          rw [← Bool.not_eq_false,hasFaceId_iff,own]
          exact Option.some_ne_none cost
        rw [if_pos held,nextHop_of_own before (owned.trans own),nextHop_of_own after own]
      | none =>
        have caught : captures entry.routes = true := by
          rw [erases.captures_eq,off.1]
          rfl
        rw [if_neg (by rw [hasFaceId_iff.mpr own]; exact Bool.noConfusion),nextHop_of_inherited after own off.2,
          inherited_self agree,nextHop_of_captures before (owned.trans own) caught]
        cases above : findFace (rib.getAncestorRoutes entry) face with
        | none => exact ((collected.absent face).mp above).symm
        | some other =>
          have cost := collected.cost face (ok.listed off.2 (Or.inl ⟨Or.inr off.1,Or.inl (Ne.symm same)⟩))
          rw [← cost,above]
          rfl
    | false =>
      have caught : captures entry.routes = captures erased.routes := by
        rw [erases.captures_eq]
        revert off
        cases existing.capture <;> cases captures erased.routes <;> simp
      rw [if_neg Bool.noConfusion,hopAfter_nil,Content.nextHop,Content.nextHop,before,after]
      dsimp only
      rw [owned,caught,inherited_self agree]

/-- The inherited routes that the erasure of a route gives the entry itself. -/
theorem recordsAfter_erasedOwn (ancestors : List Route) (second : Option Route) (face records : Nat) :
    recordsAfter (erasedOwn erased existing ancestors face ++ nextOwn name second rest face) records =
      some (records +
        (if existing.capture = true ∧ captures erased.routes = false ∧ ownCost erased.routes face = none
          then (findFace ancestors face).toList.length else 0) +
        if existing.faceId = face ∧ captures erased.routes = false ∧ erased.routes ≠ []
          then (findFace ancestors face).toList.length else 0) := by
  have hop : recordsAfter (if existing.faceId = face then [.removeNextHop erased.name face] else []) records =
      some records := by
    split <;> rfl
  have self : recordsAfter (if existing.capture && !captures erased.routes
      then addInheritedRoutes erased (findFace ancestors face).toList else []) records =
      some (records + if existing.capture = true ∧ captures erased.routes = false ∧ ownCost erased.routes face = none
        then (findFace ancestors face).toList.length else 0) := by
    have faces : ∀ route ∈ (findFace ancestors face).toList, route.faceId = face :=
      fun route inside => (findFace_some (Option.mem_toList.mp inside)).2
    have added := recordsAfter_addInheritedRoutes erased faces records
    cases own : ownCost erased.routes face with
    | none =>
      rw [if_neg (by rw [hasFaceId_iff.mpr own]; exact Bool.noConfusion)] at added
      cases existing.capture <;> cases captures erased.routes <;> simp [added]
    | some cost =>
      have held : erased.hasFaceId face = true := by
        rw [← Bool.not_eq_false,hasFaceId_iff,own]
        exact Option.some_ne_none cost
      rw [if_pos held] at added
      cases existing.capture <;> cases captures erased.routes <;> simp [added]
  have blocked : ∀ count, recordsAfter (if existing.faceId = face then blockedHop erased existing ancestors else []) count =
      some (count + if existing.faceId = face ∧ captures erased.routes = false ∧ erased.routes ≠ []
        then (findFace ancestors face).toList.length else 0) := by
    intro count
    by_cases same : existing.faceId = face
    · rw [if_pos same,blockedHop,same]
      cases captures erased.routes with
      | true => simp
      | false =>
        by_cases gone : erased.routes = []
        · simp [gone]
        · cases findFace ancestors face <;> simp [gone,recordsAfter,recordStep]
    · simp [same]
  have next : ∀ count, recordsAfter (nextOwn name second rest face) count = some count := by
    apply recordsAfter_of_hops
    intro emission inside
    obtain ⟨route,-,rfl⟩ := List.mem_map.mp inside
    rfl
  unfold erasedOwn
  rw [recordsAfter_append,recordsAfter_append,recordsAfter_append,hop,Option.bind_some,self,Option.bind_some,blocked,
    Option.bind_some,next]

private theorem erased_records {state : RibState} (consistent : Consistent state)
    (erases : Erased state.rib name entry erased existing)
    (collected : AncestorsOf state.rib.content name (state.rib.getAncestorRoutes entry)) {changed : Content}
    (agree : Content.AgreeOff state.rib.content changed name) (after : changed name = some erased.routes)
    (some_left : erased.routes ≠ []) (second : Option Route) (face : Nat) :
    ∃ left, recordsAfter (erasedOwn erased existing (state.rib.getAncestorRoutes entry) face ++
        nextOwn name second erased.routes face) (state.rib.records name face) = some left ∧
      (face ∉ state.destroyed → Inherits changed name face → 0 < left) := by
  refine ⟨_,recordsAfter_erasedOwn ..,?_⟩
  rintro live ⟨⟨routes,stored,free,without⟩,offered⟩
  rw [after,Option.some.injEq] at stored
  rw [← stored] at free without
  rw [inherited_self agree] at offered
  have above : findFace (state.rib.getAncestorRoutes entry) face ≠ none := mt (collected.absent face).mp offered
  obtain ⟨other,found⟩ := Option.ne_none_iff_exists'.mp above
  rw [found,Option.toList_some,List.length_singleton]
  by_cases same : existing.faceId = face
  · rw [if_pos (⟨same,free,some_left⟩ : existing.faceId = face ∧ _ ∧ _)]
    omega
  by_cases off : existing.capture = true
  · rw [if_pos (⟨off,free,without⟩ : existing.capture = true ∧ _ ∧ _)]
    omega
  · have caught : captures entry.routes = false := by
      rw [erases.captures_eq,free,Bool.eq_false_iff.mpr off]
      rfl
    have owned : ownCost entry.routes face = none := by
      rw [ownCost_perm erases.perm,ownCost_cons,if_neg same]
      exact without
    have held := consistent.recorded name face live
      ⟨⟨entry.routes,content_find erases.found,caught,owned⟩,offered⟩
    omega

private theorem erasedOwn_gone (collected : AncestorsOf rib.content name (rib.getAncestorRoutes entry))
    (gone : erased.routes = []) (lastCapture : existing.capture = true → ∀ face, rib.content.inherited face name = none)
    (face : Nat) : erasedOwn erased existing (rib.getAncestorRoutes entry) face =
      if existing.faceId = face then [.removeNextHop erased.name face] else [] := by
  have self : (if existing.capture && !captures erased.routes
      then addInheritedRoutes erased (findFace (rib.getAncestorRoutes entry) face).toList else []) = [] := by
    split
    · rename_i off
      rw [Bool.and_eq_true] at off
      rw [(collected.absent face).mpr (lastCapture off.1 face)]
      rfl
    · rfl
  have blocked : blockedHop erased existing (rib.getAncestorRoutes entry) = [] := by
    unfold blockedHop
    rw [gone]
    rfl
  unfold erasedOwn
  rw [self,blocked,List.append_nil,ite_self,List.append_nil]

/-- An entry that goes gets no inherited routes any more. -/
theorem unregistration_hops (tree : rib.Tree) (counted : Counted rib) (erases : Erased rib name entry erased existing)
    (gone : erased.routes = []) (lastCapture : existing.capture = true → ∀ face, rib.content.inherited face name = none)
    (second : Option Route) (face : Nat) :
    ∀ emission ∈ onKey (unregistrationEmissions rib entry erased existing second) name face,
      emission.isRecord = false := by
  intro emission inside
  rw [(unregistration_emissions tree counted erases second).2,
    erasedOwn_gone (getAncestorRoutes_spec tree counted erases.found) gone lastCapture] at inside
  rcases List.mem_append.mp inside with earlier | erasedEntry
  · rcases List.mem_append.mp earlier with hop | next
    · split at hop
      · rw [List.mem_singleton.mp hop]
        rfl
      · cases hop
    · obtain ⟨other,-,rfl⟩ := List.mem_map.mp next
      rfl
  · have removed := List.mem_of_mem_filter erasedEntry
    split at removed
    · obtain ⟨other,-,rfl⟩ := List.mem_map.mp removed
      rfl
    · cases removed

private theorem hopAfter_erasedRibEntry (found : rib.find name = some entry) (face : Nat) (hop : Option Nat) :
    hopAfter (onKey (createFibUpdatesForErasedRibEntry entry) name face) hop =
      if 0 < rib.records name face then none else hop := by
  have removals : ∀ emissions : List Emission, (∀ emission ∈ emissions, ∃ name face, emission = .removeNextHop name face) →
      hopAfter emissions hop = if emissions = [] then hop else none := by
    intro emissions all
    induction emissions using List.reverseRecOn with
    | nil => rfl
    | append_singleton emissions emission ih =>
      obtain ⟨name,face,rfl⟩ := all emission (List.mem_append_right _ List.mem_cons_self)
      rw [if_neg (by simp),hopAfter_append]
      rfl
  have inside : onKey (createFibUpdatesForErasedRibEntry entry) name face = [] ↔ rib.records name face = 0 := by
    rw [records_find found,List.countP_eq_zero,onKey,List.filter_eq_nil_iff]
    unfold createFibUpdatesForErasedRibEntry
    simp [Emission.name,Emission.faceId,Rib.find_name found]
  rw [removals]
  · by_cases held : 0 < rib.records name face
    · rw [if_pos held,if_neg fun empty => Nat.ne_of_gt held (inside.mp empty)]
    · rw [if_neg held,if_pos (inside.mpr (Nat.eq_zero_of_not_pos held))]
  · intro emission member
    obtain ⟨route,-,rfl⟩ := List.mem_map.mp (List.mem_of_mem_filter member)
    exact ⟨_,_,rfl⟩

private theorem erased_hop_gone {state : RibState} (consistent : Consistent state)
    (erases : Erased state.rib name entry erased existing) (gone : erased.routes = []) {face : Nat}
    (live : face ∉ state.destroyed) :
    hopAfter ((if existing.faceId = face then [.removeNextHop erased.name face] else []) ++
      onKey (createFibUpdatesForErasedRibEntry entry) name face) (state.rib.content.nextHop face name) = none := by
  have before := content_find erases.found
  rw [hopAfter_append,hopAfter_erasedRibEntry erases.found]
  by_cases held : 0 < state.rib.records name face
  · rw [if_pos held]
  · rw [if_neg held]
    by_cases same : existing.faceId = face
    · rw [if_pos same]
      rfl
    · have owned : ownCost entry.routes face = none := by
        rw [ownCost_perm erases.perm,ownCost_cons,if_neg same,gone]
        rfl
      rw [if_neg same,hopAfter_nil]
      cases caught : captures entry.routes with
      | true => exact nextHop_of_captures before owned caught
      | false =>
        rw [nextHop_of_inherited before owned caught]
        by_contra offered
        exact held (consistent.recorded name face live ⟨⟨entry.routes,before,caught,owned⟩,offered⟩)

theorem second_of_lowest (readSecond : List Route → Route)
    (erases : Erased rib name entry erased existing) {face : Nat} (same : existing.faceId = face) :
    entry.getRouteWithSecondLowestCostByFaceId readSecond face =
      if ownCost erased.routes existing.faceId = none then none
      else some (readSecond (entry.routes.filter fun route => route.faceId == face)) := by
  have count : (entry.routes.filter fun route => route.faceId == face).length =
      (erased.routes.filter fun route => route.faceId == face).length + 1 := by
    rw [(erases.perm.filter _).length_eq,List.filter_cons,if_pos (by simpa using same),List.length_cons]
  have without : ownCost erased.routes existing.faceId = none ↔
      (erased.routes.filter fun route => route.faceId == face).length = 0 := by
    rw [same,ownCost_eq_none,List.any_eq_false,List.length_eq_zero_iff,List.filter_eq_nil_iff]
  unfold RibEntry.getRouteWithSecondLowestCostByFaceId
  dsimp only
  rw [count]
  by_cases none_left : ownCost erased.routes existing.faceId = none
  · have empty := without.mp none_left
    rw [if_pos none_left,if_pos (by omega)]
  · have some_left := mt without.mpr none_left
    rw [if_neg none_left,if_neg (by omega)]

theorem computeUpdatesForUnregistration_eq (readSecond : List Route → Route) (found : rib.find name = some entry)
    (present : entry.findRoute route = some existing) :
    computeUpdatesForUnregistration readSecond rib name route =
      unregistrationEmissions rib entry (entry.eraseRoute route) existing
        (entry.getRouteWithSecondLowestCostByFaceId readSecond route.faceId) := by
  unfold computeUpdatesForUnregistration unregistrationEmissions
  cases second : entry.getRouteWithSecondLowestCostByFaceId readSecond route.faceId with
  | none => simp only [found,present,second]
  | some next => simp only [found,present,second]

theorem replaces_erased (tree : rib.Tree) (counted : Counted rib) (found : rib.find name = some entry)
    (present : entry.findRoute route = some existing) :
    Replaces rib (rib.erase name route) name (left (entry.eraseRoute route).routes) := by
  have erases := eraseRoute_erased counted found present
  have core := Rib.erase_core tree name route
  have rest : (entry.eraseRoute route).routes = entry.routes.eraseP fun other => other.same route := by
    unfold RibEntry.eraseRoute
    rw [present]
  have stored : (rib.erase name route).core name =
      if (entry.eraseRoute route).routes.isEmpty then none
      else some ((entry.eraseRoute route).routes,entry.inheritedRoutes,
        (entry.eraseRoute route).nRoutesWithCaptureSet) := by
    rw [core,if_pos rfl,Rib.core_find found,rest]
    dsimp only
    rw [show entry.routes.find? (fun other => other.same route) = some existing from present]
    dsimp only
    unfold RibEntry.eraseRoute
    rw [present]
  have others : ∀ other, other ≠ name → (rib.erase name route).core other = rib.core other := by
    intro other different
    rw [core,if_neg different]
  refine ⟨Rib.erase_tree tree name route,?_,agreeOff_core others,kept_core others,?_,?_⟩
  · refine counted_change counted others ?_
    intro routes inherited count held
    rw [stored] at held
    split at held
    · cases held
    · rw [Option.some.injEq,Prod.mk.injEq,Prod.mk.injEq] at held
      rw [← held.1,← held.2.2]
      exact erases.counted
  · rw [content_core,stored,left]
    split <;> rfl
  · intro some_left face
    unfold left at some_left
    rw [records_core,records_core,stored,if_neg fun empty => some_left (if_pos empty),Rib.core_find found]
    rfl

theorem unregistration_fits {state : RibState} (consistent : Consistent state) (found : state.rib.find name = some entry)
    (present : entry.findRoute route = some existing) (readSecond : List Route → Route) {destroyed : List Nat}
    (lost : ∀ face, face ∉ destroyed → face ∉ state.destroyed)
    (ok : ErasureOk state.rib name (entry.eraseRoute route).routes existing
      (readSecond (entry.routes.filter fun other => other.faceId == route.faceId)) destroyed) :
    ∃ removed added, Fits state name (state.rib.erase name route)
      (computeUpdatesForUnregistration readSecond state.rib name route) removed added destroyed := by
  have erases := eraseRoute_erased consistent.counted found present
  have collected := getAncestorRoutes_spec consistent.tree consistent.counted found
  have isSecond := second_of_lowest readSecond erases (findRoute_face present)
  have replaces := replaces_erased consistent.tree consistent.counted found present
  have agree := replaces.agree
  have after := replaces.content
  obtain ⟨spreads,own⟩ := unregistration_emissions consistent.tree consistent.counted erases
    (entry.getRouteWithSecondLowestCostByFaceId readSecond route.faceId)
  have single : entry.routes.length = 1 ↔ (entry.eraseRoute route).routes = [] := by
    rw [erases.perm.length_eq,List.length_cons,← List.length_eq_zero_iff]
    omega
  rw [computeUpdatesForUnregistration_eq readSecond found present]
  have ownGone : (entry.eraseRoute route).routes = [] → ∀ face, onKey (unregistrationEmissions state.rib entry
      (entry.eraseRoute route) existing (entry.getRouteWithSecondLowestCostByFaceId readSecond route.faceId)) name face =
      (if existing.faceId = face then [.removeNextHop (entry.eraseRoute route).name face] else []) ++
        onKey (createFibUpdatesForErasedRibEntry entry) name face := by
    intro gone face
    have without : ownCost (entry.eraseRoute route).routes existing.faceId = none := by
      rw [gone]
      rfl
    rw [own,erasedOwn_gone collected gone (ok.lastCapture gone),nextOwn_other isSecond ok.secondFace (Or.inr without),
      List.append_nil,if_pos (single.mpr gone)]
  have hops : (entry.eraseRoute route).routes = [] → ∀ face, ∀ emission ∈ onKey (unregistrationEmissions state.rib entry
      (entry.eraseRoute route) existing (entry.getRouteWithSecondLowestCostByFaceId readSecond route.faceId)) name face,
      emission.isRecord = false :=
    fun gone => unregistration_hops consistent.tree consistent.counted erases gone (ok.lastCapture gone) _
  refine ⟨_,_,replaces.tree,replaces.counted,agree,replaces.kept,lost,spreads,?_,?_,?_,?_,?_⟩
  · intro face live
    exact erased_handed erases collected agree after isSecond ok.secondFace (ok.faces face live)
  · intro face live removed
    rw [findFace_withdrawn] at removed
    split at removed
    · rename_i both
      exact (ok.faces face live).clear both.1 both.2.symm
    · cases removed
  · intro face live
    by_cases gone : (entry.eraseRoute route).routes = []
    · rw [ownGone gone,erased_hop_gone consistent erases gone (lost face live),Content.nextHop,after,left,gone]
      rfl
    · have kept : (state.rib.erase name route).content name = some (entry.eraseRoute route).routes := by
        rw [after,left,if_neg (by simpa using gone)]
      rw [own,if_neg (mt single.mp gone),onKey_nil,List.append_nil]
      exact erased_hop erases collected agree kept gone isSecond ok.secondFace (ok.faces face live)
  · intro face
    by_cases gone : (entry.eraseRoute route).routes = []
    · rw [recordsAfter_of_hops (hops gone face)]
      refine ⟨_,rfl,?_⟩
      rintro _ ⟨⟨routes,held,-⟩,-⟩
      rw [after,left,gone] at held
      cases held
    · have kept : (state.rib.erase name route).content name = some (entry.eraseRoute route).routes := by
        rw [after,left,if_neg (by simpa using gone)]
      have records : (state.rib.erase name route).records name face = state.rib.records name face :=
        replaces.records (by rw [← after,kept]; exact Option.some_ne_none _) face
      obtain ⟨final,counts,positive⟩ := erased_records consistent erases collected agree kept gone
        (entry.getRouteWithSecondLowestCostByFaceId readSecond route.faceId) face
      rw [own,if_neg (mt single.mp gone),onKey_nil,List.append_nil,records]
      exact ⟨final,counts,fun live => positive (lost face live)⟩
  · intro absent emission inside named
    have gone : (entry.eraseRoute route).routes = [] := by
      by_contra kept
      rw [after,left,if_neg (by simpa using kept)] at absent
      cases absent
    exact hops gone emission.faceId emission (List.mem_filter.mpr ⟨inside,decide_eq_true ⟨named,rfl⟩⟩)

end

end Ncfcc.Nfd
