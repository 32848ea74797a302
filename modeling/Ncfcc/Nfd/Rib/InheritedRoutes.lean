import Ncfcc.Nfd.Rib.InheritedRecords

/-! The inherited routes over runs of RIB updates. The updater hands routes on without
looking whether the entries below have one on the face already, and leaves an inherited
route in place where the entry is given its own: what an update must not meet. -/
namespace Ncfcc.Nfd
open FibUpdater Library

/-- A further route of an entry: it is the first on its face, the inherited one included, unless a
capturing route takes that away; and what is handed on meets no other route on the face below,
unless the same update takes it away. -/
structure FreshOnce (rib : Rib) (name : Name) (routes : List Route) (route : Route) : Prop where
  own : route.capture = true ∨ rib.records name route.faceId = 0
  handed : route.childInherit = true → AtMost route.cost (passedCost routes route.faceId) →
    (captures routes = false ∧ route.capture = true ∧ rib.content.inherited route.faceId name ≠ none) ∨
      Unrecorded rib name route.faceId

/-- Other values for a route: the capture flag stays, what is handed on meets no other route below, and
where the route is no longer passed on, no route from above comes past a capturing one. -/
structure UpdatedOnce (rib : Rib) (name : Name) (updated : List Route) (route existing : Route) : Prop where
  capture : route.capture = existing.capture
  handed : route.childInherit = true → AtMost route.cost (passedCost updated route.faceId) →
    (existing.childInherit = true → route.cost ≠ existing.cost) → Unrecorded rib name route.faceId
  dropped : existing.childInherit = true → route.childInherit = false → passedCost updated route.faceId = none →
    captures updated = true → rib.content.inherited route.faceId name = none

/-- The erasure of a route, with the routes that are left and the one that is read second: no route from
above comes in on a face of the entry or twice, or for an entry that is gone; and neither what comes from
above nor the route read second meets another route on its face below. -/
structure ErasedOnce (rib : Rib) (name : Name) (rest : List Route) (existing next : Route) : Prop where
  own : rest ≠ [] → captures rest = false → rib.content.inherited existing.faceId name ≠ none →
    ownCost rest existing.faceId = none ∧ existing.capture = false
  last : rest = [] → existing.capture = true → ∀ face, rib.content.inherited face name = none
  handed : existing.childInherit = true ∨ existing.capture = true → captures rest = false → ∀ face,
    rib.content.inherited face name ≠ none →
      (existing.childInherit = true ∧ face = existing.faceId) ∨ Unrecorded rib name face
  second : ownCost rest existing.faceId ≠ none → next.childInherit = true →
    AtMost next.cost (passedCost rest next.faceId) →
      passedCost rest next.faceId ≠ none ∧
      (rib.content.inherited next.faceId name = none ∨ captures rest = true ∨
        existing.childInherit = false ∧ existing.capture = false) ∧
      (existing.childInherit = true ∧ next.faceId = existing.faceId ∨ Unrecorded rib name next.faceId)

/-- The updates that hand every route on once. -/
def RibState.HandsOnce (readSecond : List Route → Route) (state : RibState) : RibUpdate → Prop
  | .register name route =>
    match state.rib.find name with
    | none => route.childInherit = true → route.capture = false → ∀ face,
        state.rib.content.inherited face name ≠ none → Unrecorded state.rib name face
    | some entry =>
      match entry.findRoute route with
      | none => FreshOnce state.rib name entry.routes route
      | some existing => UpdatedOnce state.rib name (updateRoute entry.routes route) route existing
  | .unregister name route | .removeFace name route => ∀ entry existing, state.rib.find name = some entry →
      entry.findRoute route = some existing → ErasedOnce state.rib name (entry.eraseRoute route).routes existing
        (readSecond (entry.routes.filter fun other => other.faceId == route.faceId))

section
variable {rib : Rib} {name : Name} {entry : RibEntry} {route existing : Route}

private theorem toList_length_le (route : Option Route) : route.toList.length ≤ 1 := by
  cases route with
  | none => exact Nat.zero_le 1
  | some route => exact le_rfl

/-- What is passed on is a route of the name itself, or comes from above through a name that does not
capture. -/
theorem offer_ne_none {content : Content} {routes : List Route} (stored : content name = some routes) (face : Nat) :
    content.offer face name ≠ none ↔ passedCost routes face ≠ none ∨
      captures routes = false ∧ content.inherited face name ≠ none := by
  cases passes : passedCost routes face with
  | some cost => simp [offer_of_passed stored passes]
  | none =>
    cases stops : captures routes with
    | true => simp [offer_of_captures stored passes stops]
    | false => simp [offer_of_inherited stored passes stops]

private theorem newEntry_settles (tidy : Tidy rib) (absent : rib.find name = none) {children : List Name}
    (below : ChildrenOf rib name children) (once : route.childInherit = true → route.capture = false → ∀ face,
      rib.content.inherited face name ≠ none → Unrecorded rib name face) :
    ∃ removed added, Settles rib name (rib.insert name route)
      (createFibUpdatesForNewRibEntry rib name route children) removed added := by
  have collected := getAncestorRoutesOf_spec tidy.tree tidy.counted name
  obtain ⟨spreads,own⟩ : _ ∧ ∀ face, onKey (createFibUpdatesForNewRibEntry rib name route children) name face = _ :=
    newEntry_emissions tidy.tree tidy.counted below
  have replaces : Replaces rib (rib.insert name route) name (some [route]) :=
    replaces_absent tidy.tree tidy.counted absent
  have nothing : rib.content name = none := by
    rw [Rib.content,absent]
    rfl
  have before : ∀ face, rib.content.offer face name = rib.content.inherited face name :=
    fun face => offer_of_absent nothing
  have after := offer_ne_none replaces.content
  have passed : ∀ face, passedCost [route] face =
      if route.faceId = face ∧ route.childInherit then some route.cost else none := fun face => passedCost_cons ..
  have caught : captures [route] = route.capture := by
    rw [captures_cons]
    exact Bool.or_false _
  have above : ∀ face, findFace (rib.getAncestorRoutesOf name) face ≠ none → rib.content.inherited face name ≠ none :=
    fun face => mt (collected.absent face).mpr
  refine ⟨_,_,by rw [replaces.content]; exact replaces,spreads,fun face => toList_length_le _,?_,?_,?_,?_,?_⟩
  · intro face kept adds
    rw [findFace_newEntryRemoves] at kept
    rw [Ne,Option.toList_eq_nil_iff,findFace_newEntryAdds collected.sorted] at adds
    by_cases offered : rib.content.inherited face name = none
    · exact tidy.unrecorded_of_unoffered ((before face).trans offered)
    · cases inherits : route.childInherit with
      | false => simp [inherits] at adds
      | true =>
        cases stops : route.capture with
        | true =>
          rw [if_pos stops] at kept
          exact absurd ((collected.absent face).mp kept) offered
        | false => exact once inherits stops face offered
  · intro face adds
    rw [Ne,Option.toList_eq_nil_iff,findFace_newEntryAdds collected.sorted] at adds
    rw [after,passed,caught,inherited_self replaces.agree]
    split at adds
    · rename_i inherits
      split at adds
      · rename_i same
        exact Or.inl (by simp [same,inherits])
      · split at adds
        · exact absurd rfl adds
        · rename_i free
          exact Or.inr ⟨Bool.eq_false_iff.mpr free,above face adds⟩
    · exact absurd rfl adds
  · intro face kept _ offered
    rw [findFace_newEntryRemoves] at kept
    rw [before] at offered
    rw [after,caught,inherited_self replaces.agree]
    cases stops : route.capture with
    | true =>
      rw [if_pos stops] at kept
      exact absurd ((collected.absent face).mp kept) offered
    | false => exact Or.inr ⟨rfl,offered⟩
  · intro face
    have start : (rib.insert name route).records name face = 0 := by
      rw [replaces.records (Option.some_ne_none _),Rib.records,absent]
    rw [own,start,recordsAfter_newEntryOwn collected.sorted.oneEach]
    refine ⟨_,rfl,?_⟩
    split
    · exact ⟨Nat.zero_le 1,fun positive => absurd positive (Nat.lt_irrefl 0)⟩
    · rename_i neither
      obtain ⟨different,free⟩ := not_or.mp neither
      refine ⟨toList_length_le _,?_⟩
      intro positive
      refine ⟨⟨[route],replaces.content,caught.trans (Bool.eq_false_iff.mpr free),?_⟩,?_⟩
      · rw [ownCost_cons,if_neg different]
        rfl
      · rw [inherited_self replaces.agree]
        apply above
        intro none
        rw [none] at positive
        cases positive
  · intro gone
    rw [replaces.content] at gone
    cases gone

private theorem newRoute_settles (tidy : Tidy rib) (found : rib.find name = some entry) (fresh : entry.findRoute route = none)
    (once : FreshOnce rib name entry.routes route) :
    ∃ removed added, Settles rib name (rib.insert name route)
      (createFibUpdatesForNewRoute rib entry route (!entry.hasCapture && route.capture)) removed added := by
  have collected := getAncestorRoutes_spec tidy.tree tidy.counted found
  have replaces := replaces_fresh tidy.tree tidy.counted found fresh
  have perm : (entry.routes ++ [route]).Perm (route :: entry.routes) := List.perm_append_singleton route entry.routes
  have before := offer_ne_none (content_find found)
  have after := offer_ne_none replaces.content
  have passed : ∀ face, passedCost (entry.routes ++ [route]) face = if route.faceId = face ∧ route.childInherit
      then some ((passedCost entry.routes face).elim route.cost (min route.cost)) else passedCost entry.routes face :=
    passedCost_changed perm
  have caught : captures (entry.routes ++ [route]) = (route.capture || captures entry.routes) := captures_perm perm
  rw [hasCapture_eq tidy.counted found]
  obtain ⟨spreads,own⟩ : _ ∧ ∀ face, onKey (createFibUpdatesForNewRoute rib entry route
      (!captures entry.routes && route.capture)) name face = _ :=
    newRoute_emissions tidy.tree tidy.counted (Rib.find_name found) (childrenOf_entry tidy.tree found)
      (!captures entry.routes && route.capture) collected.sorted.oneEach
  refine ⟨_,_,by rw [replaces.content]; exact replaces,spreads,fun face => toList_length_le _,?_,?_,?_,?_,?_⟩
  · intro face kept adds
    rw [Ne,Option.toList_eq_nil_iff] at adds
    split at adds
    · rename_i all
      obtain ⟨rfl,inherits,least⟩ := all
      rcases once.handed inherits least with ⟨free,stops,offered⟩ | unrecorded
      · rw [free,stops] at kept
        exact absurd ((collected.absent route.faceId).mp kept) offered
      · exact unrecorded
    · exact absurd rfl adds
  · intro face adds
    rw [Ne,Option.toList_eq_nil_iff] at adds
    split at adds
    · rename_i all
      rw [after,passed,if_pos ⟨all.1,all.2.1⟩]
      exact Or.inl (Option.some_ne_none _)
    · exact absurd rfl adds
  · intro face kept _ offered
    rw [after,passed,caught,inherited_self replaces.agree]
    rcases (before face).mp offered with passes | ⟨free,inherited⟩
    · left
      split
      · exact Option.some_ne_none _
      · exact passes
    · cases stops : route.capture with
      | true =>
        rw [free,stops] at kept
        exact absurd ((collected.absent face).mp kept) inherited
      | false => exact Or.inr ⟨by rw [free]; rfl,inherited⟩
  · intro face
    have single := tidy.single name face
    rw [own,replaces.records (Option.some_ne_none _),recordsAfter_newRoute found]
    refine ⟨_,rfl,(Nat.sub_le _ _).trans single,?_⟩
    intro positive
    obtain ⟨unstopped,without,offered⟩ :=
      tidy.inherits_entry found (Nat.lt_of_lt_of_le positive (Nat.sub_le _ _))
    obtain ⟨above,held⟩ := Option.ne_none_iff_exists'.mp (mt (collected.absent face).mp offered)
    have free : route.capture = false := by
      cases stops : route.capture with
      | false => rfl
      | true =>
        rw [unstopped,stops,held,if_pos ⟨rfl,rfl⟩] at positive
        omega
    rw [free,Bool.and_false,if_neg (fun both => Bool.noConfusion both.1),Nat.sub_zero] at positive
    have different : route.faceId ≠ face := by
      rintro rfl
      have none_here := once.own.resolve_left (by rw [free]; exact Bool.noConfusion)
      omega
    refine ⟨⟨_,replaces.content,?_,?_⟩,?_⟩
    · rw [caught,free,unstopped]
      rfl
    · rw [ownCost_perm perm,ownCost_cons,if_neg different]
      exact without
    · rw [inherited_self replaces.agree]
      exact offered
  · intro gone
    rw [replaces.content] at gone
    cases gone

private theorem updatesForCost_hops {updated : List Route} {own : List Emission} (named : entry.name = name)
    (costs : (if route.cost ≠ existing.cost then updatesForCost {entry with routes := updated} route existing
      else some []) = some own) : ∀ emission ∈ own, emission.name = name ∧ emission.isRecord = false := by
  intro emission inside
  split at costs
  · unfold updatesForCost at costs
    split at costs
    · cases costs
    · split at costs
      · cases costs
        rw [List.mem_singleton.mp inside]
        exact ⟨named,rfl⟩
      · split at costs
        · obtain ⟨previous,-,rfl⟩ := Option.map_eq_some_iff.mp costs
          rw [List.mem_singleton.mp inside]
          exact ⟨named,rfl⟩
        · cases costs
          cases inside
  · cases costs
    cases inside

/-- An update that leaves the faces of the entry and its capture flags as they are, and its inherited routes. -/
private theorem kept_ownRecords (tidy : Tidy rib) (found : rib.find name = some entry) {changed : Rib}
    {updated : List Route} (replaces : Replaces rib changed name (some updated))
    (costs : ∀ face, ownCost entry.routes face = none → ownCost updated face = none)
    (caught : captures updated = captures entry.routes) {emissions : List Emission}
    (hops : ∀ face, ∀ emission ∈ onKey emissions name face, emission.isRecord = false) (face : Nat) :
    ∃ left, recordsAfter (onKey emissions name face) (changed.records name face) = some left ∧ left ≤ 1 ∧
      (0 < left → Inherits changed.content name face) := by
  rw [recordsAfter_of_hops (hops face),replaces.records (Option.some_ne_none _)]
  refine ⟨_,rfl,tidy.single name face,?_⟩
  intro positive
  obtain ⟨free,without,offered⟩ := tidy.inherits_entry found positive
  refine ⟨⟨updated,replaces.content,caught.trans free,costs face without⟩,?_⟩
  rw [inherited_self replaces.agree]
  exact offered

private theorem ownCost_updated {routes updated rest : List Route} (old : routes.Perm (existing :: rest))
    (new : updated.Perm (route :: rest)) (face : existing.faceId = route.faceId) (other : Nat)
    (without : ownCost routes other = none) : ownCost updated other = none := by
  rw [ownCost_perm old,ownCost_cons] at without
  rw [ownCost_perm new,ownCost_cons]
  by_cases same : route.faceId = other
  · rw [if_pos (face.trans same)] at without
    cases without
  · rw [if_neg fun equal => same (face.symm.trans equal)] at without
    rw [if_neg same]
    exact without

/-- What was passed on still is, unless it was the route and no longer is. -/
private theorem updated_offers {changed : Rib} {routes updated rest : List Route}
    (old : routes.Perm (existing :: rest)) (new : updated.Perm (route :: rest))
    (face : existing.faceId = route.faceId) (replaces : Replaces rib changed name (some updated))
    (stored : rib.content name = some routes) (capture : route.capture = existing.capture) (other : Nat)
    (kept : other ≠ route.faceId ∨ (existing.childInherit = true → route.childInherit = true))
    (offered : rib.content.offer other name ≠ none) : changed.content.offer other name ≠ none := by
  have caught := captures_changed old new capture
  rw [offer_ne_none replaces.content,passedCost_changed new,caught,inherited_self replaces.agree]
  rw [offer_ne_none stored,passedCost_changed old] at offered
  apply offered.imp_left
  intro passes
  split
  · exact Option.some_ne_none _
  · rename_i unpassed
    rw [if_neg] at passes
    · exact passes
    · rintro ⟨here,inherited⟩
      have same : route.faceId = other := face.symm.trans here
      exact unpassed ⟨same,kept.resolve_left (not_not.mpr same.symm) inherited⟩

private theorem updatedRoute_costs {updated : List Route} {emissions : List Emission}
    (computed : createFibUpdatesForUpdatedRoute rib {entry with routes := updated} route existing = some emissions) :
    ∃ own, (if route.cost ≠ existing.cost then updatesForCost {entry with routes := updated} route existing
      else some []) = some own := by
  by_cases moved : route.cost ≠ existing.cost
  · unfold createFibUpdatesForUpdatedRoute at computed
    have early : (route.cost == existing.cost) = false := beq_eq_false_iff_ne.mpr moved
    simp only [early,Bool.and_false,Bool.false_eq_true,if_false,if_pos moved,Option.bind_eq_bind] at computed
    obtain ⟨own,costs,-⟩ := Option.bind_eq_some_iff.mp computed
    exact ⟨own,(if_pos moved).trans costs⟩
  · exact ⟨[],if_neg moved⟩

private theorem updatedRoute_settles (tidy : Tidy rib) (found : rib.find name = some entry)
    (present : entry.findRoute route = some existing)
    (once : UpdatedOnce rib name (updateRoute entry.routes route) route existing) {emissions : List Emission}
    (computed : createFibUpdatesForUpdatedRoute rib {entry with routes := updateRoute entry.routes route} route existing =
      some emissions) :
    ∃ removed added, Settles rib name (rib.insert name route) emissions removed added := by
  have collected := getAncestorRoutes_spec tidy.tree tidy.counted found
  have below := childrenOf_entry tidy.tree found
  have face := findRoute_face present
  have old : entry.routes.Perm (existing :: entry.routes.eraseP fun other => other.same route) := perm_eraseP present
  have new : (updateRoute entry.routes route).Perm (route :: entry.routes.eraseP fun other => other.same route) :=
    perm_updateRoute present
  have replaces := replaces_present tidy.tree tidy.counted found present once.capture
  have after := offer_ne_none replaces.content
  have caught := captures_changed old new once.capture
  have ownCosts := ownCost_updated old new face
  have still := updated_offers old new face replaces (content_find found) once.capture
  obtain ⟨own,costs⟩ := updatedRoute_costs computed
  have hops := updatesForCost_hops (Rib.find_name found) costs
  rw [updatedRoute_eq costs,Option.some.injEq] at computed
  have ownHops : ∀ told : List Emission, (∀ other, onKey told name other = []) → ∀ other,
      ∀ emission ∈ onKey (own ++ told) name other, emission.isRecord = false := by
    intro told nothing other emission inside
    rw [onKey_append,nothing,List.append_nil] at inside
    exact (hops emission (List.mem_of_mem_filter inside)).2
  have ownPresent : ∀ told : List Emission, (rib.insert name route).content name = none →
      ∀ emission ∈ told, emission.name = name → emission.isRecord = false := by
    intro told gone
    rw [replaces.content] at gone
    cases gone
  rw [← computed]
  rcases updatedRoute_cases (updateRoute entry.routes route) once.capture rfl with
    ⟨told,kept,-⟩ | ⟨told,inherits,least,moved⟩ | ⟨inherited,keeps,added,told,known⟩
  · rw [told]
    refine ⟨fun _ => none,fun _ => [],by rw [replaces.content]; exact replaces,?_,fun _ => Nat.zero_le 1,
      fun _ _ adds => absurd rfl adds,fun _ adds => absurd rfl adds,fun other _ _ => still other (Or.inr kept),?_,
      ownPresent _⟩
    · exact (spreads_own fun _ inside => absurd inside List.not_mem_nil).after_own fun emission inside =>
        (hops emission inside).1
    · exact kept_ownRecords tidy found replaces ownCosts caught (ownHops [] fun _ => rfl)
  · rw [told]
    have here : ∀ other, (findFace [route] other).toList ≠ [] → route.faceId = other := by
      intro other adds
      rw [findFace_singleton] at adds
      by_contra different
      rw [if_neg different] at adds
      exact adds rfl
    refine ⟨fun _ => none,fun other => (findFace [route] other).toList,by rw [replaces.content]; exact replaces,?_,
      fun other => toList_length_le _,?_,?_,fun other _ _ => still other (Or.inr fun _ => inherits),?_,ownPresent _⟩
    · exact (modifyChildrens_spreads tidy.tree tidy.counted below (oneEach_singleton route) oneEach_nil).after_own
        fun emission inside => (hops emission inside).1
    · intro other _ adds
      rw [← here other adds]
      exact once.handed inherits least moved
    · intro other adds
      rw [← here other adds,after,passedCost_of_least new inherits least]
      exact Or.inl (Option.some_ne_none _)
    · exact kept_ownRecords tidy found replaces ownCosts caught
        (ownHops _ (onKey_modifyChildrens tidy.tree tidy.counted below (oneEach_singleton route) oneEach_nil))
  · rw [told]
    have oneAdd : OneEach added.toList := by
      cases added with
      | none => exact oneEach_nil
      | some other => exact oneEach_singleton other
    have here : ∀ other, (findFace added.toList other).toList ≠ [] → route.faceId = other ∧
        (rib.insert name route).content.offer route.faceId name ≠ none := by
      intro other adds
      rw [Ne,Option.toList_eq_nil_iff] at adds
      obtain ⟨taken,gained⟩ := Option.ne_none_iff_exists'.mp adds
      obtain ⟨inside,named⟩ := findFace_some gained
      have adds := Option.mem_toList.mp inside
      rw [after,inherited_self replaces.agree]
      rcases known with ⟨previous,only,same,passes⟩ | ⟨unpassed,only⟩
      · rw [only] at adds
        rw [passes,← same,Option.some.inj adds,named]
        exact ⟨rfl,Or.inl (Option.some_ne_none _)⟩
      · rw [only] at adds
        have above : rib.content.inherited route.faceId name ≠ none := by
          apply mt (collected.absent route.faceId).mpr
          rw [adds]
          exact Option.some_ne_none _
        refine ⟨(findFace_some adds).2.symm.trans named,Or.inr ⟨Bool.eq_false_iff.mpr ?_,above⟩⟩
        intro stops
        exact above (once.dropped inherited keeps unpassed stops)
    refine ⟨findFace [route],fun other => (findFace added.toList other).toList,
      by rw [replaces.content]; exact replaces,?_,fun other => toList_length_le _,?_,?_,?_,?_,ownPresent _⟩
    · exact (modifyChildrens_spreads tidy.tree tidy.counted below oneAdd (oneEach_singleton route)).after_own
        fun emission inside => (hops emission inside).1
    · intro other kept adds
      rw [findFace_singleton,if_pos (here other adds).1] at kept
      cases kept
    · intro other adds
      rw [← (here other adds).1]
      exact (here other adds).2
    · intro other kept _
      apply still other
      left
      intro same
      rw [findFace_singleton,if_pos same.symm] at kept
      cases kept
    · exact kept_ownRecords tidy found replaces ownCosts caught
        (ownHops _ (onKey_modifyChildrens tidy.tree tidy.counted below oneAdd (oneEach_singleton route)))

private theorem nextAdded_some {rest : List Route} {second : Option Route} {next : Route} {face : Nat}
    (isSecond : second = if ownCost rest existing.faceId = none then none else some next)
    (adds : nextAdded second rest face ≠ none) :
    next.faceId = face ∧ ownCost rest existing.faceId ≠ none ∧ next.childInherit = true ∧
      AtMost next.cost (passedCost rest face) := by
  obtain ⟨taken,added⟩ := Option.ne_none_iff_exists'.mp adds
  rw [nextAdded,Option.filter_eq_some_iff] at added
  obtain ⟨read,all⟩ := added
  rw [isSecond] at read
  split at read
  · cases read
  · rename_i kept
    rw [Option.some.injEq] at read
    rw [← read,decide_eq_true_eq] at all
    exact ⟨all.1,kept,all.2⟩

private theorem erased_ownRecords {erased : RibEntry} {next : Route} (tidy : Tidy rib)
    (erases : Erased rib name entry erased existing)
    (once : ErasedOnce rib name erased.routes existing next) {changed : Content}
    (agree : Content.AgreeOff rib.content changed name) (after : changed name = some erased.routes)
    (some_left : erased.routes ≠ []) (second : Option Route) (face : Nat) :
    ∃ left, recordsAfter (erasedOwn erased existing (rib.getAncestorRoutes entry) face ++
        nextOwn name second erased.routes face) (rib.records name face) = some left ∧
      left ≤ 1 ∧ (0 < left → Inherits changed name face) := by
  have collected := getAncestorRoutes_spec tidy.tree tidy.counted erases.found
  have single := tidy.single name face
  have length := toList_length_le (findFace (rib.getAncestorRoutes entry) face)
  have above : 0 < (findFace (rib.getAncestorRoutes entry) face).toList.length → rib.content.inherited face name ≠ none := by
    intro positive missing
    rw [(collected.absent face).mpr missing] at positive
    cases positive
  have inherits : captures erased.routes = false → ownCost erased.routes face = none →
      rib.content.inherited face name ≠ none → Inherits changed name face := by
    intro free without offered
    refine ⟨⟨_,after,free,without⟩,?_⟩
    rw [inherited_self agree]
    exact offered
  refine ⟨_,recordsAfter_erasedOwn ..,?_⟩
  cases stops : captures erased.routes with
  | true =>
    have caught : captures entry.routes = true := by
      rw [erases.captures_eq,stops]
      exact Bool.or_true _
    rw [tidy.records_own erases.found (Or.inr caught)]
    simp
  | false =>
    by_cases same : existing.faceId = face
    · have owned : ownCost entry.routes face ≠ none := by
        rw [ownCost_perm erases.perm,ownCost_cons,if_pos same]
        exact Option.some_ne_none _
      rw [tidy.records_own erases.found (Or.inl owned),Nat.zero_add]
      by_cases offered : rib.content.inherited face name = none
      · rw [(collected.absent face).mpr offered]
        simp
      · obtain ⟨without,free⟩ := once.own some_left stops (same ▸ offered)
        rw [free]
        simp only [Bool.false_eq_true,false_and,if_false,Nat.zero_add]
        rw [if_pos (⟨same,trivial,some_left⟩ : existing.faceId = face ∧ _ ∧ _)]
        exact ⟨length,fun _ => inherits stops (same ▸ without) offered⟩
    · simp only [same,false_and,if_false,Nat.add_zero,true_and]
      cases off : existing.capture with
      | true =>
        have caught : captures entry.routes = true := by
          rw [erases.captures_eq,off]
          rfl
        rw [tidy.records_own erases.found (Or.inr caught),Nat.zero_add]
        split
        · rename_i both
          exact ⟨length,fun positive => inherits stops both.2 (above positive)⟩
        · exact ⟨Nat.zero_le 1,fun positive => absurd positive (Nat.lt_irrefl 0)⟩
      | false =>
        rw [if_neg (by simp)]
        refine ⟨single,?_⟩
        intro positive
        obtain ⟨-,without,offered⟩ := tidy.inherits_entry erases.found positive
        rw [ownCost_perm erases.perm,ownCost_cons,if_neg same] at without
        exact inherits stops without offered

private theorem uncovered_some {rest : List Route}
    (collected : AncestorsOf rib.content name (rib.getAncestorRoutes entry)) {face : Nat}
    (adds : findFace (uncovered existing rest (rib.getAncestorRoutes entry)) face ≠ none) :
    (existing.childInherit = true ∨ existing.capture = true) ∧ captures rest = false ∧
      rib.content.inherited face name ≠ none := by
  rw [findFace_uncovered] at adds
  split at adds
  · rename_i both
    rw [Bool.and_eq_true,Bool.or_eq_true,Bool.not_eq_true'] at both
    exact ⟨both.1,both.2,mt (collected.absent face).mpr adds⟩
  · exact absurd rfl adds

private theorem toList_append_ne_nil {first second : Option Route} (adds : first.toList ++ second.toList ≠ []) :
    first ≠ none ∨ second ≠ none := by
  by_contra neither
  rw [not_or,not_not,not_not] at neither
  rw [neither.1,neither.2] at adds
  exact adds rfl

/-- What comes from above and the route read second are not added below on the same face. -/
private theorem erased_addsOne {rest : List Route} {second : Option Route} {next : Route}
    (collected : AncestorsOf rib.content name (rib.getAncestorRoutes entry))
    (isSecond : second = if ownCost rest existing.faceId = none then none else some next)
    (once : ErasedOnce rib name rest existing next) {face : Nat} :
    ((findFace (uncovered existing rest (rib.getAncestorRoutes entry)) face).toList ++
      (nextAdded second rest face).toList).length ≤ 1 := by
  rw [List.length_append]
  have first := toList_length_le (findFace (uncovered existing rest (rib.getAncestorRoutes entry)) face)
  have later := toList_length_le (nextAdded second rest face)
  by_cases covers : findFace (uncovered existing rest (rib.getAncestorRoutes entry)) face = none
  · rw [covers,Option.toList_none,List.length_nil]
    omega
  by_cases reads : nextAdded second rest face = none
  · rw [reads,Option.toList_none,List.length_nil]
    omega
  obtain ⟨either,free,offered⟩ := uncovered_some collected covers
  obtain ⟨here,kept,inherits,least⟩ := nextAdded_some isSecond reads
  rw [← here] at least offered
  rcases (once.second kept inherits least).2.1 with none_above | stops | ⟨keeps,uncaught⟩
  · exact absurd none_above offered
  · rw [free] at stops
    cases stops
  · rw [keeps,uncaught] at either
    rcases either with impossible | impossible <;> cases impossible

private theorem erased_settles {erased : RibEntry} {changed : Rib} {second : Option Route} {next : Route}
    (tidy : Tidy rib) (erases : Erased rib name entry erased existing)
    (replaces : Replaces rib changed name (left erased.routes))
    (isSecond : second = if ownCost erased.routes existing.faceId = none then none else some next)
    (once : ErasedOnce rib name erased.routes existing next) :
    ∃ removed added, Settles rib name changed (unregistrationEmissions rib entry erased existing second)
      removed added := by
  have collected := getAncestorRoutes_spec tidy.tree tidy.counted erases.found
  have before := offer_ne_none (content_find erases.found)
  have after := offer_left replaces.agree replaces.content
  obtain ⟨spreads,own⟩ := unregistration_emissions tidy.tree tidy.counted erases second
  have single : entry.routes.length = 1 ↔ erased.routes = [] := by
    rw [erases.perm.length_eq,List.length_cons,← List.length_eq_zero_iff]
    omega
  have hops : erased.routes = [] → ∀ face, ∀ emission ∈ onKey (unregistrationEmissions rib entry erased existing second)
      name face, emission.isRecord = false :=
    fun gone => unregistration_hops tidy.tree tidy.counted erases gone (once.last gone) second
  have kept : erased.routes ≠ [] → changed.content name = some erased.routes := by
    intro some_left
    rw [replaces.content,left,if_neg (by simpa using some_left)]
  refine ⟨_,_,by rw [replaces.content]; exact replaces,spreads,fun _ => erased_addsOne collected isSecond once,
    ?_,?_,?_,?_,?_⟩
  · intro face unremoved adds
    have unwithdrawn : ¬(existing.childInherit = true ∧ face = existing.faceId) := by
      rintro ⟨inherits,same⟩
      rw [findFace_withdrawn,if_pos ⟨inherits,same.symm⟩] at unremoved
      cases unremoved
    rcases toList_append_ne_nil adds with covers | reads
    · obtain ⟨either,free,offered⟩ := uncovered_some collected covers
      exact (once.handed either free face offered).resolve_left unwithdrawn
    · obtain ⟨here,held,inherits,least⟩ := nextAdded_some isSecond reads
      rw [← here] at least unwithdrawn ⊢
      exact (once.second held inherits least).2.2.resolve_left unwithdrawn
  · intro face adds
    rw [after]
    rcases toList_append_ne_nil adds with covers | reads
    · obtain ⟨-,free,offered⟩ := uncovered_some collected covers
      split
      · exact Option.some_ne_none _
      · rw [free]
        exact offered
    · obtain ⟨here,held,inherits,least⟩ := nextAdded_some isSecond reads
      rw [← here] at least ⊢
      obtain ⟨cost,passes⟩ := Option.ne_none_iff_exists'.mp (once.second held inherits least).1
      rw [passes]
      exact Option.some_ne_none _
  · intro face unremoved _ offered
    rw [after]
    rcases (before face).mp offered with passes | ⟨free,inherited⟩
    · rw [passedCost_changed erases.perm,if_neg] at passes
      · obtain ⟨cost,still⟩ := Option.ne_none_iff_exists'.mp passes
        rw [still]
        exact Option.some_ne_none _
      · rintro ⟨same,inherits⟩
        rw [findFace_withdrawn,if_pos ⟨inherits,same⟩] at unremoved
        cases unremoved
    · rw [erases.captures_eq,Bool.or_eq_false_iff] at free
      split
      · exact Option.some_ne_none _
      · rw [free.2]
        exact inherited
  · intro face
    by_cases gone : erased.routes = []
    · have missing : changed.content name = none := by
        rw [replaces.content,left,gone]
        rfl
      have nothing : changed.records name face = 0 := by
        rw [Rib.records,Option.map_eq_none_iff.mp missing]
      rw [recordsAfter_of_hops (hops gone face),nothing]
      exact ⟨0,rfl,Nat.zero_le 1,fun positive => absurd positive (Nat.lt_irrefl 0)⟩
    · rw [own,if_neg (mt single.mp gone),onKey_nil,List.append_nil,
        replaces.records (by rw [← replaces.content,kept gone]; exact Option.some_ne_none _)]
      exact erased_ownRecords tidy erases once replaces.agree (kept gone) gone second face
  · intro absent emission inside named
    have gone : erased.routes = [] := by
      by_contra some_left
      rw [kept some_left] at absent
      cases absent
    exact hops gone emission.faceId emission (List.mem_filter.mpr ⟨inside,decide_eq_true ⟨named,rfl⟩⟩)

private theorem unregistration_settles (tidy : Tidy rib) (found : rib.find name = some entry)
    (present : entry.findRoute route = some existing) (readSecond : List Route → Route)
    (once : ErasedOnce rib name (entry.eraseRoute route).routes existing
      (readSecond (entry.routes.filter fun other => other.faceId == route.faceId))) :
    ∃ removed added, Settles rib name (rib.erase name route)
      (computeUpdatesForUnregistration readSecond rib name route) removed added := by
  have erases := eraseRoute_erased tidy.counted found present
  rw [computeUpdatesForUnregistration_eq readSecond found present]
  exact erased_settles tidy erases (replaces_erased tidy.tree tidy.counted found present)
    (second_of_lowest readSecond erases (findRoute_face present)) once

end

/-! Whole updates and runs of them. -/

section
variable {state : RibState}

private theorem register_tidy (tidy : Tidy state.rib) {readSecond : List Route → Route} {name : Name} {route : Route}
    (once : state.HandsOnce readSecond (.register name route)) {emissions : List Emission}
    (computed : computeUpdatesForRegistration state.rib name route = some emissions) :
    ∃ final, (state.rib.insert name route).modifyInheritedRoutes emissions = some final ∧ Tidy final := by
  unfold RibState.HandsOnce at once
  dsimp only at once
  unfold computeUpdatesForRegistration at computed
  cases found : state.rib.find name with
  | none =>
    rw [found] at once computed
    obtain ⟨removed,added,settles⟩ := newEntry_settles tidy found (childrenOf_nonInserted tidy.tree found) once
    rw [← Option.some.inj computed]
    exact settles.tidy tidy
  | some entry =>
    rw [found] at once computed
    dsimp only at once computed
    cases present : entry.findRoute route with
    | none =>
      rw [present] at once computed
      obtain ⟨removed,added,settles⟩ := newRoute_settles tidy found present once
      rw [← Option.some.inj computed]
      exact settles.tidy tidy
    | some existing =>
      rw [present] at once computed
      obtain ⟨removed,added,settles⟩ := updatedRoute_settles tidy found present once computed
      exact settles.tidy tidy

private theorem erase_tidy (tidy : Tidy state.rib) {readSecond : List Route → Route} {name : Name} {route : Route}
    (once : state.HandsOnce readSecond (.unregister name route)) :
    ∃ final, (state.rib.erase name route).modifyInheritedRoutes
      (computeUpdatesForUnregistration readSecond state.rib name route) = some final ∧ Tidy final := by
  by_cases present : ∃ entry existing, state.rib.find name = some entry ∧ entry.findRoute route = some existing
  · obtain ⟨entry,existing,found,held⟩ := present
    obtain ⟨removed,added,settles⟩ :=
      unregistration_settles tidy found held readSecond (once entry existing found held)
    exact settles.tidy tidy
  · obtain ⟨nothing,same⟩ := unregistration_absent readSecond
      fun entry existing found held => present ⟨entry,existing,found,held⟩
    rw [nothing,same]
    exact ⟨state.rib,rfl,tidy⟩

/-- The inherited routes that an update computes can be changed, and are in order afterwards. -/
theorem change_tidy (tidy : Tidy state.rib) {readSecond : List Route → Route} {update : RibUpdate}
    (once : state.HandsOnce readSecond update) {emissions : List Emission}
    (computed : update.emissions readSecond state.rib = some emissions) :
    ∃ final, (update.change state.rib).modifyInheritedRoutes emissions = some final ∧ Tidy final := by
  cases update with
  | register name route => exact register_tidy tidy once computed
  | unregister name route =>
    rw [← Option.some.inj computed]
    exact erase_tidy tidy once
  | removeFace name route =>
    rw [← Option.some.inj computed]
    exact erase_tidy tidy once

end

/-- The inherited routes of an entry: at most one for each face, none on a face of the entry itself, and
none at all beside a capturing route. -/
structure RibEntry.InheritsOnce (entry : RibEntry) : Prop where
  single : ∀ face, entry.inheritedRoutes.countP (fun route => route.faceId == face) ≤ 1
  unowned : ∀ route ∈ entry.inheritedRoutes, entry.hasFaceId route.faceId = false
  uncaptured : (∃ route ∈ entry.routes, route.capture = true) → entry.inheritedRoutes = []

/-- Every removal finds an inherited route on its face in the entry when its turn comes. -/
def RemovalsFound (rib : Rib) (emissions : List Emission) : Prop :=
  ∀ earlier later name route, emissions = earlier ++ .removeInheritedRoute name route :: later →
    ∃ reached entry, rib.modifyInheritedRoutes earlier = some reached ∧ reached.find name = some entry ∧
      entry.hasInheritedRoute route = true

theorem Tidy.inheritsOnce {rib : Rib} (tidy : Tidy rib) {name : Name} {entry : RibEntry}
    (found : rib.find name = some entry) : entry.InheritsOnce := by
  have recorded : ∀ route ∈ entry.inheritedRoutes, rib.records name route.faceId ≠ 0 := by
    intro route inside
    rw [records_find found,Ne,List.countP_eq_zero]
    intro nothing
    exact nothing route inside (beq_self_eq_true _)
  refine ⟨?_,?_,?_⟩
  · intro face
    rw [← records_find found]
    exact tidy.single name face
  · intro route inside
    rw [hasFaceId_iff]
    by_contra own
    exact recorded route inside (tidy.records_own found (Or.inl own))
  · intro captured
    apply List.eq_nil_iff_forall_not_mem.mpr
    intro route inside
    exact recorded route inside (tidy.records_own found (Or.inr (List.any_eq_true.mpr captured)))

private theorem removalsFound_of_applied {rib final : Rib} {emissions : List Emission}
    (applied : rib.modifyInheritedRoutes emissions = some final) : RemovalsFound rib emissions := by
  rintro earlier later name route rfl
  rw [Rib.modifyInheritedRoutes,List.foldlM_append] at applied
  obtain ⟨reached,before,rest⟩ := Option.bind_eq_some_iff.mp applied
  rw [List.foldlM_cons] at rest
  obtain ⟨next,removed,-⟩ := Option.bind_eq_some_iff.mp rest
  unfold Rib.modifyInheritedRoute at removed
  dsimp only at removed
  cases found : reached.find name with
  | none =>
    rw [found] at removed
    cases removed
  | some entry =>
    rw [found] at removed
    dsimp only at removed
    split at removed
    · rename_i held
      exact ⟨reached,entry,before,found,held⟩
    · cases removed

private theorem empty_tidy : Tidy Rib.empty := by
  refine ⟨Rib.empty_tree,empty_consistent.counted,fun _ _ => Nat.zero_le 1,?_⟩
  intro name face positive
  cases positive

private theorem inherited_top {content : Content} (nothing : content [] = none) (face : Nat) :
    content.inherited face [[97]] = none := by
  show content.above face [[97]] 1 = none
  rw [Content.above,show Name.getPrefix [[97]] 0 = [] from rfl,nothing]
  rfl

end Ncfcc.Nfd
