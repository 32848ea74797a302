import Ncfcc.Nfd.Rib.Effect

/-! The next hops that the RIB calls for, and what an update that changes one entry has to
emit to keep them installed. -/
namespace Ncfcc.Nfd
open FibUpdater

/-- The next hops of the RIB entries computed from scratch; a face that is gone has none. -/
def RibState.expected (state : RibState) (name : Name) (face : Nat) : Option Nat :=
  if face ∈ state.destroyed then none else state.rib.content.nextHop face name

/-- What an entry inherits without a route of its own on the face. -/
structure Inherits (content : Content) (name : Name) (face : Nat) : Prop where
  entry : ∃ routes, content name = some routes ∧ captures routes = false ∧ ownCost routes face = none
  offered : content.inherited face name ≠ none

structure Consistent (state : RibState) : Prop where
  tree : state.rib.Tree
  counted : Counted state.rib
  hops : ∀ name face, state.fib name face = state.expected name face
  recorded : ∀ name face, face ∉ state.destroyed → Inherits state.rib.content name face →
    0 < state.rib.records name face

/-- No entry that a descent from the name reaches has both a route of its own on the face and an
inherited one that was not taken away when the entry was given its own. -/
def NoLeftover (rib : Rib) (name : Name) (face : Nat) : Prop :=
  ∀ below routes, Reaches rib name face below → rib.content below = some routes → ownCost routes face ≠ none →
    rib.records below face = 0

/-- The routes removed and added below a name turn what was passed on into what is. -/
def Handed (removed : Option Route) (added : List Route) (before after : Option Nat) : Prop :=
  match added.getLast? with
  | some route => after = some route.cost
  | none => if removed.isSome then after = none else after = before

theorem handed_iff {removed added : Option Route} {before after : Option Nat} :
    Handed removed added.toList before after ↔
      (∀ route, added = some route → after = some route.cost) ∧
        (added = none → removed ≠ none → after = none) ∧ (added = none → removed = none → after = before) := by
  cases added with
  | some route => simp [Handed]
  | none =>
    cases removed with
    | some route => simp [Handed]
    | none => simp [Handed]

/-- An update of one entry with emissions that fit it. -/
structure Fits (state : RibState) (name : Name) (changed : Rib) (emissions : List Emission)
    (removed : Nat → Option Route) (added : Nat → List Route) (destroyed : List Nat) : Prop where
  tree : changed.Tree
  counted : Counted changed
  content : Content.AgreeOff state.rib.content changed.content name
  kept : ∀ other face, other ≠ name → changed.records other face = state.rib.records other face
  lost : ∀ face, face ∉ destroyed → face ∉ state.destroyed
  spreads : Spreads state.rib name emissions removed added
  handed : ∀ face, face ∉ destroyed → Handed (removed face) (added face) (state.rib.content.offer face name)
    (changed.content.offer face name)
  noLeftover : ∀ face, face ∉ destroyed → (removed face).isSome → NoLeftover state.rib name face
  ownHop : ∀ face, face ∉ destroyed →
    hopAfter (onKey emissions name face) (state.rib.content.nextHop face name) = changed.content.nextHop face name
  ownRecords : ∀ face, ∃ left, recordsAfter (onKey emissions name face) (changed.records name face) = some left ∧
    (face ∉ destroyed → Inherits changed.content name face → 0 < left)
  ownPresent : changed.content name = none → ∀ emission ∈ emissions, emission.name = name → emission.isRecord = false

theorem passedCost_of_ownCost {routes : List Route} {face : Nat} (nothing : ownCost routes face = none) :
    passedCost routes face = none := by
  rw [ownCost_eq_none,List.any_eq_false] at nothing
  rw [passedCost_eq_none,List.any_eq_false]
  intro route inside both
  rw [Bool.and_eq_true] at both
  exact nothing route inside both.1

theorem hasFaceId_iff {entry : RibEntry} {face : Nat} : entry.hasFaceId face = false ↔ ownCost entry.routes face = none :=
  ownCost_eq_none.symm

/-! Reading the entries off their core. -/

theorem content_core (rib : Rib) (name : Name) : rib.content name = (rib.core name).map fun core => core.1 := by
  rw [Rib.content,Rib.core,Option.map_map]
  rfl

theorem records_core (rib : Rib) (name : Name) (face : Nat) :
    rib.records name face =
      ((rib.core name).map fun core => core.2.1.countP fun route => route.faceId == face).getD 0 := by
  rw [Rib.records,Rib.core]
  cases rib.find name <;> rfl

theorem counted_core {rib : Rib} : Counted rib ↔ ∀ name routes inherited count,
    rib.core name = some (routes,inherited,count) → count = routes.countP Route.capture := by
  constructor
  · intro counted name routes inherited count held
    obtain ⟨entry,found,same⟩ := Option.map_eq_some_iff.mp held
    obtain ⟨rfl,-,rfl⟩ : entry.routes = routes ∧ entry.inheritedRoutes = inherited ∧
        entry.nRoutesWithCaptureSet = count := by simpa using same
    exact counted name entry found
  · intro counts name entry found
    exact counts name entry.routes entry.inheritedRoutes entry.nRoutesWithCaptureSet (Rib.core_find found)

section
variable {rib changed : Rib} {name : Name}

theorem agreeOff_core (others : ∀ other, other ≠ name → changed.core other = rib.core other) :
    Content.AgreeOff rib.content changed.content name := by
  intro other different
  rw [content_core,content_core,others other different]

theorem kept_core (others : ∀ other, other ≠ name → changed.core other = rib.core other) (other : Name) (face : Nat)
    (different : other ≠ name) : changed.records other face = rib.records other face := by
  rw [records_core,records_core,others other different]

theorem counted_change (counted : Counted rib) (others : ∀ other, other ≠ name → changed.core other = rib.core other)
    (own : ∀ routes inherited count, changed.core name = some (routes,inherited,count) →
      count = routes.countP Route.capture) : Counted changed := by
  rw [counted_core] at counted ⊢
  intro other
  by_cases same : other = name
  · rw [same]
    exact own
  · rw [others other same]
    exact counted other

end

/-- A change of the routes of one entry, which comes or goes with its first or last route. -/
structure Replaces (rib changed : Rib) (name : Name) (after : Option (List Route)) : Prop where
  tree : changed.Tree
  counted : Counted changed
  agree : Content.AgreeOff rib.content changed.content name
  kept : ∀ other face, other ≠ name → changed.records other face = rib.records other face
  content : changed.content name = after
  records : after ≠ none → ∀ face, changed.records name face = rib.records name face

theorem content_of_shape {rib changed : Rib} (shape : ∀ name, rib.shape name = changed.shape name) :
    rib.content = changed.content := by
  funext other
  have same := congrArg (Option.map Prod.fst) (shape other)
  rw [Rib.shape,Rib.shape,Option.map_map,Option.map_map] at same
  exact same

/-! What a name passes on. -/

section
variable {content : Content} {name : Name} {routes : List Route} {face : Nat}

theorem offer_of_absent (absent : content name = none) : content.offer face name = content.inherited face name := by
  rw [Content.offer,absent]

theorem offer_of_passed {cost : Nat} (stored : content name = some routes) (passes : passedCost routes face = some cost) :
    content.offer face name = some cost := by
  rw [Content.offer,stored]
  dsimp only
  rw [passes]

theorem offer_of_captures (stored : content name = some routes) (nothing : passedCost routes face = none)
    (stops : captures routes = true) : content.offer face name = none := by
  rw [Content.offer,stored]
  dsimp only
  rw [nothing,stops]
  rfl

theorem offer_of_inherited (stored : content name = some routes) (nothing : passedCost routes face = none)
    (free : captures routes = false) : content.offer face name = content.inherited face name := by
  rw [Content.offer,stored]
  dsimp only
  rw [nothing,free]
  rfl

theorem inherited_self {changed : Content} (agree : Content.AgreeOff content changed name) (face : Nat) :
    changed.inherited face name = content.inherited face name :=
  Content.inherited_shut agree fun _ different => absurd rfl different

end

section
variable {state : RibState} {name : Name} {changed : Rib} {emissions : List Emission}
  {removed : Nat → Option Route} {added : Nat → List Route} {destroyed : List Nat}

theorem inherited_cases {content changed : Content} (agree : Content.AgreeOff content changed name)
    (face : Nat) (below : Name) :
    changed.inherited face below = content.inherited face below ∨
      name <+: below ∧ below ≠ name ∧ content.OpenTo face name below below.length ∧
        content.inherited face below = content.offer face name ∧
        changed.inherited face below = changed.offer face name := by
  by_cases seen : name <+: below ∧ below ≠ name ∧ content.OpenTo face name below below.length
  · obtain ⟨isPrefix,different,isOpen⟩ := seen
    have also : changed.OpenTo face name below below.length :=
      (Content.openTo_congr agree (Nat.le_succ _)).mpr isOpen
    exact Or.inr ⟨isPrefix,different,isOpen,Content.inherited_open isPrefix different isOpen,
      Content.inherited_open isPrefix different also⟩
  · refine Or.inl (Content.inherited_shut agree ?_)
    intro isPrefix different isOpen
    exact seen ⟨isPrefix,different,isOpen⟩

theorem reaches_open {rib : Rib} {face : Nat} {below : Name} (reached : Reaches rib name face below) :
    rib.content.OpenTo face name below below.length := by
  intro size routes more less
  exact reached.2.2 size routes more (Nat.le_of_lt less)

theorem reached_self {rib : Rib} {face : Nat} {below : Name} {entry : RibEntry}
    (found : rib.find below = some entry) (reached : Reaches rib name face below) :
    passedCost entry.routes face = none ∧ captures entry.routes = false := by
  refine reached.2.2 below.length entry.routes ?_ (Nat.le_refl _) ?_
  · refine Nat.lt_of_le_of_ne reached.1.length_le ?_
    intro size
    exact reached.2.1 (reached.1.eq_of_length size).symm
  · rw [Name.getPrefix,List.take_length]
    exact content_find found

theorem blocked_of_unreached {rib : Rib} {face : Nat} {below : Name} {routes : List Route}
    (stored : rib.content below = some routes) (isPrefix : name <+: below) (different : below ≠ name)
    (isOpen : rib.content.OpenTo face name below below.length) (unreached : ¬Reaches rib name face below) :
    ownCost routes face ≠ none ∨ captures routes = true := by
  by_contra neither
  rw [not_or,not_not,Bool.not_eq_true] at neither
  refine unreached ⟨isPrefix,different,?_⟩
  intro size others more less found
  by_cases last : size = below.length
  · rw [last,Name.getPrefix,List.take_length,stored,Option.some.injEq] at found
    rw [← found]
    exact ⟨passedCost_of_ownCost neither.1,neither.2⟩
  · exact isOpen size others more (by omega) found

/-- What an entry that is reached inherits is what the name passes on, before and after a change of it. -/
theorem reached_inherited {rib : Rib} {changed : Content} {face : Nat} {below : Name}
    (agree : Content.AgreeOff rib.content changed name) (reached : Reaches rib name face below) :
    rib.content.inherited face below = rib.content.offer face name ∧
      changed.inherited face below = changed.offer face name := by
  have isOpen := reaches_open reached
  refine ⟨Content.inherited_open reached.1 reached.2.1 isOpen,Content.inherited_open reached.1 reached.2.1 ?_⟩
  exact (Content.openTo_congr agree (Nat.le_succ _)).mpr isOpen

theorem Spreads.recordsAfter_reached {rib : Rib} (spreads : Spreads rib name emissions removed added) {below : Name}
    {entry : RibEntry} {face : Nat} (found : rib.find below = some entry) (reached : Reaches rib name face below) :
    recordsAfter (onKey emissions below face) (rib.records below face) =
      some (rib.records below face - (if (removed face).isSome then 1 else 0) +
        if entry.hasFaceId face then 0 else (added face).length) := by
  rw [spreads.reached below face entry found reached,recordsAfter_append,
    recordsAfter_removed found (spreads.removedFace face),Option.bind_some,
    recordsAfter_addInheritedRoutes entry (spreads.addedFace face)]
  split <;> rfl

theorem nextHop_of_own {content : Content} {routes : List Route} {face cost : Nat} (stored : content name = some routes)
    (own : ownCost routes face = some cost) : content.nextHop face name = some cost := by
  rw [Content.nextHop,stored]
  dsimp only
  rw [own]

theorem nextHop_of_captures {content : Content} {routes : List Route} {face : Nat} (stored : content name = some routes)
    (own : ownCost routes face = none) (stops : captures routes = true) : content.nextHop face name = none := by
  rw [Content.nextHop,stored]
  dsimp only
  rw [own,stops]
  rfl

theorem nextHop_of_inherited {content : Content} {routes : List Route} {face : Nat}
    (stored : content name = some routes) (own : ownCost routes face = none) (free : captures routes = false) :
    content.nextHop face name = content.inherited face name := by
  rw [Content.nextHop,stored]
  dsimp only
  rw [own,free]
  rfl

private theorem reached_hop (consistent : Consistent state)
    (fits : Fits state name changed emissions removed added destroyed) {below : Name} {entry : RibEntry} {face : Nat}
    (found : state.rib.find below = some entry) (reached : Reaches state.rib name face below)
    (live : face ∉ destroyed) :
    hopAfter (onKey emissions below face) (state.rib.content.nextHop face below) =
      changed.content.nextHop face below := by
  have stored := content_find found
  have kept : changed.content below = some entry.routes := (fits.content below reached.2.1).trans stored
  have free := (reached_self found reached).2
  obtain ⟨before,after⟩ := reached_inherited fits.content reached
  rw [fits.spreads.reached below face entry found reached,hopAfter_append,
    hopAfter_addInheritedRoutes entry (fits.spreads.addedFace face)]
  cases own : ownCost entry.routes face with
  | some cost =>
    have present : entry.hasFaceId face = true := by
      rw [← Bool.not_eq_false,hasFaceId_iff,own]
      exact Option.some_ne_none cost
    rw [if_pos present,nextHop_of_own stored own,nextHop_of_own kept own]
    cases gone : removed face with
    | none => rfl
    | some route =>
      have clear := fits.noLeftover face live (by rw [gone]; rfl) below entry.routes reached stored
        (by rw [own]; exact Option.some_ne_none cost)
      have named := fits.spreads.removedFace face route gone
      rw [Option.toList_some,hopAfter_removeInheritedRoutes,if_neg]
      rw [hasInheritedRoute_iff found,named,clear]
      exact Nat.lt_irrefl 0
  | none =>
    have handed := fits.handed face live
    unfold Handed at handed
    rw [if_neg (by rw [hasFaceId_iff.mpr own]; exact Bool.noConfusion),nextHop_of_inherited stored own free,
      nextHop_of_inherited kept own free,before,after]
    cases last : (added face).getLast? with
    | some route =>
      rw [last] at handed
      exact handed.symm
    | none =>
      rw [last] at handed
      cases gone : removed face with
      | none =>
        rw [gone] at handed
        exact handed.symm
      | some route =>
        have named := fits.spreads.removedFace face route gone
        rw [gone] at handed
        have nothing : changed.content.offer face name = none := handed
        dsimp only
        rw [Option.toList_some,hopAfter_removeInheritedRoutes,nothing]
        split
        · rfl
        · rename_i bare
          -- Without a record there was nothing to inherit.
          by_contra something
          refine bare ((hasInheritedRoute_iff found route).mpr ?_)
          rw [named]
          exact consistent.recorded below face (fits.lost face live)
            ⟨⟨entry.routes,stored,free,own⟩,by rw [before]; exact something⟩

private theorem reached_records (consistent : Consistent state)
    (fits : Fits state name changed emissions removed added destroyed) {below : Name} {entry : RibEntry} {face : Nat}
    (found : state.rib.find below = some entry) (reached : Reaches state.rib name face below) :
    ∃ left, recordsAfter (onKey emissions below face) (changed.records below face) = some left ∧
      (face ∉ destroyed → Inherits changed.content below face → 0 < left) := by
  have stored := content_find found
  have kept : changed.content below = some entry.routes := (fits.content below reached.2.1).trans stored
  have free := (reached_self found reached).2
  obtain ⟨before,after⟩ := reached_inherited fits.content reached
  rw [fits.kept below face reached.2.1,fits.spreads.recordsAfter_reached found reached]
  refine ⟨_,rfl,?_⟩
  rintro live ⟨⟨routes,same,-,own⟩,offered⟩
  rw [kept,Option.some.injEq] at same
  rw [← same] at own
  have unheld : ¬entry.hasFaceId face = true := by
    rw [hasFaceId_iff.mpr own]
    exact Bool.noConfusion
  rw [if_neg unheld]
  have handed := fits.handed face live
  unfold Handed at handed
  cases last : (added face).getLast? with
  | some route =>
    have some_added : 0 < (added face).length := List.length_pos_of_mem (List.mem_of_getLast? last)
    omega
  | none =>
    rw [last] at handed
    cases gone : removed face with
    | some route =>
      rw [gone] at handed
      have nothing : changed.content.offer face name = none := handed
      exact absurd (after.trans nothing) offered
    | none =>
      rw [gone] at handed
      have same : changed.content.offer face name = state.rib.content.offer face name := handed
      have held := consistent.recorded below face (fits.lost face live)
        ⟨⟨entry.routes,stored,free,own⟩,by rw [before,← same,← after]; exact offered⟩
      rw [Option.isSome_none,if_neg Bool.noConfusion]
      omega

private theorem unreached_hop (agree : Content.AgreeOff state.rib.content changed.content name) {below : Name}
    {face : Nat} (different : below ≠ name)
    (unreached : state.rib.find below = none ∨ ¬Reaches state.rib name face below) :
    changed.content.nextHop face below = state.rib.content.nextHop face below ∧
      (Inherits changed.content below face → Inherits state.rib.content below face) := by
  have kept := agree below different
  rcases inherited_cases agree face below with same | ⟨isPrefix,-,isOpen,-,-⟩
  · rw [Content.nextHop,Content.nextHop,kept,same]
    refine ⟨rfl,?_⟩
    rintro ⟨⟨routes,stored,free,own⟩,offered⟩
    exact ⟨⟨routes,kept.symm.trans stored,free,own⟩,by rw [← same]; exact offered⟩
  · cases stored : state.rib.content below with
    | none =>
      rw [Content.nextHop,Content.nextHop,kept,stored]
      refine ⟨rfl,?_⟩
      rintro ⟨⟨routes,found,-⟩,-⟩
      rw [kept,stored] at found
      cases found
    | some routes =>
      obtain ⟨entry,found,rfl⟩ := content_eq_some stored
      have missed := unreached.resolve_left (by rw [found]; exact Option.some_ne_none entry)
      have blocked := blocked_of_unreached stored isPrefix different isOpen missed
      have moved := kept.trans stored
      cases own : ownCost entry.routes face with
      | some cost =>
        refine ⟨(nextHop_of_own moved own).trans (nextHop_of_own stored own).symm,?_⟩
        rintro ⟨⟨routes,also,-,nothing⟩,-⟩
        rw [moved,Option.some.injEq] at also
        rw [← also,own] at nothing
        cases nothing
      | none =>
        have stops := blocked.resolve_left (not_not.mpr own)
        refine ⟨(nextHop_of_captures moved own stops).trans (nextHop_of_captures stored own stops).symm,?_⟩
        rintro ⟨⟨routes,also,free,-⟩,-⟩
        rw [moved,Option.some.injEq] at also
        rw [← also,stops] at free
        cases free

/-- The inherited routes that change are of entries that the update leaves. -/
theorem Spreads.present {rib : Rib} (spreads : Spreads rib name emissions removed added)
    (agree : Content.AgreeOff rib.content changed.content name)
    (ownPresent : changed.content name = none → ∀ emission ∈ emissions, emission.name = name →
      emission.isRecord = false) :
    ∀ emission ∈ emissions, emission.isRecord → (changed.find emission.name).isSome := by
  intro emission inside isRecord
  by_contra absent
  have missing : changed.content emission.name = none := by
    rw [← Option.not_isSome_iff_eq_none,content_isSome]
    exact absent
  by_cases own : emission.name = name
  · have not_record := ownPresent (own ▸ missing) emission inside own
    rw [not_record] at isRecord
    cases isRecord
  · rw [agree _ own] at missing
    have nothing := spreads.unreached emission.name emission.faceId own (Or.inl (Option.map_eq_none_iff.mp missing))
    have member : emission ∈ onKey emissions emission.name emission.faceId := by
      exact List.mem_filter.mpr ⟨inside,decide_eq_true ⟨rfl,rfl⟩⟩
    rw [nothing] at member
    cases member

/-- An update with fitting emissions succeeds and leaves the next hops right. -/
theorem Fits.consistent (consistent : Consistent state)
    (fits : Fits state name changed emissions removed added destroyed) :
    ∃ rib, changed.modifyInheritedRoutes emissions = some rib ∧ ∀ fib : NextHops,
      (∀ other face, face ∉ destroyed → fib other face = hopAfter (onKey emissions other face) (state.fib other face)) →
      (∀ other face, face ∈ destroyed → fib other face = none) → Consistent ⟨rib,fib,destroyed⟩ := by
  have records : ∀ other face, ∃ left,
      recordsAfter (onKey emissions other face) (changed.records other face) = some left ∧
        (face ∉ destroyed → Inherits changed.content other face → 0 < left) := by
    intro other face
    by_cases own : other = name
    · rw [own]
      exact fits.ownRecords face
    by_cases unreached : state.rib.find other = none ∨ ¬Reaches state.rib name face other
    · rw [fits.spreads.unreached other face own unreached,fits.kept other face own]
      refine ⟨_,rfl,?_⟩
      intro live inherits
      exact consistent.recorded other face (fits.lost face live)
        ((unreached_hop fits.content own unreached).2 inherits)
    · obtain ⟨present,reached⟩ := not_or.mp unreached
      obtain ⟨entry,found⟩ := Option.ne_none_iff_exists'.mp present
      exact reached_records consistent fits found (not_not.mp reached)
  choose left counts recorded using records
  have present := fits.spreads.present fits.content fits.ownPresent
  obtain ⟨rib,applied,tree,shape,final⟩ := modifyInheritedRoutes_spec emissions changed left counts present
  have content := content_of_shape shape
  refine ⟨rib,applied,?_⟩
  intro fib lives gone
  constructor
  · exact tree fits.tree
  · intro other entry found
    have same := shape other
    rw [Rib.shape,Rib.shape,show rib.find other = some entry from found,Option.map_some] at same
    obtain ⟨held,stored,equal⟩ := Option.map_eq_some_iff.mp same.symm
    obtain ⟨routes,count⟩ := Prod.mk.inj equal
    rw [← count,← routes]
    exact fits.counted other held stored
  · intro other face
    rw [RibState.expected]
    dsimp only
    by_cases live : face ∈ destroyed
    · rw [if_pos live]
      exact gone other face live
    · have before := consistent.hops other face
      rw [RibState.expected,if_neg (fits.lost face live)] at before
      rw [if_neg live,lives other face live,before,content]
      by_cases own : other = name
      · rw [own]
        exact fits.ownHop face live
      by_cases unreached : state.rib.find other = none ∨ ¬Reaches state.rib name face other
      · rw [fits.spreads.unreached other face own unreached,(unreached_hop fits.content own unreached).1]
        rfl
      · obtain ⟨present,reached⟩ := not_or.mp unreached
        obtain ⟨entry,found⟩ := Option.ne_none_iff_exists'.mp present
        exact reached_hop consistent fits found (not_not.mp reached) live
  · intro other face live inherits
    dsimp only at live inherits ⊢
    rw [content] at inherits
    rw [final]
    exact recorded other face live inherits

end

end Ncfcc.Nfd
