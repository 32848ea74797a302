import Mathlib.Data.List.Nodup
import Mathlib.Data.Nat.Find
import Ncfcc.Nfd.Rib.FibUpdater
import Ncfcc.Nfd.Rib.Inheritance
import Ncfcc.Nfd.Rib.RibTree

/-! What the descent through the children of a name emits. It reaches, on each face, the
entries between which and the name nothing passes a route on that face on or captures. -/
namespace Ncfcc.Nfd
open FibUpdater

namespace Emission

def name : Emission → Name
  | addNextHop name _ _ => name
  | removeNextHop name _ => name
  | addInheritedRoute name _ => name
  | removeInheritedRoute name _ => name

def faceId : Emission → Nat
  | addNextHop _ faceId _ => faceId
  | removeNextHop _ faceId => faceId
  | addInheritedRoute _ route => route.faceId
  | removeInheritedRoute _ route => route.faceId

end Emission

def onKey (emissions : List Emission) (name : Name) (face : Nat) : List Emission :=
  emissions.filter fun emission => emission.name = name ∧ emission.faceId = face

@[simp] theorem onKey_nil (name : Name) (face : Nat) : onKey [] name face = [] := rfl

@[simp] theorem onKey_append (first second : List Emission) (name : Name) (face : Nat) :
    onKey (first ++ second) name face = onKey first name face ++ onKey second name face := List.filter_append ..

private theorem onKey_flatMap {α : Type} (list : List α) (emit : α → List Emission) (name : Name) (face : Nat) :
    onKey (list.flatMap emit) name face = list.flatMap fun element => onKey (emit element) name face :=
  List.filter_flatMap ..

theorem onKey_of_forall {emissions : List Emission} {name : Name} {face : Nat}
    (all : ∀ emission ∈ emissions, emission.name = name ∧ emission.faceId = face) :
    onKey emissions name face = emissions := by
  apply List.filter_eq_self.mpr
  intro emission inside
  exact decide_eq_true (all emission inside)

theorem onKey_of_none {emissions : List Emission} {name : Name} {face : Nat}
    (none : ∀ emission ∈ emissions, emission.name = name → emission.faceId ≠ face) :
    onKey emissions name face = [] := by
  apply List.filter_eq_nil_iff.mpr
  intro emission inside both
  have matched := of_decide_eq_true both
  exact none emission inside matched.1 matched.2

/-! Sets of routes with one route for each face. -/

def OneEach (routes : List Route) : Prop := (routes.map Route.faceId).Nodup

theorem OneEach.filter {routes : List Route} (unique : OneEach routes) (test : Route → Bool) :
    OneEach (routes.filter test) := unique.sublist (List.filter_sublist.map Route.faceId)

theorem findFace_some {routes : List Route} {face : Nat} {route : Route} (found : findFace routes face = some route) :
    route ∈ routes ∧ route.faceId = face := by
  have named := List.find?_some found
  exact ⟨List.mem_of_find?_eq_some found,by simpa using named⟩

theorem findFace_filter (routes : List Route) (test : Nat → Bool) (face : Nat) :
    findFace (routes.filter fun route => test route.faceId) face = if test face then findFace routes face else none := by
  unfold findFace
  rw [List.find?_filter]
  split
  · rename_i passes
    congr 1
    funext route
    by_cases same : route.faceId = face
    · simp [same,passes]
    · simp [same]
  · rename_i fails
    rw [List.find?_eq_none]
    intro route _
    by_cases same : route.faceId = face
    · simp [same,fails]
    · simp [same]

theorem onKey_routes {routes : List Route} (unique : OneEach routes) {owner : Name}
    {emit : Route → List Emission}
    (keyed : ∀ route, ∀ emission ∈ emit route, emission.name = owner ∧ emission.faceId = route.faceId) (face : Nat) :
    onKey (routes.flatMap emit) owner face = (findFace routes face).toList.flatMap emit := by
  induction routes with
  | nil => rfl
  | cons route routes ih =>
    obtain ⟨alone,rest⟩ := List.nodup_cons.mp (show (route.faceId :: routes.map Route.faceId).Nodup from unique)
    rw [List.flatMap_cons,onKey_append]
    by_cases here : route.faceId = face
    · have found : findFace (route :: routes) face = some route := by simp [findFace,here]
      have nothing : onKey (routes.flatMap emit) owner face = [] := by
        apply onKey_of_none
        intro emission inside _ same
        obtain ⟨other,member,emitted⟩ := List.mem_flatMap.mp inside
        refine alone (List.mem_map.mpr ⟨other,member,?_⟩)
        rw [← (keyed other emission emitted).2,same,here]
      rw [found,nothing,List.append_nil,onKey_of_forall]
      · simp
      · intro emission inside
        exact ⟨(keyed route emission inside).1,(keyed route emission inside).2.trans here⟩
    · have found : findFace (route :: routes) face = findFace routes face := by simp [findFace,here]
      rw [found,ih rest,onKey_of_none,List.nil_append]
      intro emission inside _ same
      exact here ((keyed route emission inside).2.symm.trans same)

theorem onKey_removeInheritedRoutes (entry : RibEntry) {routes : List Route} (unique : OneEach routes) (face : Nat) :
    onKey (removeInheritedRoutes entry routes) entry.name face =
      removeInheritedRoutes entry (findFace routes face).toList := by
  apply onKey_routes unique
  intro route emission inside
  split at inside
  · simp only [List.mem_cons,List.not_mem_nil,or_false] at inside
    rcases inside with rfl | rfl <;> exact ⟨rfl,rfl⟩
  · cases inside

theorem onKey_addInheritedRoutes (entry : RibEntry) {routes : List Route} (unique : OneEach routes) (face : Nat) :
    onKey (addInheritedRoutes entry routes) entry.name face =
      addInheritedRoutes entry (findFace routes face).toList := by
  apply onKey_routes unique
  intro route emission inside
  split at inside
  · cases inside
  · simp only [List.mem_cons,List.not_mem_nil,or_false] at inside
    rcases inside with rfl | rfl <;> exact ⟨rfl,rfl⟩

theorem name_of_removeInheritedRoutes {entry : RibEntry} {routes : List Route} {emission : Emission}
    (inside : emission ∈ removeInheritedRoutes entry routes) : emission.name = entry.name := by
  obtain ⟨route,-,emitted⟩ := List.mem_flatMap.mp inside
  split at emitted
  · simp only [List.mem_cons,List.not_mem_nil,or_false] at emitted
    rcases emitted with rfl | rfl <;> rfl
  · cases emitted

theorem name_of_addInheritedRoutes {entry : RibEntry} {routes : List Route} {emission : Emission}
    (inside : emission ∈ addInheritedRoutes entry routes) : emission.name = entry.name := by
  obtain ⟨route,-,emitted⟩ := List.mem_flatMap.mp inside
  split at emitted
  · cases emitted
  · simp only [List.mem_cons,List.not_mem_nil,or_false] at emitted
    rcases emitted with rfl | rfl <;> rfl

/-! Entries and their content. -/

def Rib.content (rib : Rib) : Content := fun name => (rib.find name).map RibEntry.routes

def Counted (rib : Rib) : Prop :=
  ∀ name entry, rib.find name = some entry → entry.nRoutesWithCaptureSet = entry.routes.countP Route.capture

theorem content_find {rib : Rib} {name : Name} {entry : RibEntry} (found : rib.find name = some entry) :
    rib.content name = some entry.routes := by
  rw [Rib.content,found]
  rfl

theorem content_isSome {rib : Rib} {name : Name} : (rib.content name).isSome = (rib.find name).isSome := Option.isSome_map

theorem content_eq_some {rib : Rib} {name : Name} {routes : List Route} (stored : rib.content name = some routes) :
    ∃ entry, rib.find name = some entry ∧ entry.routes = routes := Option.map_eq_some_iff.mp stored

theorem hasCapture_eq {rib : Rib} (counted : Counted rib) {name : Name} {entry : RibEntry}
    (found : rib.find name = some entry) : entry.hasCapture = captures entry.routes := by
  rw [RibEntry.hasCapture,counted name entry found,captures,Bool.eq_iff_iff,decide_eq_true_eq,gt_iff_lt,
    List.countP_pos_iff,List.any_eq_true]

private theorem min_isNone {routes : List Route} : (routes.map Route.cost).min? = none ↔ routes = [] := by
  rw [List.min?_eq_none_iff,List.map_eq_nil_iff]

theorem passedCost_eq_none {routes : List Route} {face : Nat} :
    passedCost routes face = none ↔ routes.any (fun route => route.faceId == face && route.childInherit) = false := by
  rw [passedCost,min_isNone,List.filter_eq_nil_iff,List.any_eq_false]

theorem ownCost_eq_none {routes : List Route} {face : Nat} :
    ownCost routes face = none ↔ routes.any (fun route => route.faceId == face) = false := by
  rw [ownCost,min_isNone,List.filter_eq_nil_iff,List.any_eq_false]

/-! Children of a name, whether it has an entry or not. -/

structure ChildOf (rib : Rib) (name child : Name) : Prop where
  present : (rib.find child).isSome
  isPrefix : name <+: child
  longer : name.length < child.length
  next : ∀ other, other <+: child → name.length < other.length → other.length < child.length → rib.find other = none

theorem mem_children_iff {rib : Rib} (tree : rib.Tree) {name : Name} {entry : RibEntry}
    (found : rib.find name = some entry) (child : Name) : child ∈ entry.children ↔ ChildOf rib name child := by
  rw [tree.children name entry child found,Rib.findParent_eq_some]
  constructor
  · rintro ⟨present,longest⟩
    refine ⟨present,longest.isPrefix,longest.shorter,?_⟩
    intro other inside more less
    by_contra stored
    have bound := longest.longest other inside less (Option.isSome_iff_ne_none.mpr stored)
    omega
  · intro child
    refine ⟨child.present,child.isPrefix,child.longer,by rw [found]; rfl,?_⟩
    intro other inside less stored
    by_contra more
    rw [child.next other inside (by omega) less] at stored
    cases stored

private theorem exists_childOf {rib : Rib} {name below : Name} (present : (rib.find below).isSome) (isPrefix : name <+: below)
    (longer : name.length < below.length) : ∃ child, ChildOf rib name child ∧ child <+: below := by
  have exists_size : ∃ size, name.length < size ∧ size ≤ below.length ∧ (rib.find (below.getPrefix size)).isSome :=
    ⟨below.length,longer,Nat.le_refl _,by rw [Name.getPrefix,List.take_length]; exact present⟩
  classical
  obtain ⟨more,less,stored⟩ := Nat.find_spec exists_size
  have size : (below.getPrefix (Nat.find exists_size)).length = Nat.find exists_size := List.length_take_of_le less
  refine ⟨below.getPrefix (Nat.find exists_size),⟨stored,?_,?_,?_⟩,List.take_prefix _ _⟩
  · exact List.prefix_of_prefix_length_le isPrefix (List.take_prefix _ _) (by rw [size]; omega)
  · rw [size]
    exact more
  · intro other inside above shorter
    by_contra kept
    rw [size] at shorter
    refine Nat.find_min exists_size shorter ⟨above,by omega,?_⟩
    have whole : other <+: below := inside.trans (List.take_prefix _ _)
    rw [Name.getPrefix,← List.prefix_iff_eq_take.mp whole]
    exact Option.isSome_iff_ne_none.mpr kept

private theorem childOf_unique {rib : Rib} {name first second below : Name} (one : ChildOf rib name first)
    (two : ChildOf rib name second) (above : first <+: below) (also : second <+: below) : first = second := by
  rcases Nat.lt_trichotomy first.length second.length with less | same | more
  · have inside := List.prefix_of_prefix_length_le above also less.le
    have present := one.present
    rw [two.next first inside one.longer less] at present
    cases present
  · exact (List.prefix_of_prefix_length_le above also same.le).eq_of_length same
  · have inside := List.prefix_of_prefix_length_le also above more.le
    have present := two.present
    rw [one.next second inside two.longer more] at present
    cases present

/-! The descent. -/

/-- From a prefix of the given length down to the name itself no entry passes a route on the face
on or captures. -/
def OpenFrom (content : Content) (face : Nat) (low : Nat) (below : Name) : Prop :=
  ∀ size routes, low ≤ size → size ≤ below.length → content (below.getPrefix size) = some routes →
    passedCost routes face = none ∧ captures routes = false

def visit (entry : RibEntry) (routesToAdd routesToRemove : List Route) (face : Nat) : List Emission :=
  removeInheritedRoutes entry (findFace routesToRemove face).toList ++
    addInheritedRoutes entry (findFace routesToAdd face).toList

def Descends (rib : Rib) (emissions : List Emission) (reached : Prop) (below : Name) (face : Nat)
    (routesToAdd routesToRemove : List Route) : Prop :=
  (∀ entry, rib.find below = some entry → reached →
    onKey emissions below face = visit entry routesToAdd routesToRemove face) ∧
  ((rib.find below = none ∨ ¬reached) → onKey emissions below face = [])

private theorem flatMap_unique {α β : Type} {list : List α} {emit : α → List β} {element : α} (unique : list.Nodup)
    (inside : element ∈ list) (others : ∀ other ∈ list, other ≠ element → emit other = []) :
    list.flatMap emit = emit element := by
  induction list with
  | nil => cases inside
  | cons head rest ih =>
    obtain ⟨alone,distinct⟩ := List.nodup_cons.mp unique
    rw [List.flatMap_cons]
    by_cases here : head = element
    · have nothing : rest.flatMap emit = [] := by
        apply List.flatMap_eq_nil_iff.mpr
        intro other member
        refine others other (List.mem_cons_of_mem head member) ?_
        rintro rfl
        exact alone (here ▸ member)
      rw [nothing,List.append_nil,here]
    · have later : element ∈ rest := (List.mem_cons.mp inside).resolve_left (Ne.symm here)
      rw [others head List.mem_cons_self here,List.nil_append]
      exact ih distinct later fun other member => others other (List.mem_cons_of_mem head member)

def Enough (rib : Rib) (fuel : Nat) (name : Name) : Prop :=
  ∀ other, (rib.find other).isSome → name <+: other → other.length < name.length + fuel

section
variable {rib : Rib}

private theorem descends_children {fuel : Nat} {routesToAdd routesToRemove : List Route}
    {below : Name} {face : Nat}
    (each : ∀ child, (rib.find child).isSome → Enough rib fuel child →
      Descends rib (traverseSubTree rib fuel child routesToAdd routesToRemove)
        (child <+: below ∧ OpenFrom rib.content face child.length below) below face routesToAdd routesToRemove)
    {name : Name} {children : List Name} (unique : children.Nodup)
    (all : ∀ child, child ∈ children ↔ ChildOf rib name child) (enough : Enough rib (fuel + 1) name) :
    Descends rib (children.flatMap fun child => traverseSubTree rib fuel child routesToAdd routesToRemove)
      (name <+: below ∧ below ≠ name ∧ OpenFrom rib.content face (name.length + 1) below) below face
      routesToAdd routesToRemove := by
  have covered : ∀ child, ChildOf rib name child → Enough rib fuel child := by
    intro child isChild other present inside
    have bound := enough other present (isChild.isPrefix.trans inside)
    have longer := isChild.longer
    omega
  constructor
  · rintro entry found ⟨isPrefix,different,isOpen⟩
    have longer : name.length < below.length := by
      refine Nat.lt_of_le_of_ne isPrefix.length_le ?_
      intro size
      exact different (isPrefix.eq_of_length size).symm
    obtain ⟨child,isChild,inside⟩ := exists_childOf (by rw [found]; rfl) isPrefix longer
    rw [onKey_flatMap,flatMap_unique unique ((all child).mpr isChild)]
    · refine (each child isChild.present (covered child isChild)).1 entry found ⟨inside,?_⟩
      intro size routes more
      exact isOpen size routes (isChild.longer.trans_le more)
    · intro other member away
      have isOther := (all other).mp member
      refine (each other isOther.present (covered other isOther)).2 (Or.inr ?_)
      rintro ⟨also,-⟩
      exact away (childOf_unique isOther isChild also inside)
  · intro outside
    rw [onKey_flatMap]
    apply List.flatMap_eq_nil_iff.mpr
    intro child member
    have isChild := (all child).mp member
    refine (each child isChild.present (covered child isChild)).2 (outside.imp_right ?_)
    rintro unreached ⟨inside,isOpen⟩
    refine unreached ⟨isChild.isPrefix.trans inside,?_,?_⟩
    · rintro rfl
      exact Nat.lt_irrefl _ (isChild.longer.trans_le inside.length_le)
    · intro size routes more less found
      by_cases deep : child.length ≤ size
      · exact isOpen size routes deep less found
      · have between : below.getPrefix size <+: child :=
          List.prefix_of_prefix_length_le (List.take_prefix _ _) inside
            (by rw [Name.getPrefix,List.length_take_of_le less]; omega)
        have missing := isChild.next _ between (by rw [Name.getPrefix,List.length_take_of_le less]; omega)
          (by rw [Name.getPrefix,List.length_take_of_le less]; omega)
        rw [Rib.content,missing] at found
        cases found

private theorem onKey_visited (entry : RibEntry) {toAdd toRemove : List Route} (oneAdd : OneEach toAdd)
    (oneRemove : OneEach toRemove) (others : List Emission) (below : Name) (face : Nat) :
    onKey (removeInheritedRoutes entry toRemove ++ addInheritedRoutes entry toAdd ++ others) below face =
      (if below = entry.name then visit entry toAdd toRemove face else []) ++ onKey others below face := by
  rw [onKey_append,onKey_append]
  congr 1
  split
  · rename_i same
    rw [same,onKey_removeInheritedRoutes entry oneRemove,onKey_addInheritedRoutes entry oneAdd]
    rfl
  · rename_i different
    rw [onKey_of_none,onKey_of_none,List.append_nil]
    · intro emission inside same
      exact absurd (same.symm.trans (name_of_addInheritedRoutes inside)) different
    · intro emission inside same
      exact absurd (same.symm.trans (name_of_removeInheritedRoutes inside)) different

private theorem openFrom_of_succ {content : Content} {face size : Nat} {below : Name} {routes : List Route}
    (stored : content (below.getPrefix size) = some routes) (unblocked : passedCost routes face = none)
    (free : captures routes = false) (isOpen : OpenFrom content face (size + 1) below) :
    OpenFrom content face size below := by
  intro other held more less there
  by_cases first : other = size
  · rw [first,stored,Option.some.injEq] at there
    rw [← there]
    exact ⟨unblocked,free⟩
  · exact isOpen other held (by omega) less there

private theorem traverseSubTree_descends (tree : rib.Tree) (counted : Counted rib) (fuel : Nat) (name : Name)
    (present : (rib.find name).isSome) (enough : Enough rib fuel name) (routesToAdd routesToRemove : List Route)
    (oneAdd : OneEach routesToAdd) (oneRemove : OneEach routesToRemove) (below : Name) (face : Nat) :
    Descends rib (traverseSubTree rib fuel name routesToAdd routesToRemove)
      (name <+: below ∧ OpenFrom rib.content face name.length below) below face routesToAdd routesToRemove := by
  induction fuel generalizing name routesToAdd routesToRemove with
  | zero =>
    have bound := enough name present List.prefix_rfl
    omega
  | succ fuel ih =>
    obtain ⟨entry,found⟩ := Option.isSome_iff_exists.mp present
    have named := Rib.find_name found
    have atOwn : ∀ below : Name, name <+: below → rib.content (below.getPrefix name.length) = some entry.routes := by
      intro below inside
      rw [Name.getPrefix,← List.prefix_iff_eq_take.mp inside]
      exact content_find found
    unfold traverseSubTree
    rw [found]
    dsimp only
    by_cases captured : entry.hasCapture = true
    · rw [if_pos captured]
      refine ⟨?_,fun _ => rfl⟩
      rintro other _ ⟨inside,isOpen⟩
      have free := (isOpen name.length entry.routes (Nat.le_refl _) inside.length_le (atOwn below inside)).2
      rw [← hasCapture_eq counted found,captured] at free
      cases free
    · rw [if_neg captured]
      have free : captures entry.routes = false := by
        rw [← hasCapture_eq counted found]
        exact Bool.eq_false_iff.mpr captured
      have added := findFace_filter routesToAdd (fun face => !entry.hasChildInheritOnFaceId face) face
      have removed := findFace_filter routesToRemove (fun face => !entry.hasChildInheritOnFaceId face) face
      have oneAdd := oneAdd.filter fun route => !entry.hasChildInheritOnFaceId route.faceId
      have oneRemove := oneRemove.filter fun route => !entry.hasChildInheritOnFaceId route.faceId
      generalize routesToAdd.filter (fun route => !entry.hasChildInheritOnFaceId route.faceId) = toAdd at *
      generalize routesToRemove.filter (fun route => !entry.hasChildInheritOnFaceId route.faceId) = toRemove at *
      have deeper : Descends rib (entry.children.flatMap fun child => traverseSubTree rib fuel child toAdd toRemove)
          (name <+: below ∧ below ≠ name ∧ OpenFrom rib.content face (name.length + 1) below) below face
          toAdd toRemove :=
        descends_children (fun child present enough => ih child present enough toAdd toRemove oneAdd oneRemove)
          (tree.distinct name entry found) (mem_children_iff tree found) enough
      have emitted := onKey_visited entry oneAdd oneRemove
        (entry.children.flatMap fun child => traverseSubTree rib fuel child toAdd toRemove) below face
      rw [named] at emitted
      have here : below = name → onKey (removeInheritedRoutes entry toRemove ++ addInheritedRoutes entry toAdd ++
          entry.children.flatMap fun child => traverseSubTree rib fuel child toAdd toRemove) below face =
          visit entry toAdd toRemove face := by
        intro same
        rw [emitted,if_pos same,deeper.2 (Or.inr fun reached => reached.2.1 same),List.append_nil]
      have away : below ≠ name → onKey (removeInheritedRoutes entry toRemove ++ addInheritedRoutes entry toAdd ++
          entry.children.flatMap fun child => traverseSubTree rib fuel child toAdd toRemove) below face =
          onKey (entry.children.flatMap fun child => traverseSubTree rib fuel child toAdd toRemove) below face := by
        intro different
        rw [emitted,if_neg different,List.nil_append]
      cases passes : entry.hasChildInheritOnFaceId face with
      | true =>
        -- Nothing is left of the face here or below.
        rw [passes] at added removed
        have nothing : ∀ other, visit other toAdd toRemove face = [] := by
          intro other
          rw [visit,added,removed]
          rfl
        constructor
        · rintro other _ ⟨inside,isOpen⟩
          have blocked := (isOpen name.length entry.routes (Nat.le_refl _) inside.length_le (atOwn below inside)).1
          rw [passedCost_eq_none] at blocked
          exact absurd (passes.symm.trans blocked) Bool.noConfusion
        · intro _
          by_cases same : below = name
          · rw [here same,nothing]
          · rw [away same]
            by_cases reached : name <+: below ∧ below ≠ name ∧ OpenFrom rib.content face (name.length + 1) below
            · cases other : rib.find below with
              | none => exact deeper.2 (Or.inl other)
              | some held => rw [deeper.1 held other reached,nothing]
            · exact deeper.2 (Or.inr reached)
      | false =>
        rw [passes] at added removed
        have unblocked : passedCost entry.routes face = none := passedCost_eq_none.mpr passes
        have same : ∀ other, visit other toAdd toRemove face = visit other routesToAdd routesToRemove face := by
          intro other
          rw [visit,added,removed]
          rfl
        have extends_open : name <+: below → OpenFrom rib.content face (name.length + 1) below →
            OpenFrom rib.content face name.length below :=
          fun inside => openFrom_of_succ (atOwn below inside) unblocked free
        constructor
        · rintro other stored ⟨inside,isOpen⟩
          by_cases own : below = name
          · rw [own,found,Option.some.injEq] at stored
            rw [here own,← stored,same]
          · rw [away own,← same]
            refine deeper.1 other stored ⟨inside,own,?_⟩
            intro size routes more
            exact isOpen size routes (by omega)
        · intro outside
          by_cases own : below = name
          · refine absurd ?_ (outside.resolve_left (by rw [own,found]; exact Option.some_ne_none _))
            refine ⟨own ▸ List.prefix_rfl,extends_open (own ▸ List.prefix_rfl) ?_⟩
            intro size routes more less
            rw [own] at less
            omega
          · rw [away own]
            refine deeper.2 (outside.imp_right ?_)
            rintro unreached ⟨inside,-,isOpen⟩
            exact unreached ⟨inside,extends_open inside isOpen⟩

def Reaches (rib : Rib) (name : Name) (face : Nat) (below : Name) : Prop :=
  name <+: below ∧ below ≠ name ∧ OpenFrom rib.content face (name.length + 1) below

private theorem length_lt_height {other : Name} (present : (rib.find other).isSome) : other.length < height rib := by
  obtain ⟨entry,found⟩ := Option.isSome_iff_exists.mp present
  have bounded : ∀ lengths : List Nat, ∀ size ∈ lengths, size ≤ lengths.foldr max 0 := by
    intro lengths size inside
    induction lengths with
    | nil => cases inside
    | cons head rest ih =>
      rw [List.foldr_cons]
      rcases List.mem_cons.mp inside with rfl | later
      · exact Nat.le_max_left _ _
      · exact (ih later).trans (Nat.le_max_right _ _)
  have inside : entry.name.length ∈ rib.entries.map fun entry => entry.name.length :=
    List.mem_map_of_mem (Rib.find_mem found)
  rw [Rib.find_name found] at inside
  exact Nat.lt_succ_of_le (bounded _ _ inside)

/-- What an update emits below a name: on each face at most one route is removed and several are added. -/
structure Spreads (rib : Rib) (name : Name) (emissions : List Emission) (removed : Nat → Option Route)
    (added : Nat → List Route) : Prop where
  removedFace : ∀ face route, removed face = some route → route.faceId = face
  addedFace : ∀ face route, route ∈ added face → route.faceId = face
  reached : ∀ below face entry, rib.find below = some entry → Reaches rib name face below →
    onKey emissions below face =
      removeInheritedRoutes entry (removed face).toList ++ addInheritedRoutes entry (added face)
  unreached : ∀ below face, below ≠ name → (rib.find below = none ∨ ¬Reaches rib name face below) →
    onKey emissions below face = []

structure ChildrenOf (rib : Rib) (name : Name) (children : List Name) : Prop where
  unique : children.Nodup
  all : ∀ child, child ∈ children ↔ ChildOf rib name child

theorem childrenOf_entry (tree : rib.Tree) {name : Name} {entry : RibEntry} (found : rib.find name = some entry) :
    ChildrenOf rib name entry.children := ⟨tree.distinct name entry found,mem_children_iff tree found⟩

private theorem modifyChildrens_descends (tree : rib.Tree) (counted : Counted rib) {name : Name}
    {children : List Name} (below : ChildrenOf rib name children) {routesToAdd routesToRemove : List Route}
    (oneAdd : OneEach routesToAdd) (oneRemove : OneEach routesToRemove) (other : Name) (face : Nat) :
    Descends rib (modifyChildrensInheritedRoutes rib children routesToAdd routesToRemove)
      (Reaches rib name face other) other face routesToAdd routesToRemove := by
  have enough : ∀ name, Enough rib (height rib) name := by
    intro name other present _
    have bound := length_lt_height present
    omega
  refine descends_children ?_ below.unique below.all fun other present inside =>
    (enough name other present inside).trans (by omega)
  intro child present enough
  exact traverseSubTree_descends tree counted _ child present enough _ _ oneAdd oneRemove other face

theorem onKey_modifyChildrens (tree : rib.Tree) (counted : Counted rib) {name : Name} {children : List Name}
    (below : ChildrenOf rib name children) {routesToAdd routesToRemove : List Route} (oneAdd : OneEach routesToAdd)
    (oneRemove : OneEach routesToRemove) (face : Nat) :
    onKey (modifyChildrensInheritedRoutes rib children routesToAdd routesToRemove) name face = [] :=
  (modifyChildrens_descends tree counted below oneAdd oneRemove name face).2 (Or.inr fun reached => reached.2.1 rfl)

theorem modifyChildrens_spreads (tree : rib.Tree) (counted : Counted rib) {name : Name} {children : List Name}
    (below : ChildrenOf rib name children) {routesToAdd routesToRemove : List Route} (oneAdd : OneEach routesToAdd)
    (oneRemove : OneEach routesToRemove) :
    Spreads rib name (modifyChildrensInheritedRoutes rib children routesToAdd routesToRemove)
      (findFace routesToRemove) (fun face => (findFace routesToAdd face).toList) := by
  have descends := modifyChildrens_descends tree counted below oneAdd oneRemove
  constructor
  · intro face route found
    exact (findFace_some found).2
  · intro face route inside
    exact (findFace_some (Option.mem_toList.mp inside)).2
  · intro other face entry found reached
    exact (descends other face).1 entry found reached
  · intro other face _ outside
    exact (descends other face).2 outside

theorem spreads_own {name : Name} {emissions : List Emission} (own : ∀ emission ∈ emissions, emission.name = name) :
    Spreads rib name emissions (fun _ => none) (fun _ => []) := by
  have nothing : ∀ below face, below ≠ name → onKey emissions below face = [] := by
    intro below face different
    apply onKey_of_none
    intro emission inside same
    exact absurd (same.symm.trans (own emission inside)) different
  refine ⟨by simp,by simp,?_,?_⟩
  · intro below face entry found reached
    exact nothing below face reached.2.1
  · intro below face different _
    exact nothing below face different

theorem Spreads.append {name : Name} {first second : List Emission} {removed : Nat → Option Route}
    {added more : Nat → List Route} (one : Spreads rib name first removed added)
    (two : Spreads rib name second (fun _ => none) more) :
    Spreads rib name (first ++ second) removed (fun face => added face ++ more face) := by
  refine ⟨one.removedFace,?_,?_,?_⟩
  · intro face route inside
    exact (List.mem_append.mp inside).elim (one.addedFace face route) (two.addedFace face route)
  · intro below face entry found reached
    have joined : addInheritedRoutes entry (added face ++ more face) =
        addInheritedRoutes entry (added face) ++ addInheritedRoutes entry (more face) := List.flatMap_append
    rw [onKey_append,one.reached below face entry found reached,two.reached below face entry found reached,joined,
      List.append_assoc]
    rfl
  · intro below face different outside
    rw [onKey_append,one.unreached below face different outside,two.unreached below face different outside]
    rfl

theorem Spreads.after_own {name : Name} {own emissions : List Emission} {removed : Nat → Option Route}
    {added : Nat → List Route} (named : ∀ emission ∈ own, emission.name = name)
    (spreads : Spreads rib name emissions removed added) : Spreads rib name (own ++ emissions) removed added := by
  have nothing : Spreads rib name own (fun _ => none) (fun _ => []) := spreads_own named
  refine ⟨spreads.removedFace,spreads.addedFace,?_,?_⟩
  · intro below face entry found reached
    rw [onKey_append,nothing.reached below face entry found reached,spreads.reached below face entry found reached]
    rfl
  · intro below face different outside
    rw [onKey_append,nothing.unreached below face different outside,spreads.unreached below face different outside]
    rfl

theorem Spreads.before_own {name : Name} {own emissions : List Emission} {removed : Nat → Option Route}
    {added : Nat → List Route} (spreads : Spreads rib name emissions removed added)
    (named : ∀ emission ∈ own, emission.name = name) : Spreads rib name (emissions ++ own) removed added := by
  have both := spreads.append (spreads_own named)
  simp only [List.append_nil] at both
  exact both

private theorem childOf_iff_findParent {name : Name} (absent : rib.find name = none) (child : Name) :
    ChildOf rib name child ↔
      (rib.find child).isSome ∧ name <+: child ∧ rib.findParent child = rib.findParent name := by
  constructor
  · intro isChild
    refine ⟨isChild.present,isChild.isPrefix,?_⟩
    -- A stored proper prefix of the child is one of the name.
    have shorter : ∀ other, other <+: child → other.length < child.length → (rib.find other).isSome →
        other <+: name ∧ other.length < name.length := by
      intro other inside less stored
      have small : other.length ≤ name.length := by
        by_contra more
        rw [isChild.next other inside (by omega) less] at stored
        cases stored
      have isPrefix := List.prefix_of_prefix_length_le inside isChild.isPrefix small
      refine ⟨isPrefix,Nat.lt_of_le_of_ne small ?_⟩
      intro size
      rw [isPrefix.eq_of_length size,absent] at stored
      cases stored
    rcases Rib.findParent_cases rib name with ⟨nothing,missing⟩ | ⟨above,same,longest⟩
    · rw [nothing,Rib.findParent_eq_none]
      intro other inside less
      by_contra stored
      obtain ⟨isPrefix,small⟩ := shorter other inside less (Option.isSome_iff_ne_none.mpr stored)
      exact stored (missing other isPrefix small)
    · rw [same,Rib.findParent_eq_some]
      refine ⟨longest.isPrefix.trans isChild.isPrefix,longest.shorter.trans isChild.longer,longest.present,?_⟩
      intro other inside less stored
      obtain ⟨isPrefix,small⟩ := shorter other inside less stored
      exact longest.longest other isPrefix small stored
  · rintro ⟨present,isPrefix,same⟩
    have different : name ≠ child := by
      rintro rfl
      rw [absent] at present
      cases present
    refine ⟨present,isPrefix,?_,?_⟩
    · refine Nat.lt_of_le_of_ne isPrefix.length_le ?_
      intro size
      exact different (isPrefix.eq_of_length size)
    · intro other inside more less
      by_contra stored
      have kept := Option.isSome_iff_ne_none.mpr stored
      rcases Rib.findParent_cases rib child with ⟨-,missing⟩ | ⟨above,parent,longest⟩
      · exact stored (missing other inside less)
      · have bound := longest.longest other inside less kept
        have upper := (Rib.findParent_eq_some.mp (same.symm.trans parent)).shorter
        omega

theorem childrenOf_nonInserted (tree : rib.Tree) {name : Name} (absent : rib.find name = none) :
    let children := ((rib.findDescendantsForNonInsertedName name).filter fun entry =>
      entry.parent = rib.findParent name).map RibEntry.name
    ChildrenOf rib name children := by
  intro children
  have distinct := Rib.nodup_of_ordered tree.ordered
  constructor
  · exact distinct.sublist ((List.filter_sublist.trans List.filter_sublist).map RibEntry.name)
  · intro child
    rw [childOf_iff_findParent absent,List.mem_map]
    constructor
    · rintro ⟨entry,inside,rfl⟩
      obtain ⟨below,parent⟩ := List.mem_filter.mp inside
      obtain ⟨member,isPrefix⟩ := List.mem_filter.mp below
      have found := (Rib.mem_entries_iff tree.ordered).mp member
      refine ⟨by rw [found]; rfl,List.isPrefixOf_iff_prefix.mp isPrefix,?_⟩
      rw [← tree.parent _ entry found]
      exact of_decide_eq_true parent
    · rintro ⟨present,isPrefix,same⟩
      obtain ⟨entry,found⟩ := Option.isSome_iff_exists.mp present
      have named := Rib.find_name found
      refine ⟨entry,?_,named⟩
      refine List.mem_filter.mpr ⟨List.mem_filter.mpr ⟨Rib.find_mem found,?_⟩,?_⟩
      · rw [named]
        exact List.isPrefixOf_iff_prefix.mpr isPrefix
      · rw [tree.parent _ entry found]
        exact decide_eq_true same

end

end Ncfcc.Nfd
