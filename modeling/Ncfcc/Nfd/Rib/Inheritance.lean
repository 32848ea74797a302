import Mathlib.Data.List.Basic
import Ncfcc.Name
import Ncfcc.Nfd.Rib.Rib

/-! What the next hops of the RIB entries should be, computed from the routes alone. An
entry inherits a face from the nearest entry above it that passes a route on that face on
to its children; an entry with a capturing route lets nothing from above it through. -/
namespace Ncfcc.Nfd

abbrev Content := Name → Option (List Route)

def ownCost (routes : List Route) (face : Nat) : Option Nat :=
  ((routes.filter fun route => route.faceId == face).map Route.cost).min?

def passedCost (routes : List Route) (face : Nat) : Option Nat :=
  ((routes.filter fun route => route.faceId == face && route.childInherit).map Route.cost).min?

def firstPassed (routes : List Route) (face : Nat) : Option Route :=
  routes.find? fun route => route.faceId == face && route.childInherit

def captures (routes : List Route) : Bool := routes.any Route.capture

namespace Content
variable (content : Content) (face : Nat)

/-- What reaches a name from its prefixes shorter than a bound. -/
def above (name : Name) : Nat → Option Nat
  | 0 => none
  | bound + 1 =>
    match content (name.getPrefix bound) with
    | none => above name bound
    | some routes =>
      match passedCost routes face with
      | some cost => some cost
      | none => if captures routes then none else above name bound

/-- The routes of the nearest prefix shorter than a bound that passes a route on the face on. -/
def source (name : Name) : Nat → Option (List Route)
  | 0 => none
  | bound + 1 =>
    match content (name.getPrefix bound) with
    | none => source name bound
    | some routes =>
      match passedCost routes face with
      | some _ => some routes
      | none => if captures routes then none else source name bound

def inherited (name : Name) : Option Nat := content.above face name name.length

def offer (name : Name) : Option Nat :=
  match content name with
  | none => content.inherited face name
  | some routes =>
    match passedCost routes face with
    | some cost => some cost
    | none => if captures routes then none else content.inherited face name

def nextHop (name : Name) : Option Nat :=
  match content name with
  | none => none
  | some routes =>
    match ownCost routes face with
    | some cost => some cost
    | none => if captures routes then none else content.inherited face name

/-- Nothing between a name and the prefix of another of the given length passes a route on the face
on or captures. -/
def OpenTo (name below : Name) (bound : Nat) : Prop :=
  ∀ size routes, name.length < size → size < bound → content (below.getPrefix size) = some routes →
    passedCost routes face = none ∧ captures routes = false

variable {content face}

private theorem getPrefix_eq {name below : Name} (isPrefix : name <+: below) : below.getPrefix name.length = name :=
  (List.prefix_iff_eq_take.mp isPrefix).symm

theorem above_eq_source (name : Name) (bound : Nat) :
    content.above face name bound = (content.source face name bound).bind fun routes => passedCost routes face := by
  induction bound with
  | zero => rfl
  | succ bound ih =>
    unfold above source
    cases content (name.getPrefix bound) with
    | none => exact ih
    | some routes =>
      dsimp only
      cases passes : passedCost routes face with
      | some cost => exact passes.symm
      | none =>
        cases captures routes with
        | true => rfl
        | false => exact ih

theorem source_congr {name below : Name} (isPrefix : name <+: below) (bound : Nat) (short : bound ≤ name.length) :
    content.source face below bound = content.source face name bound := by
  induction bound with
  | zero => rfl
  | succ bound ih =>
    have same : below.getPrefix bound = name.getPrefix bound := by
      obtain ⟨rest,rfl⟩ := isPrefix
      exact List.take_append_of_le_length (by omega)
    unfold source
    rw [same,ih (by omega)]

theorem source_skip {name : Name} (low high : Nat) (less : low ≤ high)
    (empty : ∀ size, low ≤ size → size < high → content (name.getPrefix size) = none) :
    content.source face name high = content.source face name low := by
  induction high with
  | zero => rw [Nat.le_zero.mp less]
  | succ high ih =>
    by_cases last : low = high + 1
    · rw [last]
    · have nothing := empty high (by omega) (Nat.lt_succ_self _)
      rw [source,nothing]
      exact ih (by omega) fun size more under => empty size more (by omega)

private theorem above_congr {name below : Name} (isPrefix : name <+: below) (bound : Nat) (short : bound ≤ name.length) :
    content.above face below bound = content.above face name bound := by
  induction bound with
  | zero => rfl
  | succ bound ih =>
    have same : below.getPrefix bound = name.getPrefix bound := by
      obtain ⟨rest,rfl⟩ := isPrefix
      exact List.take_append_of_le_length (by omega)
    unfold above
    rw [same,ih (by omega)]

private theorem above_open {name below : Name} (isPrefix : name <+: below) (bound : Nat) (longer : name.length < bound)
    (isOpen : content.OpenTo face name below bound) : content.above face below bound = content.offer face name := by
  induction bound with
  | zero => omega
  | succ bound ih =>
    unfold above
    by_cases last : bound = name.length
    · rw [last,getPrefix_eq isPrefix,above_congr isPrefix _ (Nat.le_refl _)]
      rfl
    · have earlier := ih (by omega) fun size routes more less => isOpen size routes more (by omega)
      cases here : content (below.getPrefix bound) with
      | none => exact earlier
      | some routes =>
        obtain ⟨nothing,free⟩ := isOpen bound routes (by omega) (by omega) here
        dsimp only
        rw [nothing,free]
        exact earlier

def AgreeOff (content changed : Content) (name : Name) : Prop := ∀ other, other ≠ name → changed other = content other

private theorem above_shut {changed : Content} {name below : Name} (agree : AgreeOff content changed name)
    (bound : Nat) (longer : name.length < bound) (short : bound ≤ below.length)
    (shut : ¬content.OpenTo face name below bound) :
    changed.above face below bound = content.above face below bound := by
  induction bound with
  | zero => omega
  | succ bound ih =>
    have away : bound ≠ name.length → below.getPrefix bound ≠ name := by
      intro different same
      rw [← same,Name.getPrefix,List.length_take_of_le (by omega)] at different
      exact different rfl
    by_cases last : bound = name.length
    · refine absurd ?_ shut
      intro size routes more less
      omega
    · unfold above
      rw [agree _ (away last)]
      by_cases isOpen : content.OpenTo face name below bound
      · cases here : content (below.getPrefix bound) with
        | none =>
          refine absurd ?_ shut
          intro size routes more less found
          by_cases final : size = bound
          · rw [final,here] at found
            cases found
          · exact isOpen size routes more (by omega) found
        | some routes =>
          dsimp only
          cases passes : passedCost routes face with
          | some cost => rfl
          | none =>
            cases stops : captures routes with
            | true => rfl
            | false =>
              refine absurd ?_ shut
              intro size others more less found
              by_cases final : size = bound
              · rw [final,here,Option.some.injEq] at found
                rw [← found]
                exact ⟨passes,stops⟩
              · exact isOpen size others more (by omega) found
      · rw [ih (by omega) (by omega) isOpen]

private theorem above_elsewhere {changed : Content} {name below : Name} (agree : AgreeOff content changed name)
    (bound : Nat) (short : bound ≤ below.length) (elsewhere : name <+: below → bound ≤ name.length) :
    changed.above face below bound = content.above face below bound := by
  induction bound with
  | zero => rfl
  | succ bound ih =>
    have away : below.getPrefix bound ≠ name := by
      intro same
      have isPrefix : name <+: below := same ▸ List.take_prefix bound below
      have size : name.length = bound := by
        rw [← same]
        exact List.length_take_of_le (by omega)
      have := elsewhere isPrefix
      omega
    unfold above
    rw [agree _ away,ih (by omega) fun isPrefix => by have := elsewhere isPrefix; omega]

theorem inherited_open {name below : Name} (isPrefix : name <+: below) (different : below ≠ name)
    (isOpen : content.OpenTo face name below below.length) : content.inherited face below = content.offer face name := by
  refine above_open isPrefix below.length ?_ isOpen
  refine Nat.lt_of_le_of_ne isPrefix.length_le ?_
  intro size
  exact different (isPrefix.eq_of_length size).symm

theorem inherited_shut {changed : Content} {name below : Name} (agree : AgreeOff content changed name)
    (shut : name <+: below → below ≠ name → ¬content.OpenTo face name below below.length) :
    changed.inherited face below = content.inherited face below := by
  by_cases isPrefix : name <+: below
  · by_cases same : below = name
    · exact above_elsewhere agree below.length (Nat.le_refl _) fun _ => by rw [same]
    · refine above_shut agree below.length ?_ (Nat.le_refl _) (shut isPrefix same)
      refine Nat.lt_of_le_of_ne isPrefix.length_le ?_
      intro size
      exact same (isPrefix.eq_of_length size).symm
  · exact above_elsewhere agree below.length (Nat.le_refl _) fun inside => absurd inside isPrefix

theorem openTo_congr {changed : Content} {name below : Name} (agree : AgreeOff content changed name) {bound : Nat}
    (short : bound ≤ below.length + 1) :
    changed.OpenTo face name below bound ↔ content.OpenTo face name below bound := by
  have same : ∀ size, name.length < size → size < bound →
      changed (below.getPrefix size) = content (below.getPrefix size) := by
    intro size more less
    apply agree
    intro equal
    rw [← equal,Name.getPrefix,List.length_take_of_le (by omega)] at more
    exact Nat.lt_irrefl _ more
  constructor
  · intro isOpen size routes more less found
    exact isOpen size routes more less ((same size more less).trans found)
  · intro isOpen size routes more less found
    exact isOpen size routes more less ((same size more less).symm.trans found)

end Content

end Ncfcc.Nfd
