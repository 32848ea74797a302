import Ncfcc.Nfd.Rib.CaptureCount

/-! The lists of inherited routes, face by face. An update of one entry keeps them in order
when what it hands on to the entries below meets no route that was handed on before. -/
namespace Ncfcc.Nfd
open FibUpdater

/-- Every entry has at most one inherited route for each face, and has it only where it inherits:
without a route of its own on the face, and without a capturing route. -/
structure Tidy (rib : Rib) : Prop where
  tree : rib.Tree
  counted : Counted rib
  single : ∀ name face, rib.records name face ≤ 1
  inherits : ∀ name face, 0 < rib.records name face → Inherits rib.content name face

/-- No entry below that a route on the face would be handed to has an inherited route on it. -/
def Unrecorded (rib : Rib) (name : Name) (face : Nat) : Prop :=
  ∀ below, Reaches rib name face below → rib.records below face = 0

/-- An update of one entry whose emissions keep the inherited routes in order. -/
structure Settles (rib : Rib) (name : Name) (changed : Rib) (emissions : List Emission)
    (removed : Nat → Option Route) (added : Nat → List Route) : Prop where
  replaces : Replaces rib changed name (changed.content name)
  spreads : Spreads rib name emissions removed added
  addsOne : ∀ face, (added face).length ≤ 1
  unrecorded : ∀ face, removed face = none → added face ≠ [] → Unrecorded rib name face
  offered : ∀ face, added face ≠ [] → changed.content.offer face name ≠ none
  stillOffered : ∀ face, removed face = none → added face = [] → rib.content.offer face name ≠ none →
    changed.content.offer face name ≠ none
  ownRecords : ∀ face, ∃ left, recordsAfter (onKey emissions name face) (changed.records name face) = some left ∧
    left ≤ 1 ∧ (0 < left → Inherits changed.content name face)
  ownPresent : changed.content name = none → ∀ emission ∈ emissions, emission.name = name → emission.isRecord = false

section
variable {rib changed : Rib} {name : Name} {emissions : List Emission} {removed : Nat → Option Route}
  {added : Nat → List Route}

theorem Tidy.inherits_entry (tidy : Tidy rib) {entry : RibEntry} (found : rib.find name = some entry) {face : Nat}
    (positive : 0 < rib.records name face) :
    captures entry.routes = false ∧ ownCost entry.routes face = none ∧ rib.content.inherited face name ≠ none := by
  obtain ⟨⟨routes,stored,free,without⟩,offered⟩ := tidy.inherits name face positive
  rw [content_find found,Option.some.injEq] at stored
  rw [stored]
  exact ⟨free,without,offered⟩

theorem Tidy.records_own (tidy : Tidy rib) {entry : RibEntry} (found : rib.find name = some entry) {face : Nat}
    (own : ownCost entry.routes face ≠ none ∨ captures entry.routes = true) : rib.records name face = 0 := by
  by_contra positive
  obtain ⟨free,without,-⟩ := tidy.inherits_entry found (Nat.pos_of_ne_zero positive)
  rcases own with held | stops
  · exact held without
  · rw [free] at stops
    cases stops

/-- What a name does not pass on is recorded nowhere below. -/
theorem Tidy.unrecorded_of_unoffered (tidy : Tidy rib) {face : Nat} (nothing : rib.content.offer face name = none) :
    Unrecorded rib name face := by
  intro below reached
  by_contra positive
  have inherits := tidy.inherits below face (Nat.pos_of_ne_zero positive)
  apply inherits.offered
  rw [Content.inherited_open reached.1 reached.2.1 (reaches_open reached)]
  exact nothing

private theorem Settles.reached (settles : Settles rib name changed emissions removed added) (tidy : Tidy rib)
    {below : Name} {entry : RibEntry} {face : Nat} (found : rib.find below = some entry)
    (reached : Reaches rib name face below) :
    ∃ left, recordsAfter (onKey emissions below face) (changed.records below face) = some left ∧ left ≤ 1 ∧
      (0 < left → Inherits changed.content below face) := by
  have stored := content_find found
  have kept : changed.content below = some entry.routes := (settles.replaces.agree below reached.2.1).trans stored
  have free := (reached_self found reached).2
  obtain ⟨before,after⟩ := reached_inherited settles.replaces.agree reached
  rw [settles.replaces.kept below face reached.2.1,settles.spreads.recordsAfter_reached found reached]
  refine ⟨_,rfl,?_⟩
  have single := tidy.single below face
  cases own : ownCost entry.routes face with
  | some cost =>
    have held : entry.hasFaceId face = true := by
      rw [← Bool.not_eq_false,hasFaceId_iff,own]
      exact Option.some_ne_none cost
    have nothing := tidy.records_own found (Or.inl (by rw [own]; exact Option.some_ne_none cost))
    rw [if_pos held,nothing,Nat.zero_sub]
    exact ⟨Nat.zero_le 1,fun positive => absurd positive (Nat.lt_irrefl 0)⟩
  | none =>
    have inherits : changed.content.offer face name ≠ none → Inherits changed.content below face := by
      intro offered
      exact ⟨⟨entry.routes,kept,free,own⟩,after ▸ offered⟩
    have unheld : ¬entry.hasFaceId face = true := by
      rw [hasFaceId_iff.mpr own]
      exact Bool.noConfusion
    have one := settles.addsOne face
    rw [if_neg unheld]
    by_cases adds : added face = []
    · rw [adds,List.length_nil,Nat.add_zero]
      refine ⟨by omega,?_⟩
      intro positive
      cases gone : removed face with
      | some route =>
        rw [gone,Option.isSome_some,if_pos rfl] at positive
        omega
      | none =>
        have recorded := tidy.inherits below face (by omega)
        have offered : rib.content.offer face name ≠ none := by
          rw [← before]
          exact recorded.offered
        exact inherits (settles.stillOffered face gone adds offered)
    · refine ⟨?_,fun _ => inherits (settles.offered face adds)⟩
      cases gone : removed face with
      | some route =>
        rw [Option.isSome_some,if_pos rfl]
        omega
      | none =>
        rw [settles.unrecorded face gone adds below reached]
        omega

private theorem Settles.unreached (settles : Settles rib name changed emissions removed added) (tidy : Tidy rib)
    {below : Name} {face : Nat} (different : below ≠ name)
    (unreached : rib.find below = none ∨ ¬Reaches rib name face below) (positive : 0 < rib.records below face) :
    Inherits changed.content below face := by
  obtain ⟨⟨routes,stored,free,without⟩,offered⟩ := tidy.inherits below face positive
  have kept := settles.replaces.agree below different
  refine ⟨⟨routes,kept.trans stored,free,without⟩,?_⟩
  rcases inherited_cases settles.replaces.agree face below with same | ⟨isPrefix,-,isOpen,-,-⟩
  · rw [same]
    exact offered
  · have present : rib.find below ≠ none := by
      intro absent
      rw [Rib.content,absent] at stored
      cases stored
    have blocked := blocked_of_unreached stored isPrefix different isOpen (unreached.resolve_left present)
    rcases blocked with own | stops
    · exact absurd without own
    · rw [free] at stops
      cases stops

/-- The update succeeds and leaves the inherited routes in order. -/
theorem Settles.tidy (settles : Settles rib name changed emissions removed added) (tidy : Tidy rib) :
    ∃ final, changed.modifyInheritedRoutes emissions = some final ∧ Tidy final := by
  have records : ∀ other face, ∃ left,
      recordsAfter (onKey emissions other face) (changed.records other face) = some left ∧ left ≤ 1 ∧
        (0 < left → Inherits changed.content other face) := by
    intro other face
    by_cases own : other = name
    · rw [own]
      exact settles.ownRecords face
    by_cases unreached : rib.find other = none ∨ ¬Reaches rib name face other
    · rw [settles.spreads.unreached other face own unreached,settles.replaces.kept other face own]
      exact ⟨_,rfl,tidy.single other face,settles.unreached tidy own unreached⟩
    · obtain ⟨present,reached⟩ := not_or.mp unreached
      obtain ⟨entry,found⟩ := Option.ne_none_iff_exists'.mp present
      exact settles.reached tidy found (not_not.mp reached)
  choose left counts single inherits using records
  have present := settles.spreads.present settles.replaces.agree settles.ownPresent
  obtain ⟨final,applied,tree,shape,recorded⟩ := modifyInheritedRoutes_spec emissions changed left counts present
  refine ⟨final,applied,tree settles.replaces.tree,(counted_of_modify applied).mpr settles.replaces.counted,?_,?_⟩
  · intro other face
    rw [recorded]
    exact single other face
  · intro other face positive
    rw [recorded] at positive
    rw [content_of_shape shape]
    exact inherits other face positive

end

end Ncfcc.Nfd
