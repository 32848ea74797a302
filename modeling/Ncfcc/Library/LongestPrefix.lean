import Mathlib.Data.List.Infix
import Mathlib.Logic.Function.Basic

/-! Values chosen for some lists over an arbitrary alphabet, and the value of the longest prefix
that has one. A change of the value of one list is seen by the lists it covers: those it
is a prefix of, with no list between that has a value. -/
namespace Ncfcc.Library

variable {α β : Type*} (choice : List α → Option β)

private def longestBackwards : List α → Option β
  | [] => choice []
  | last :: rest => (choice (rest.reverse ++ [last])).or (longestBackwards rest)

def longest (name : List α) : Option β := longestBackwards choice name.reverse

@[simp] theorem longest_nil : longest choice [] = choice [] := rfl

@[simp] theorem longest_concat (name : List α) (last : α) :
    longest choice (name ++ [last]) = (choice (name ++ [last])).or (longest choice name) := by
  simp [longest,longestBackwards]

def Covers (name seen : List α) : Prop :=
  name <+: seen ∧ ∀ key, name <+: key → key <+: seen → key ≠ name → choice key = none

variable {choice}

private theorem not_concat_prefix (name : List α) (last : α) : ¬ (name ++ [last] <+: name) := by
  intro inside
  have size := inside.length_le
  rw [List.length_append,List.length_singleton] at size
  omega

theorem longest_eq_some_iff (name : List α) (value : β) :
    longest choice name = some value ↔ ∃ key, key <+: name ∧ choice key = some value ∧
      ∀ other, other <+: name → key.length < other.length → choice other = none := by
  induction name using List.reverseRecOn with
  | nil =>
    constructor
    · intro here
      refine ⟨[],List.prefix_rfl,here,?_⟩
      intro other inside longer
      rw [List.prefix_nil.mp inside] at longer
      exact absurd longer (Nat.lt_irrefl _)
    · rintro ⟨key,inside,here,-⟩
      rw [List.prefix_nil.mp inside] at here
      exact here
  | append_singleton name last ih =>
    rw [longest_concat]
    cases whole : choice (name ++ [last]) with
    | some found =>
      rw [Option.some_or,Option.some.injEq]
      constructor
      · rintro rfl
        refine ⟨_,List.prefix_rfl,whole,?_⟩
        intro other inside longer
        exact absurd inside.length_le (Nat.not_le_of_lt longer)
      · rintro ⟨key,inside,here,longer⟩
        rcases List.prefix_concat_iff.mp inside with rfl | shorter
        · rw [whole] at here
          exact Option.some.inj here
        · have missing := longer _ List.prefix_rfl (by simpa using Nat.lt_succ_of_le shorter.length_le)
          rw [whole] at missing
          cases missing
    | none =>
      rw [Option.none_or,ih]
      constructor
      · rintro ⟨key,inside,here,longer⟩
        refine ⟨key,inside.trans (List.prefix_append _ _),here,?_⟩
        intro other within more
        rcases List.prefix_concat_iff.mp within with rfl | shorter
        · exact whole
        · exact longer other shorter more
      · rintro ⟨key,inside,here,longer⟩
        rcases List.prefix_concat_iff.mp inside with rfl | shorter
        · rw [whole] at here
          cases here
        · exact ⟨key,shorter,here,fun other within more => longer other (within.trans (List.prefix_append _ _)) more⟩

theorem longest_of_chosen {name : List α} {value : β} (chosen : choice name = some value) :
    longest choice name = some value := by
  refine (longest_eq_some_iff name value).mpr ⟨name,List.prefix_rfl,chosen,?_⟩
  intro other inside longer
  exact absurd inside.length_le (Nat.not_le_of_lt longer)

theorem covers_self (name : List α) : Covers choice name name := by
  refine ⟨List.prefix_rfl,?_⟩
  intro key above inside different
  exact absurd (inside.eq_of_length (Nat.le_antisymm inside.length_le above.length_le)) different

/-- Whether a list is covered depends on which other lists have values only. -/
theorem covers_congr {other : List α → Option β} {name : List α}
    (same : ∀ key, key ≠ name → (choice key = none ↔ other key = none)) (seen : List α) :
    Covers choice name seen ↔ Covers other name seen := by
  unfold Covers
  refine and_congr_right fun _ => forall_congr' fun key => ?_
  refine forall_congr' fun _ => forall_congr' fun _ => ?_
  exact forall_congr' fun different => same key different

theorem longest_isSome (root : (choice []).isSome) (name : List α) : (longest choice name).isSome := by
  induction name using List.reverseRecOn with
  | nil => exact root
  | append_singleton name last ih => simp [ih]

/-- Only the prefixes of a list count. -/
theorem longest_congr {other : List α → Option β} {name : List α}
    (same : ∀ key, key <+: name → choice key = other key) : longest choice name = longest other name := by
  induction name using List.reverseRecOn with
  | nil => exact same [] List.prefix_rfl
  | append_singleton name last ih =>
    rw [longest_concat,longest_concat,same _ List.prefix_rfl,ih]
    intro key inside
    exact same key (inside.trans (List.prefix_append _ _))

theorem Covers.longest_eq {name seen : List α} (covers : Covers choice name seen) :
    longest choice seen = longest choice name := by
  obtain ⟨under,between⟩ := covers
  induction seen using List.reverseRecOn with
  | nil => rw [List.prefix_nil.mp under]
  | append_singleton seen last ih =>
    rcases List.prefix_concat_iff.mp under with rfl | shorter
    · rfl
    · have other : seen ++ [last] ≠ name := by
        rintro rfl
        exact not_concat_prefix _ _ shorter
      rw [longest_concat,between _ under List.prefix_rfl other,Option.none_or]
      refine ih shorter ?_
      intro key above inside
      exact between key above (inside.trans (List.prefix_append _ _))

variable [DecidableEq α]

theorem covers_update (name seen : List α) (value : Option β) :
    Covers (Function.update choice name value) name seen ↔ Covers choice name seen := by
  refine covers_congr ?_ seen
  intro key different
  rw [Function.update_of_ne different]

/-- A change is not seen where the changed list does not cover. -/
theorem longest_update_of_not_covers {name seen : List α} (uncovered : ¬ Covers choice name seen) (value : Option β) :
    longest (Function.update choice name value) seen = longest choice seen := by
  by_cases under : name <+: seen
  · induction seen using List.reverseRecOn with
    | nil =>
      rw [List.prefix_nil.mp under] at uncovered
      exact absurd (covers_self []) uncovered
    | append_singleton seen last ih =>
      rcases List.prefix_concat_iff.mp under with rfl | shorter
      · exact absurd (covers_self _) uncovered
      · have other : seen ++ [last] ≠ name := by
          rintro rfl
          exact not_concat_prefix _ _ shorter
        rw [longest_concat,longest_concat,Function.update_of_ne other]
        cases whole : choice (seen ++ [last]) with
        | some found => rfl
        | none =>
          rw [ih ?_ shorter]
          rintro ⟨_,between⟩
          refine uncovered ⟨under,?_⟩
          intro key above inside different
          rcases List.prefix_concat_iff.mp inside with rfl | within
          · exact whole
          · exact between key above within different
  · refine longest_congr ?_
    intro key inside
    refine Function.update_of_ne ?_ ..
    rintro rfl
    exact under inside

/-- Where it covers, a new value is the longest, and a removed one leaves that of the lists above. -/
theorem Covers.longest_update {name seen : List α} (covers : Covers choice name seen) (value : Option β) :
    longest (Function.update choice name value) seen =
      value.or (if name = [] then none else longest choice name.dropLast) := by
  rw [((covers_update name seen value).mpr covers).longest_eq]
  induction name using List.reverseRecOn with
  | nil => simp
  | append_singleton name last _ =>
    rw [longest_concat,Function.update_self,if_neg (by simp),List.dropLast_concat]
    congr 1
    refine longest_congr ?_
    intro key inside
    refine Function.update_of_ne ?_ ..
    rintro rfl
    exact not_concat_prefix _ _ inside

end Ncfcc.Library
