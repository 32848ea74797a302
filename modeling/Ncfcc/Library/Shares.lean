import Mathlib.Algebra.BigOperators.Group.Finset.Basic
import Mathlib.Algebra.Order.BigOperators.Group.Finset
import Mathlib.Algebra.Order.Field.Basic

/-! Drawing by weights over an arbitrary ordered field: the shares of the first weights in the total rise from
zero to one, and each number in between falls into the interval of just one weight. -/
namespace Ncfcc.Library
variable {K : Type*} {n : Nat}

/-! Intervals. -/

section
variable [LinearOrder K] {table : Nat → K}

def FallsInto (table : Nat → K) (n : Nat) (p : K) (i : Nat) : Prop :=
  1 ≤ i ∧ i ≤ n ∧ table (i - 1) < p ∧ p ≤ table i

/-- Where the table rises, the intervals are disjoint. -/
theorem FallsInto.unique (rises : ∀ i j, i < j → j ≤ n → table i < table j) {p : K} {i j : Nat} (one : FallsInto table n p i)
    (other : FallsInto table n p j) : i = j := by
  have apart : ∀ {i j}, FallsInto table n p i → FallsInto table n p j → ¬i < j := by
    intro i j one other before
    have least : table i ≤ table (j - 1) := by
      rcases (Nat.le_sub_one_of_lt before).eq_or_lt with same | less
      · rw [same]
      · exact (rises i (j - 1) less ((Nat.sub_le j 1).trans other.2.1)).le
    exact absurd (one.2.2.2.trans least) (not_le_of_gt other.2.2.1)
  exact Nat.le_antisymm (Nat.le_of_not_lt (apart other one)) (Nat.le_of_not_lt (apart one other))

end

/-! Weights. -/

section
variable [Field K] (weight : Nat → K)

def cumulated (i : Nat) : K := ∑ j ∈ Finset.range i, weight (j + 1)

/-- The share of the first weights in the first `n`. -/
def share (n i : Nat) : K := cumulated weight i / cumulated weight n

variable {weight}

theorem cumulated_succ (i : Nat) : cumulated weight (i + 1) = cumulated weight i + weight (i + 1) :=
  Finset.sum_range_succ _ i

theorem share_zero (n : Nat) : share weight n 0 = 0 := by
  simp [share,cumulated]

/-- The length of an interval. -/
theorem share_sub {i : Nat} (first : 1 ≤ i) : share weight n i - share weight n (i - 1) = weight i / cumulated weight n := by
  obtain ⟨i,rfl⟩ := Nat.exists_eq_add_of_le' first
  rw [share,share,Nat.add_sub_cancel,cumulated_succ,← sub_div,add_sub_cancel_left]

variable [LinearOrder K] [IsStrictOrderedRing K] (positive : ∀ i, 1 ≤ i → i ≤ n → 0 < weight i)
include positive

private theorem cumulated_lt {i j : Nat} (before : i < j) (inside : j ≤ n) : cumulated weight i < cumulated weight j := by
  induction j with
  | zero => exact absurd before (Nat.not_lt_zero i)
  | succ j ih =>
    have next : cumulated weight j < cumulated weight (j + 1) := by
      rw [cumulated_succ]
      exact lt_add_of_pos_right _ (positive (j + 1) (Nat.le_add_left 1 j) inside)
    rcases (Nat.lt_succ_iff.mp before).eq_or_lt with rfl | less
    · exact next
    · exact (ih less (Nat.le_of_succ_le inside)).trans next

private theorem cumulated_pos (nonempty : 1 ≤ n) : 0 < cumulated weight n := by
  have least := cumulated_lt positive nonempty (Nat.le_refl n)
  rwa [cumulated,Finset.sum_range_zero] at least

theorem share_self (nonempty : 1 ≤ n) : share weight n n = 1 :=
  div_self (cumulated_pos positive nonempty).ne'

theorem share_lt (nonempty : 1 ≤ n) {i j : Nat} (before : i < j) (inside : j ≤ n) : share weight n i < share weight n j :=
  div_lt_div_of_pos_right (cumulated_lt positive before inside) (cumulated_pos positive nonempty)

end

end Ncfcc.Library
