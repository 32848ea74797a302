import Mathlib.Data.List.Nodup
import Mathlib.Data.List.Infix

/-! Wholes that arrive in numbered pieces, in any order. -/
namespace Ncfcc.Library.Gathering
variable {ι : Type*} {counts : ι → Nat} {seen : List (ι × Nat)} {whole : ι}

def Complete (counts : ι → Nat) (seen : List (ι × Nat)) (whole : ι) : Prop :=
  ∀ index < counts whole, (whole,index) ∈ seen

def Partly (counts : ι → Nat) (seen : List (ι × Nat)) (whole : ι) : Prop :=
  (∃ index < counts whole, (whole,index) ∈ seen) ∧ ¬ Complete counts seen whole

/-- An order in which all pieces arrive. A piece may come again, but not once its whole is
complete. -/
structure Arrival (counts : ι → Nat) (pieces : List (ι × Nat)) : Prop where
  all : ∀ piece, piece ∈ pieces ↔ piece.2 < counts piece.1
  fresh : ∀ earlier piece later, pieces = earlier ++ piece :: later → ¬ Complete counts earlier piece.1

theorem Complete.append (complete : Complete counts seen whole) (pieces : List (ι × Nat)) :
    Complete counts (seen ++ pieces) whole :=
  fun index inside => List.mem_append_left pieces (complete index inside)

theorem Partly.several (partly : Partly counts seen whole) : 1 < counts whole := by
  obtain ⟨⟨index,inside,member⟩,missing⟩ := partly
  by_contra few
  refine missing fun other within => ?_
  have same : other = index := by omega
  rwa [same]

/-- A piece says nothing about other wholes. -/
theorem mem_append_other {piece : ι × Nat} (other : piece.1 ≠ whole) (index : Nat) :
    (whole,index) ∈ seen ++ [piece] ↔ (whole,index) ∈ seen := by
  rw [List.mem_append,List.mem_singleton]
  constructor
  · rintro (member | rfl)
    · exact member
    · exact absurd rfl other
  · exact Or.inl

private theorem complete_append_other {piece : ι × Nat} (other : piece.1 ≠ whole) :
    Complete counts (seen ++ [piece]) whole ↔ Complete counts seen whole := by
  unfold Complete
  simp only [mem_append_other other]

theorem partly_append_other {piece : ι × Nat} (other : piece.1 ≠ whole) :
    Partly counts (seen ++ [piece]) whole ↔ Partly counts seen whole := by
  unfold Partly
  simp only [mem_append_other other,complete_append_other other]

/-- A whole of several pieces is not complete with its first piece. -/
theorem not_complete_first {index : Nat} (several : counts whole ≠ 1) (inside : index < counts whole)
    (unseen : ∀ index < counts whole, (whole,index) ∉ seen) : ¬ Complete counts (seen ++ [(whole,index)]) whole := by
  obtain ⟨other,within,different⟩ : ∃ other < counts whole, other ≠ index := by
    by_cases zero : index = 0
    · exact ⟨1,by omega,by omega⟩
    · exact ⟨0,by omega,Ne.symm zero⟩
  intro complete
  rcases List.mem_append.mp (complete other within) with before | now
  · exact unseen other within before
  · cases List.mem_singleton.mp now
    exact different rfl

/-- Nor is it complete with a piece unless another one was seen before. -/
theorem partly_of_completed {index : Nat} (several : counts whole ≠ 1) (inside : index < counts whole)
    (fresh : ¬ Complete counts seen whole) (complete : Complete counts (seen ++ [(whole,index)]) whole) :
    Partly counts seen whole := by
  by_contra never
  exact not_complete_first several inside (fun other within member => never ⟨⟨other,within,member⟩,fresh⟩) complete

/-- Pieces that come once each come in time. -/
theorem Arrival.of_nodup {pieces : List (ι × Nat)} (once : pieces.Nodup)
    (all : ∀ piece, piece ∈ pieces ↔ piece.2 < counts piece.1) : Arrival counts pieces := by
  refine ⟨all,?_⟩
  rintro earlier piece later rfl complete
  have inside : piece.2 < counts piece.1 := (all piece).mp (List.mem_append_right _ List.mem_cons_self)
  have disjoint := (List.nodup_append.mp once).2.2
  exact disjoint piece (complete piece.2 inside) piece List.mem_cons_self rfl

variable [DecidableEq ι]

instance (counts : ι → Nat) (seen : List (ι × Nat)) (whole : ι) : Decidable (Complete counts seen whole) :=
  inferInstanceAs (Decidable (∀ index < counts whole, (whole,index) ∈ seen))

instance (counts : ι → Nat) (seen : List (ι × Nat)) (whole : ι) : Decidable (Partly counts seen whole) :=
  inferInstanceAs (Decidable ((∃ index < counts whole, (whole,index) ∈ seen) ∧ _))

/-- The wholes in the order in which they become complete. -/
def completions (counts : ι → Nat) : (seen pieces : List (ι × Nat)) → List ι
  | _, [] => []
  | seen, piece :: pieces =>
    (if ¬ Complete counts seen piece.1 ∧ Complete counts (seen ++ [piece]) piece.1 then [piece.1] else []) ++
      completions counts (seen ++ [piece]) pieces

theorem mem_completions (pieces seen : List (ι × Nat)) : whole ∈ completions counts seen pieces ↔
    ¬ Complete counts seen whole ∧ Complete counts (seen ++ pieces) whole := by
  induction pieces generalizing seen with
  | nil => simp [completions]
  | cons piece pieces ih =>
    have split : seen ++ piece :: pieces = (seen ++ [piece]) ++ pieces := by
      rw [List.append_assoc,List.singleton_append]
    unfold completions
    rw [List.mem_append,ih,split]
    constructor
    · rintro (now | ⟨missing,complete⟩)
      · split_ifs at now with completed
        · cases List.mem_singleton.mp now
          exact ⟨completed.1,completed.2.append pieces⟩
        · cases now
      · exact ⟨fun before => missing (before.append [piece]),complete⟩
    · rintro ⟨missing,complete⟩
      by_cases now : Complete counts (seen ++ [piece]) whole
      · left
        have same : piece.1 = whole := by
          by_contra other
          exact missing ((complete_append_other other).mp now)
        subst same
        rw [if_pos ⟨missing,now⟩]
        exact List.mem_singleton.mpr rfl
      · exact Or.inr ⟨now,complete⟩

/-- No whole becomes complete twice. -/
theorem completions_nodup (pieces seen : List (ι × Nat)) : (completions counts seen pieces).Nodup := by
  induction pieces generalizing seen with
  | nil => exact List.nodup_nil
  | cons piece pieces ih =>
    unfold completions
    split_ifs with completed
    · refine List.nodup_cons.mpr ⟨?_,ih (seen ++ [piece])⟩
      intro again
      exact ((mem_completions pieces (seen ++ [piece])).mp again).1 completed.2
    · exact ih (seen ++ [piece])

/-- When all pieces have arrived the wholes that have pieces are complete. -/
theorem Arrival.mem_completions {pieces : List (ι × Nat)} (arrival : Arrival counts pieces) :
    whole ∈ completions counts [] pieces ↔ 0 < counts whole := by
  rw [Gathering.mem_completions,List.nil_append]
  constructor
  · rintro ⟨missing,-⟩
    by_contra none
    exact missing fun index inside => absurd inside (by omega)
  · intro some
    refine ⟨fun complete => ?_,fun index inside => (arrival.all (whole,index)).mpr inside⟩
    exact absurd (complete 0 some) List.not_mem_nil

end Ncfcc.Library.Gathering
