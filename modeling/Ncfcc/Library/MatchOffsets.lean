import Mathlib.Data.List.Basic

/-! A matched text in pieces, of which some are what a group of the expression matched. The offsets of a
group are those of its last match. -/
namespace Ncfcc.Library

abbrev Pieces := List (Option Nat × List Char)

namespace Pieces

def text (pieces : Pieces) : List Char := pieces.flatMap Prod.snd

def offsets (group : Nat) : Nat → Pieces → Option (Nat × Nat)
  | _,[] => none
  | start,(own,piece) :: rest =>
    (offsets group (start + piece.length) rest).or (if own = some group then some (start,start + piece.length) else none)

variable {group start : Nat} {front back : Pieces}

theorem text_append (front back : Pieces) : text (front ++ back) = text front ++ text back := by
  simp [text]

private theorem offsets_append (group start : Nat) (front back : Pieces) :
    offsets group start (front ++ back) = (offsets group (start + (text front).length) back).or (offsets group start front) := by
  induction front generalizing start with
  | nil => simp [offsets,text]
  | cons piece rest ih =>
    have length : (text (piece :: rest)).length = piece.2.length + (text rest).length := by
      simp [text]
    rw [List.cons_append,offsets,offsets,ih,length,Option.or_assoc,Nat.add_assoc]

theorem offsets_eq_none (start : Nat) (absent : ∀ piece ∈ front, piece.1 ≠ some group) : offsets group start front = none := by
  induction front generalizing start with
  | nil => rfl
  | cons piece rest ih =>
    have own := absent piece List.mem_cons_self
    rw [offsets,ih (start + piece.2.length) fun other member => absent other (List.mem_cons_of_mem piece member),if_neg own]
    rfl

theorem offsets_bounds {offset : Nat × Nat} (found : offsets group start front = some offset) :
    start ≤ offset.1 ∧ offset.1 ≤ offset.2 ∧ offset.2 ≤ start + (text front).length := by
  induction front generalizing start with
  | nil => exact nomatch found
  | cons piece rest ih =>
    have length : (text (piece :: rest)).length = piece.2.length + (text rest).length := by
      simp [text]
    rcases Option.or_eq_some_iff.mp found with later | ⟨_,own⟩
    · have bounds := ih later
      omega
    · obtain ⟨_,same⟩ := Option.ite_none_right_eq_some.mp own
      obtain rfl := Option.some.inj same
      refine ⟨Nat.le_refl start,Nat.le_add_right ..,?_⟩
      dsimp only
      omega

theorem offsets_eq_some (start : Nat) (front : Pieces) (piece : List Char) (others : ∀ other ∈ back, other.1 ≠ some group) :
    offsets group start (front ++ (some group,piece) :: back) =
      some (start + (text front).length,start + (text front).length + piece.length) := by
  rw [offsets_append,offsets,offsets_eq_none _ others,if_pos rfl]
  rfl

/-- A group ends in front of pieces that it did not match or behind them. -/
theorem offsets_outside {middle : Pieces} (others : ∀ piece ∈ middle, piece.1 ≠ some group) {offset : Nat × Nat}
    (found : offsets group start (front ++ (middle ++ back)) = some offset) :
    offsets group start front = some offset ∨ start + (text front).length + (text middle).length ≤ offset.2 := by
  rw [offsets_append,offsets_append,offsets_eq_none _ others,Option.or_none] at found
  rcases Option.or_eq_some_iff.mp found with later | ⟨_,earlier⟩
  · have bounds := offsets_bounds later
    exact Or.inr (Nat.le_trans bounds.1 bounds.2.1)
  · exact Or.inl earlier

theorem offsets_isSome (start : Nat) (matched : ∃ piece ∈ front, piece.1 = some group) : (offsets group start front).isSome = true := by
  obtain ⟨⟨own,piece⟩,member,rfl⟩ := matched
  obtain ⟨before,behind,rfl⟩ := List.append_of_mem member
  rw [offsets_append,offsets,if_pos rfl,Option.isSome_or,Option.isSome_or]
  simp

end Pieces

end Ncfcc.Library
