import Mathlib.Data.List.Nodup
import Mathlib.Data.List.Perm.Basic
import Mathlib.Logic.Function.Basic
import Mathlib.Order.Lattice
import Ncfcc.Library.TimedSet

/-! Lists over arbitrary types that stand in the order of a rank, such as the time of the last
use, and what is dropped from their front. -/
namespace Ncfcc.Library

/-- The items come from the least to the greatest rank, and no two ranks are equal. -/
def Ascending {α β : Type*} [LT β] (rank : α → β) (items : List α) : Prop :=
  items.Pairwise fun first second => rank first < rank second

/-- What is left has the size that there is room for, and all that is gone ranks below it. -/
structure DropsLeast {α β : Type*} [LT β] (rank : α → β) (room : Nat) (before after : List α) : Prop where
  kept : ∀ item ∈ after, item ∈ before
  size : after.length = min before.length room
  least : ∀ gone ∈ before, gone ∉ after → ∀ item ∈ after, rank gone < rank item

section
variable {α β : Type*} [Preorder β] {rank : α → β} {items : List α}

theorem Ascending.nodup (ascending : Ascending rank items) : items.Nodup :=
  List.Pairwise.imp (fun {first second} (less : rank first < rank second) same => ne_of_lt less (congrArg rank same)) ascending

theorem Ascending.congr {other : α → β} (ascending : Ascending rank items)
    (same : ∀ item ∈ items, other item = rank item) : Ascending other items := by
  apply ascending.imp_of_mem
  intro first second here there less
  rw [same first here,same second there]
  exact less

theorem Ascending.concat (ascending : Ascending rank items) {last : α} (greatest : ∀ item ∈ items, rank item < rank last) :
    Ascending rank (items ++ [last]) := by
  refine List.pairwise_append.mpr ⟨ascending,List.pairwise_singleton _ _,?_⟩
  intro item inside other single
  rw [List.mem_singleton.mp single]
  exact greatest item inside

/-- Dropping from the front drops the least. -/
theorem Ascending.dropsLeast {before after : List α} {room : Nat} (ascending : Ascending rank items)
    (same : before.Perm items) (rest : after.Perm (items.drop (items.length - room))) :
    DropsLeast rank room before after := by
  refine ⟨?_,?_,?_⟩
  · intro item inside
    exact same.mem_iff.mpr (List.mem_of_mem_drop (rest.mem_iff.mp inside))
  · rw [rest.length_eq,same.length_eq,List.length_drop]
    omega
  · intro gone there absent item inside
    have split : gone ∈ items.take (items.length - room) ++ items.drop (items.length - room) := by
      rw [List.take_append_drop]
      exact same.mem_iff.mp there
    have front : gone ∈ items.take (items.length - room) :=
      (List.mem_append.mp split).resolve_right fun back => absent (rest.mem_iff.mpr back)
    have ordered : Ascending rank (items.take (items.length - room) ++ items.drop (items.length - room)) := by
      rw [List.take_append_drop]
      exact ascending
    exact (List.pairwise_append.mp ordered).2.2 gone front item (rest.mem_iff.mp inside)

variable [DecidableEq α] {now : β}

theorem Ascending.push (ascending : Ascending rank items) (before : ∀ item ∈ items, rank item < now) {new : α}
    (absent : new ∉ items) : Ascending (Function.update rank new now) (items ++ [new]) := by
  have apart : ∀ item ∈ items, Function.update rank new now item = rank item := by
    intro item inside
    apply Function.update_of_ne
    exact fun same => absent (same ▸ inside)
  apply (ascending.congr apart).concat
  intro item inside
  rw [apart item inside,Function.update_self]
  exact before item inside

/-- An item is moved to the end with the greatest rank. -/
theorem Ascending.touch (ascending : Ascending rank items) (before : ∀ item ∈ items, rank item < now) (used : α) :
    Ascending (Function.update rank used now) (items.erase used ++ [used]) := by
  have rest : Ascending rank (items.erase used) := ascending.sublist List.erase_sublist
  refine rest.push ?_ ascending.nodup.not_mem_erase
  intro item inside
  exact before item (List.mem_of_mem_erase inside)

end

theorem Ascending.place {κ τ β : Type} [LinearOrder τ] [Preorder β] {rank : κ → β} {entry : κ × τ} {entries : List (κ × τ)}
    (ascending : Ascending rank (entries.map Prod.fst))
    (earlier : ∀ other ∈ entries, entry.2 < other.2 → rank entry.1 < rank other.1)
    (later : ∀ other ∈ entries, ¬ entry.2 < other.2 → rank other.1 < rank entry.1) :
    Ascending rank ((TimedSet.place entry entries).map Prod.fst) := by
  induction entries with
  | nil => exact List.pairwise_singleton _ _
  | cons head tail ih =>
    obtain ⟨least,rest⟩ := List.pairwise_cons.mp ascending
    obtain ⟨before,earlier⟩ := List.forall_mem_cons.mp earlier
    obtain ⟨after,later⟩ := List.forall_mem_cons.mp later
    unfold TimedSet.place
    split
    · rename_i first
      refine List.pairwise_cons.mpr ⟨?_,ascending⟩
      intro key inside
      rcases List.mem_cons.mp inside with rfl | below
      · exact before first
      · exact (before first).trans (least key below)
    · rename_i last
      refine List.pairwise_cons.mpr ⟨?_,ih rest earlier later⟩
      intro key inside
      rcases List.mem_cons.mp (((TimedSet.place_perm entry tail).map Prod.fst).mem_iff.mp inside) with rfl | below
      · exact after last
      · exact least key below

end Ncfcc.Library
