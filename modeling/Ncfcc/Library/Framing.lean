import Mathlib.Order.Lattice
import Mathlib.Data.List.Infix

/-! Items that delimit themselves in a stream of symbols: what is read off the front of a stream,
whole or in pieces, are the items it was written from, one after the other. -/
namespace Ncfcc.Library

/-- How items are written, and which item a stream starts with. -/
structure Framing (ι β : Type*) where
  wire : ι → List β
  first : List β → Option ι
  wire_ne_nil : ∀ item, wire item ≠ []
  first_eq_some : ∀ {symbols item}, first symbols = some item ↔ wire item <+: symbols

namespace Framing
variable {ι β : Type*} (framing : Framing ι β)

def written (items : List ι) : List β := items.flatMap framing.wire

/-- The items at the front and the symbols behind them, in at most as many rounds as `fuel`. -/
def extract : (fuel : Nat) → List β → List ι × List β
  | 0, symbols => ([],symbols)
  | fuel + 1, symbols =>
    match framing.first symbols with
    | none => ([],symbols)
    | some item =>
      let (items,rest) := extract fuel (symbols.drop (framing.wire item).length)
      (item :: items,rest)

@[simp] theorem written_nil : framing.written [] = [] := rfl

@[simp] theorem written_cons (item : ι) (items : List ι) :
    framing.written (item :: items) = framing.wire item ++ framing.written items := rfl

@[simp] theorem written_append (items others : List ι) :
    framing.written (items ++ others) = framing.written items ++ framing.written others := List.flatMap_append

variable {framing}

/-- Items that streams start with are the same when the streams are. -/
theorem item_eq {first second : ι} {rest others : List β}
    (same : framing.wire first ++ rest = framing.wire second ++ others) : first = second ∧ rest = others := by
  have one : framing.first (framing.wire first ++ rest) = some first := framing.first_eq_some.mpr (List.prefix_append _ _)
  have other : framing.first (framing.wire first ++ rest) = some second :=
    framing.first_eq_some.mpr (same ▸ List.prefix_append _ _)
  obtain rfl : first = second := Option.some.inj (one.symm.trans other)
  exact ⟨rfl,List.append_cancel_left same⟩

/-- What was written starts with what was read, item by item. -/
theorem prefix_of_written {items sent : List ι} {rest : List β} (same : framing.written items ++ rest = framing.written sent) :
    ∃ later, sent = items ++ later ∧ rest = framing.written later := by
  induction items generalizing sent with
  | nil => exact ⟨sent,rfl,same⟩
  | cons item items ih =>
    cases sent with
    | nil =>
      have empty := (List.append_eq_nil_iff.mp (List.append_eq_nil_iff.mp same).1).1
      exact absurd empty (framing.wire_ne_nil item)
    | cons first sent =>
      rw [written_cons,written_cons,List.append_assoc] at same
      obtain ⟨rfl,tail⟩ := item_eq same
      obtain ⟨later,rfl,behind⟩ := ih tail
      exact ⟨later,rfl,behind⟩

theorem extract_spec {fuel : Nat} {symbols : List β} (enough : symbols.length ≤ fuel) :
    framing.written (framing.extract fuel symbols).1 ++ (framing.extract fuel symbols).2 = symbols ∧
      framing.first (framing.extract fuel symbols).2 = none := by
  have never : framing.first [] = none := by
    rw [Option.eq_none_iff_forall_ne_some]
    intro item found
    exact framing.wire_ne_nil item (List.prefix_nil.mp (framing.first_eq_some.mp found))
  induction fuel generalizing symbols with
  | zero =>
    rw [List.length_eq_zero_iff.mp (Nat.le_zero.mp enough)]
    exact ⟨rfl,never⟩
  | succ fuel ih =>
    unfold extract
    cases found : framing.first symbols with
    | none => exact ⟨rfl,found⟩
    | some item =>
      obtain ⟨rest,rfl⟩ := framing.first_eq_some.mp found
      have octets := List.length_pos_iff.mpr (framing.wire_ne_nil item)
      rw [List.length_append] at enough
      have later := @ih rest (by omega)
      dsimp only
      rw [List.drop_left,written_cons,List.append_assoc,later.1]
      exact ⟨rfl,later.2⟩

/-- Where a stream of items has no whole item at the front, the first item is longer than that. -/
theorem longer_of_first_eq_none {front more : List β} {item : ι} {later : List ι}
    (none : framing.first front = none) (same : front ++ more = framing.written (item :: later)) :
    front.length < (framing.wire item).length := by
  by_contra short
  have starts : framing.wire item <+: front ++ more := by
    rw [same]
    exact List.prefix_append _ _
  have inside : framing.wire item <+: front :=
    List.prefix_of_prefix_length_le starts (List.prefix_append _ _) (not_lt.mp short)
  rw [framing.first_eq_some.mpr inside] at none
  cases none

end Framing

end Ncfcc.Library
