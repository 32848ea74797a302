import Mathlib.Data.List.Nodup

/-! Lists of items over an arbitrary type that are told apart by a key. -/
namespace Ncfcc.Library

variable {α β : Type*} [DecidableEq β] {key : α → β} {items : List α}

/-- Erasing the first item with a key erases all of them. -/
theorem eraseP_key (distinct : (items.map key).Nodup) (gone : β) :
    (items.eraseP fun item => key item = gone) = items.filter fun item => key item ≠ gone := by
  induction items with
  | nil => rfl
  | cons first rest ih =>
    rw [List.map_cons,List.nodup_cons] at distinct
    by_cases here : key first = gone
    · have others : rest.filter (fun item => key item ≠ gone) = rest := by
        apply List.filter_eq_self.mpr
        intro item inside
        apply decide_eq_true
        intro same
        exact distinct.1 (here ▸ same ▸ List.mem_map_of_mem inside)
      rw [List.eraseP_cons_of_pos (by simpa using here),List.filter_cons_of_neg (by simpa using here),others]
    · rw [List.eraseP_cons_of_neg (by simpa using here),List.filter_cons_of_pos (by simpa using here),ih distinct.2]

/-- Erasing the item with a key takes the key out of the keys. -/
theorem map_eraseP_key [BEq β] [LawfulBEq β] (distinct : (items.map key).Nodup) (gone : β) :
    (items.eraseP fun item => key item = gone).map key = (items.map key).erase gone := by
  rw [eraseP_key distinct,distinct.erase_eq_filter,List.filter_map]
  congr 1
  refine List.filter_congr fun item _ => ?_
  rw [Bool.eq_iff_iff]
  simp

theorem find_key_eq_some_iff (distinct : (items.map key).Nodup) (sought : β) (item : α) :
    (items.find? fun other => key other = sought) = some item ↔ item ∈ items ∧ key item = sought := by
  constructor
  · intro found
    have passed := List.find?_some found
    exact ⟨List.mem_of_find?_eq_some found,of_decide_eq_true passed⟩
  · rintro ⟨inside,named⟩
    cases found : items.find? fun other => key other = sought with
    | none => exact absurd (decide_eq_true named) (List.find?_eq_none.mp found item inside)
    | some other =>
      have passed := List.find?_some found
      have same := (of_decide_eq_true passed).trans named.symm
      rw [List.inj_on_of_nodup_map distinct (List.mem_of_find?_eq_some found) inside same]

end Ncfcc.Library
