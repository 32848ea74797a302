import Mathlib.Order.Lattice
import Mathlib.Data.List.Infix
import Mathlib.Data.List.Lex

/-! Searching ordered lists over arbitrary types: what a lower bound cuts off, and the
lexicographic order of lists, where the lists with one prefix are neighbours. -/
namespace Ncfcc.Library

section
variable {α : Type*} {before : α → α → Prop} {passes : α → Bool} {items : List α}

/-- A test that is passed by all items before one that passes holds of the places up to a bound. -/
theorem lt_takeWhile_iff (ordered : items.Pairwise before)
    (downward : ∀ first second, before first second → passes second = true → passes first = true) (i : Nat) :
    i < (items.takeWhile passes).length ↔ ∃ item, items[i]? = some item ∧ passes item = true := by
  induction items generalizing i with
  | nil => simp
  | cons first rest ih =>
    obtain ⟨smaller,later⟩ := List.pairwise_cons.mp ordered
    cases passed : passes first with
    | true =>
      rw [List.takeWhile_cons_of_pos passed,List.length_cons]
      cases i with
      | zero => simp [passed]
      | succ i =>
        rw [Nat.add_lt_add_iff_right,ih later i]
        rfl
    | false =>
      rw [List.takeWhile_cons_of_neg (by simp [passed])]
      refine iff_of_false (Nat.not_lt_zero i) ?_
      rintro ⟨item,there,passing⟩
      cases i with
      | zero =>
        cases there
        rw [passed] at passing
        cases passing
      | succ i =>
        have earlier := downward first item (smaller item (List.mem_of_getElem? there)) passing
        rw [passed] at earlier
        cases earlier

theorem takeWhile_congr {other : α → Bool} (same : ∀ item ∈ items, passes item = other item) :
    items.takeWhile passes = items.takeWhile other := by
  induction items with
  | nil => rfl
  | cons first rest ih =>
    rw [List.takeWhile_cons,List.takeWhile_cons,same first List.mem_cons_self,
      ih fun item inside => same item (List.mem_cons_of_mem _ inside)]

/-- The front of an ordered list that passes such a test is all that passes, and the rest is what does not. -/
theorem split_eq_filter (ordered : items.Pairwise before)
    (downward : ∀ first second, before first second → passes second = true → passes first = true) :
    items.takeWhile passes = items.filter passes ∧ items.dropWhile passes = items.filter fun item => !passes item := by
  induction items with
  | nil => exact ⟨rfl,rfl⟩
  | cons first rest ih =>
    obtain ⟨smaller,later⟩ := List.pairwise_cons.mp ordered
    obtain ⟨front,back⟩ := ih later
    cases passed : passes first with
    | true =>
      rw [List.takeWhile_cons_of_pos passed,List.dropWhile_cons_of_pos passed,List.filter_cons_of_pos passed,
        List.filter_cons_of_neg (by simp [passed]),front,back]
      exact ⟨rfl,rfl⟩
    | false =>
      have none : ∀ item ∈ rest, passes item = false := by
        intro item inside
        by_contra passing
        have earlier := downward first item (smaller item inside) (by simpa using passing)
        rw [passed] at earlier
        cases earlier
      rw [List.takeWhile_cons_of_neg (by simp [passed]),List.dropWhile_cons_of_neg (by simp [passed]),
        List.filter_cons_of_neg (by simp [passed]),List.filter_cons_of_pos (by simp [passed])]
      exact ⟨(List.filter_eq_nil_iff.mpr fun item inside => by simp [none item inside]).symm,
        congrArg (first :: ·) (List.filter_eq_self.mpr fun item inside => by simp [none item inside]).symm⟩

/-- An item that is put behind those before it keeps the order. -/
theorem ordered_insert {new : α} (ordered : items.Pairwise before) (trans : ∀ first second third, before first second →
    before second third → before first third) (passes_iff : ∀ item, passes item = true ↔ before item new)
    (total : ∀ item ∈ items, before item new ∨ before new item) :
    (items.takeWhile passes ++ new :: items.dropWhile passes).Pairwise before := by
  have downward : ∀ first second, before first second → passes second = true → passes first = true := by
    intro first second less passing
    exact (passes_iff first).mpr (trans _ _ _ less ((passes_iff second).mp passing))
  obtain ⟨front,back⟩ := split_eq_filter ordered downward
  have low : ∀ item ∈ items.takeWhile passes, before item new := by
    intro item inside
    rw [front] at inside
    exact (passes_iff item).mp (List.mem_filter.mp inside).2
  have high : ∀ item ∈ items.dropWhile passes, before new item := by
    intro item inside
    rw [back] at inside
    obtain ⟨there,failing⟩ := List.mem_filter.mp inside
    refine (total item there).resolve_left fun less => ?_
    rw [(passes_iff item).mpr less] at failing
    cases failing
  rw [List.pairwise_append,List.pairwise_cons]
  refine ⟨ordered.sublist (List.takeWhile_sublist _),⟨high,ordered.sublist (List.dropWhile_sublist _)⟩,?_⟩
  intro first early second late
  rcases List.mem_cons.mp late with rfl | later
  · exact low first early
  · exact trans _ _ _ (low first early) (high second later)

theorem takeWhile_length_le : (items.takeWhile passes).length ≤ items.length :=
  (List.takeWhile_sublist passes).length_le

end

section
variable {α : Type*} [LinearOrder α]

/-- What lies between a list and one that it is a prefix of has the prefix too. -/
theorem prefix_of_between {front long middle : List α} (inside : front <+: long) (above : ¬ middle < front)
    (below : ¬ long < middle) : front <+: middle := by
  induction front generalizing long middle with
  | nil => exact List.nil_prefix
  | cons first front ih =>
    obtain ⟨rest,rfl⟩ := inside
    cases middle with
    | nil => exact absurd (List.nil_lt_cons first front) above
    | cons other middle =>
      rw [List.cons_lt_cons_iff,not_or,not_and] at above
      rw [List.cons_append,List.cons_lt_cons_iff,not_or,not_and] at below
      have same : other = first := le_antisymm (not_lt.mp below.1) (not_lt.mp above.1)
      subst same
      exact List.cons_prefix_cons.mpr ⟨rfl,ih (List.prefix_append front rest) (above.2 rfl) (below.2 rfl)⟩

theorem not_lt_of_front {front long : List α} (inside : front <+: long) : ¬ long < front := by
  obtain ⟨rest,rfl⟩ := inside
  induction front with
  | nil => exact List.not_lt_nil _
  | cons first front ih =>
    rw [List.cons_append,List.cons_lt_cons_iff]
    rintro (less | ⟨-,less⟩)
    · exact lt_irrefl first less
    · exact ih less

/-- Between lists that differ in their last items, with none between these, are the lists with the first as a prefix. -/
theorem between_iff {β : Type*} {key : β → α} (injective : Function.Injective key) {last next : β}
    (adjacent : ∀ other, key other < key next ↔ key other ≤ key last) (front other : List β) :
    (¬ other.map key < (front ++ [last]).map key ∧ other.map key < (front ++ [next]).map key) ↔
      front ++ [last] <+: other := by
  induction front generalizing other with
  | nil =>
    cases other with
    | nil => simp [List.nil_lt_cons]
    | cons first rest =>
      rw [List.nil_append,List.nil_append,List.map_cons,List.map_cons,List.map_cons,List.cons_lt_cons_iff,
        List.cons_lt_cons_iff,List.cons_prefix_cons,adjacent]
      simp only [List.map_nil,List.not_lt_nil,and_false,or_false,List.nil_prefix,and_true,not_lt]
      exact ⟨fun both => injective (le_antisymm both.1 both.2),fun same => same ▸ ⟨le_refl _,le_refl _⟩⟩
  | cons start front ih =>
    cases other with
    | nil => simp [List.nil_lt_cons]
    | cons first rest =>
      rw [List.cons_append,List.cons_append,List.map_cons,List.map_cons,List.map_cons,List.cons_lt_cons_iff,
        List.cons_lt_cons_iff,List.cons_prefix_cons,← ih]
      rcases lt_trichotomy (key first) (key start) with less | same | more
      · have other : start ≠ first := fun equal => less.ne (congrArg key equal.symm)
        simp [less,other]
      · obtain rfl := injective same
        simp
      · have other : start ≠ first := fun equal => more.ne (congrArg key equal)
        simp [more.ne',other,not_lt.mpr more.le]

end

/-- An injective renaming keeps prefixes apart. -/
theorem prefix_map_iff {α β : Type*} {rename : α → β} (injective : Function.Injective rename) {front long : List α} :
    front.map rename <+: long.map rename ↔ front <+: long := by
  constructor
  · intro inside
    rw [List.prefix_iff_eq_take,List.length_map,← List.map_take] at inside
    rw [List.prefix_iff_eq_take]
    exact injective.list_map inside
  · exact fun inside => inside.map rename

/-- A search from the greatest number down. -/
theorem findSome_descending {α : Type*} (search : Nat → Option α) (count : Nat) (result : α) :
    (List.range count).reverse.findSome? search = some result ↔
      ∃ level < count, search level = some result ∧ ∀ higher < count, level < higher → search higher = none := by
  induction count with
  | zero => simp
  | succ count ih =>
    rw [List.range_succ,List.reverse_append,List.reverse_singleton,List.singleton_append,List.findSome?_cons]
    cases last : search count with
    | some found =>
      simp only [Option.some.injEq]
      constructor
      · rintro rfl
        exact ⟨count,Nat.lt_succ_self _,last,fun higher bound above => by omega⟩
      · rintro ⟨level,bound,here,above⟩
        by_cases same : level = count
        · rw [same,last] at here
          exact Option.some.inj here
        · have missing := above count (Nat.lt_succ_self _) (by omega)
          rw [last] at missing
          cases missing
    | none =>
      dsimp only
      rw [ih]
      constructor
      · rintro ⟨level,bound,here,above⟩
        refine ⟨level,by omega,here,?_⟩
        intro higher below beyond
        by_cases same : higher = count
        · rw [same]
          exact last
        · exact above higher (by omega) beyond
      · rintro ⟨level,bound,here,above⟩
        have other : level ≠ count := by
          rintro rfl
          rw [last] at here
          cases here
        exact ⟨level,by omega,here,fun higher below beyond => above higher (by omega) beyond⟩

end Ncfcc.Library
