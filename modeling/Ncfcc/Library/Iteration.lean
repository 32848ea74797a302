import Mathlib.Data.List.Induction
import Mathlib.Data.List.Nodup

/-! Forward iterators over arbitrary items: the items met from a first one by a function to
the next, for at most as many of them as a bound. The order in which such a function goes through a list.
Loops over lists that no step ends early. -/
namespace Ncfcc.Library

variable {α : Type*}

def iterate (next : α → Option α) : (fuel : Nat) → Option α → List α
  | 0, _ => []
  | _ + 1, none => []
  | fuel + 1, some item => item :: iterate next fuel (next item)

/-- An iterator that finds the next accepted item of a list meets all accepted ones. -/
theorem iterate_find {next : α → Option α} {accepts : α → Bool} {items : List α}
    (finds : ∀ before item after, items = before ++ item :: after → next item = after.find? accepts)
    {fuel : Nat} (enough : items.length ≤ fuel) :
    iterate next fuel (items.find? accepts) = items.filter accepts := by
  suffices rest : ∀ after before fuel, items = before ++ after → after.length ≤ fuel →
      iterate next fuel (after.find? accepts) = after.filter accepts from rest items [] fuel rfl enough
  intro after
  induction after with
  | nil =>
    intro _ fuel _ _
    cases fuel <;> rfl
  | cons item after ih =>
    intro before fuel split bound
    have later : items = (before ++ [item]) ++ after := by simpa using split
    cases fuel with
    | zero => exact absurd bound (Nat.not_succ_le_zero _)
    | succ fuel =>
      cases accepted : accepts item with
      | true =>
        rw [List.find?_cons_of_pos accepted,List.filter_cons_of_pos accepted,iterate,finds before item after split]
        rw [ih _ fuel later (Nat.le_of_succ_le_succ bound)]
      | false =>
        rw [List.find?_cons_of_neg (by simp [accepted]),List.filter_cons_of_neg (by simp [accepted])]
        exact ih _ (fuel + 1) later (Nat.le_succ_of_le (Nat.le_of_succ_le_succ bound))

/-- Each item is followed by the next one of the list, and the last one by the one given. -/
def Follows (next : α → Option α) (last : Option α) : List α → Prop
  | [] => True
  | item :: rest => next item = rest.head?.or last ∧ Follows next last rest

theorem Follows.append {next : α → Option α} {last : Option α} {front back : List α}
    (first : Follows next (back.head?.or last) front) (second : Follows next last back) :
    Follows next last (front ++ back) := by
  induction front with
  | nil => exact second
  | cons item rest ih =>
    obtain ⟨followed,later⟩ := first
    have ahead : next item = (rest ++ back).head?.or last := by
      rw [followed,List.head?_append,Option.or_assoc]
    exact ⟨ahead,ih later⟩

theorem Follows.suffix {next : α → Option α} {last : Option α} {front back : List α}
    (follows : Follows next last (front ++ back)) : Follows next last back := by
  induction front with
  | nil => exact follows
  | cons _ _ ih => exact ih follows.2

/-- What each step keeps, whatever came before it, a whole loop keeps. -/
theorem foldlM_pure {m : Type → Type} [Monad m] [LawfulMonad m] {σ : Type} {step : σ → α → m σ} {items : List α}
    {motive : List α → σ → Prop} {s : σ} (start : motive [] s)
    (each : ∀ seen item, seen ++ [item] <+: items → ∀ s, motive seen s →
      ∃ t, step s item = pure t ∧ motive (seen ++ [item]) t) :
    ∃ t, items.foldlM step s = pure t ∧ motive items t := by
  induction items using List.reverseRecOn with
  | nil => exact ⟨s,List.foldlM_nil,start⟩
  | append_singleton items item ih =>
    obtain ⟨t,done,kept⟩ := ih fun seen other front => each seen other (front.trans (List.prefix_append items [item]))
    obtain ⟨u,last,after⟩ := each items item (List.prefix_refl _) t kept
    refine ⟨u,?_,after⟩
    rw [List.foldlM_append,done,pure_bind,List.foldlM_cons,last,pure_bind,List.foldlM_nil]

theorem foldlM_flatMap {m : Type → Type} [Monad m] [LawfulMonad m] {σ β : Type} (step : σ → β → m σ) (parts : α → List β)
    (items : List α) (state : σ) : (items.flatMap parts).foldlM step state = items.foldlM (fun state item => (parts item).foldlM step state) state := by
  induction items generalizing state with
  | nil => rfl
  | cons item rest ih =>
    rw [List.flatMap_cons,List.foldlM_append,List.foldlM_cons]
    exact bind_congr fun next => ih next

/-- A map over a list that no item ends early. -/
theorem mapM_eq_some_iff {β : Type*} (f : α → Option β) (items : List α) (made : List β) :
    items.mapM f = some made ↔ items.map f = made.map some := by
  induction items generalizing made with
  | nil => cases made <;> simp
  | cons item rest ih =>
    rw [List.mapM_cons,List.map_cons]
    cases f item with
    | none => cases made <;> simp
    | some first =>
      cases made with
      | nil => cases rest.mapM f <;> simp
      | cons head tail =>
        rw [List.map_cons,List.cons.injEq,← ih tail]
        cases rest.mapM f <;> simp

theorem mapM_eq_none {β : Type*} {f : α → Option β} {items : List α} : items.mapM f = none ↔ ∃ item ∈ items, f item = none := by
  induction items with
  | nil => simp
  | cons item rest ih =>
    rw [List.mapM_cons,List.exists_mem_cons_iff,← ih]
    cases f item with
    | none => simp
    | some first => cases rest.mapM f <;> simp

theorem exists_map_some {items : List (Option α)} : (∃ list : List α, items = list.map some) ↔ none ∉ items := by
  apply Iff.intro
  · rintro ⟨list,rfl⟩
    simp
  · intro all
    induction items with
    | nil => exact ⟨[],rfl⟩
    | cons first rest ih =>
      rw [List.mem_cons,not_or] at all
      obtain ⟨list,rfl⟩ := ih all.2
      cases first with
      | none => exact absurd rfl all.1
      | some item => exact ⟨item :: list,rfl⟩

theorem forall₂_of_map_eq {β : Type*} {f : α → Option β} {items : List α} {made : List β} (same : items.map f = made.map some) :
    List.Forall₂ (fun item result => f item = some result) items made := by
  induction items generalizing made with
  | nil =>
    rw [List.map_eq_nil_iff.mp same.symm]
    exact .nil
  | cons item rest ih =>
    cases made with
    | nil => cases same
    | cons first others =>
      obtain ⟨one,later⟩ := List.cons.inj same
      exact .cons one (ih later)

end Ncfcc.Library
