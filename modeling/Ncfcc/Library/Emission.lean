import Mathlib.Data.List.Basic

/-! Machines that emit items. A step emits some and goes on or ends, or it is undefined; a run ends with all
that was emitted. -/
namespace Ncfcc.Library
variable {σ α : Type*} {step : σ → Option (List α × Option σ)} {start middle stop : σ} {front back : List α} {early late : Nat}

inductive Emits (step : σ → Option (List α × Option σ)) : σ → List α → Prop
  | last {state : σ} {items : List α} (ends : step state = some (items,none)) : Emits step state items
  | more {state next : σ} {items rest : List α} (goes : step state = some (items,some next)) (later : Emits step next rest) :
    Emits step state (items ++ rest)

inductive Passes (step : σ → Option (List α × Option σ)) : Nat → σ → List α → σ → Prop
  | none {state : σ} : Passes step 0 state [] state
  | more {rounds : Nat} {state next stop : σ} {items rest : List α} (goes : step state = some (items,some next))
    (later : Passes step rounds next rest stop) : Passes step (rounds + 1) state (items ++ rest) stop

theorem Emits.unique (one : Emits step start front) (other : Emits step start back) : front = back := by
  induction one generalizing back with
  | last ends =>
    cases other with
    | last also =>
      cases ends.symm.trans also
      rfl
    | more goes => cases ends.symm.trans goes
  | more goes _ ih =>
    cases other with
    | last ends => cases goes.symm.trans ends
    | more also later =>
      cases goes.symm.trans also
      rw [ih later]

theorem Emits.defined (emits : Emits step start front) : step start ≠ none := by
  intro undefined
  cases emits with
  | last ends => cases undefined.symm.trans ends
  | more goes => cases undefined.symm.trans goes

theorem Passes.one {items : List α} {next : σ} (goes : step start = some (items,some next)) : Passes step 1 start items next := by
  have single := Passes.more goes Passes.none
  rwa [List.append_nil] at single

theorem Passes.trans (one : Passes step early start front middle) (two : Passes step late middle back stop) :
    Passes step (early + late) start (front ++ back) stop := by
  induction one with
  | none => simpa using two
  | more goes _ ih =>
    rw [Nat.add_right_comm,List.append_assoc]
    exact .more goes (ih two)

theorem Passes.emits (passes : Passes step early start front stop) (emits : Emits step stop back) : Emits step start (front ++ back) := by
  induction passes with
  | none => exact emits
  | more goes _ ih =>
    rw [List.append_assoc]
    exact .more goes (ih emits)

/-! Iterators that go from one accepted item of a list to the next. -/

def visiting (next : α → Option (Option α)) (item : α) : Option (List α × Option α) := (next item).map fun after => ([item],after)

theorem emits_filter {next : α → Option (Option α)} {accepts : α → Bool} {items : List α}
    (finds : ∀ before item after, items = before ++ item :: after → accepts item = true → next item = some (after.find? accepts))
    {item : α} (found : items.find? accepts = some item) : Emits (visiting next) item (items.filter accepts) := by
  induction items generalizing item with
  | nil => cases found
  | cons first rest ih =>
    cases accepted : accepts first with
    | false =>
      rw [List.find?_cons_of_neg (by simp [accepted])] at found
      rw [List.filter_cons_of_neg (by simp [accepted])]
      refine ih ?_ found
      rintro before item after rfl
      exact finds (first :: before) item after rfl
    | true =>
      rw [List.find?_cons_of_pos accepted] at found
      obtain rfl : first = item := Option.some.inj found
      rw [List.filter_cons_of_pos accepted]
      have moves := finds [] first rest rfl accepted
      cases searched : rest.find? accepts with
      | none =>
        rw [searched] at moves
        have nothing : rest.filter accepts = [] := List.filter_eq_nil_iff.mpr (List.find?_eq_none.mp searched)
        rw [nothing]
        exact .last (by rw [visiting,moves]; rfl)
      | some later =>
        rw [searched] at moves
        have goes : visiting next first = some ([first],some later) := by
          rw [visiting,moves]
          rfl
        refine .more goes (ih ?_ searched)
        rintro before item after rfl
        exact finds (first :: before) item after rfl

end Ncfcc.Library
