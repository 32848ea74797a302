import Mathlib.Data.List.Infix

/-! Runs of deterministic transition systems over arbitrary state and event types.
A property of whole runs is stated over every state reached (`Along`) or over
every step taken (`Steps`), both read off the prefixes of the event list. -/
namespace Ncfcc.Library

section
variable {σ ε : Type*} (step : σ → ε → σ)

def run (initial : σ) (events : List ε) : σ := events.foldl step initial

/-- Every state reached by the run, the initial and the last one included. -/
def Along (P : σ → Prop) (initial : σ) (events : List ε) : Prop :=
  ∀ before, before <+: events → P (run step initial before)

/-- Every step taken by the run, seen from the state before it. -/
def Steps (Q : σ → ε → Prop) (initial : σ) (events : List ε) : Prop :=
  ∀ before event, before ++ [event] <+: events → Q (run step initial before) event

@[simp] theorem run_nil (initial : σ) : run step initial [] = initial := rfl

@[simp] theorem run_cons (initial : σ) (event : ε) (events : List ε) :
    run step initial (event :: events) = run step (step initial event) events := rfl

theorem run_append (initial : σ) (first second : List ε) :
    run step initial (first ++ second) = run step (run step initial first) second :=
  List.foldl_append

theorem run_concat (initial : σ) (events : List ε) (event : ε) :
    run step initial (events ++ [event]) = step (run step initial events) event := by
  simp [run_append]

variable {step}

private theorem along_nil {P : σ → Prop} {initial : σ} : Along step P initial [] ↔ P initial := by
  constructor
  · intro all
    exact all [] List.prefix_rfl
  · intro holds before inside
    rw [List.prefix_nil.mp inside]
    exact holds

private theorem along_cons {P : σ → Prop} {initial : σ} {event : ε} {events : List ε} :
    Along step P initial (event :: events) ↔
      P initial ∧ Along step P (step initial event) events := by
  constructor
  · intro all
    refine ⟨all [] (List.nil_prefix),?_⟩
    intro before inside
    exact all (event :: before) (List.cons_prefix_cons.mpr ⟨rfl,inside⟩)
  · rintro ⟨first,rest⟩ before inside
    cases before with
    | nil => exact first
    | cons head tail =>
      obtain ⟨rfl,below⟩ := List.cons_prefix_cons.mp inside
      exact rest tail below

theorem steps_nil {Q : σ → ε → Prop} {initial : σ} : Steps step Q initial [] := by
  intro before event inside
  have empty := List.prefix_nil.mp inside
  simp at empty

theorem steps_cons {Q : σ → ε → Prop} {initial : σ} {event : ε} {events : List ε} :
    Steps step Q initial (event :: events) ↔
      Q initial event ∧ Steps step Q (step initial event) events := by
  constructor
  · intro all
    refine ⟨all [] event (by simp),?_⟩
    intro before next inside
    exact all (event :: before) next (List.cons_prefix_cons.mpr ⟨rfl,inside⟩)
  · rintro ⟨first,rest⟩ before next inside
    cases before with
    | nil =>
      obtain ⟨rfl,-⟩ := List.cons_prefix_cons.mp inside
      exact first
    | cons head tail =>
      obtain ⟨rfl,below⟩ := List.cons_prefix_cons.mp inside
      exact rest tail next below

instance decidableSteps {Q : σ → ε → Prop} [∀ state event, Decidable (Q state event)] (initial : σ) :
    (events : List ε) → Decidable (Steps step Q initial events)
  | [] => isTrue steps_nil
  | event :: events =>
    have := decidableSteps (Q := Q) (step initial event) events
    decidable_of_iff _ steps_cons.symm

/-- Invariant rule: what every admitted step preserves holds in every state reached. -/
theorem along_of_steps {P : σ → Prop} {Q : σ → ε → Prop}
    (kept : ∀ state event, P state → Q state event → P (step state event))
    {initial : σ} {events : List ε} (start : P initial) (admitted : Steps step Q initial events) :
    Along step P initial events := by
  induction events generalizing initial with
  | nil => exact along_nil.mpr start
  | cons event events ih =>
    obtain ⟨first,rest⟩ := steps_cons.mp admitted
    exact along_cons.mpr ⟨start,ih (kept _ _ start first) rest⟩

/-- A step property that the invariant alone guarantees holds of every step. -/
theorem steps_of_along {P : σ → Prop} {Q : σ → ε → Prop} (given : ∀ state event, P state → Q state event)
    {initial : σ} {events : List ε} (always : Along step P initial events) :
    Steps step Q initial events := by
  intro before event inside
  exact given _ _ (always before ((List.prefix_append _ _).trans inside))

/-- Exactness rule: when each possible step from a good state keeps it good exactly
under `Q`, the good runs are exactly those all of whose steps meet `Q`. -/
theorem along_iff_steps {P : σ → Prop} {Q possible : σ → ε → Prop}
    (exact : ∀ state event, P state → possible state event → (P (step state event) ↔ Q state event))
    {initial : σ} {events : List ε} (start : P initial) (legal : Steps step possible initial events) :
    Along step P initial events ↔ Steps step Q initial events := by
  induction events generalizing initial with
  | nil => exact ⟨fun _ => steps_nil,fun _ => along_nil.mpr start⟩
  | cons event events ih =>
    obtain ⟨first,later⟩ := steps_cons.mp legal
    have kept := exact _ _ start first
    rw [along_cons,steps_cons]
    constructor
    · rintro ⟨-,rest⟩
      have next : P (step initial event) := rest [] List.nil_prefix
      exact ⟨kept.mp next,(ih next later).mp rest⟩
    · rintro ⟨admitted,rest⟩
      have next := kept.mpr admitted
      exact ⟨start,(ih next later).mpr rest⟩

theorem steps_and {Q R : σ → ε → Prop} {initial : σ} {events : List ε} :
    Steps step (fun state event => Q state event ∧ R state event) initial events ↔
      Steps step Q initial events ∧ Steps step R initial events := by
  constructor
  · intro both
    exact ⟨fun before event inside => (both before event inside).1,fun before event inside => (both before event inside).2⟩
  · rintro ⟨left,right⟩ before event inside
    exact ⟨left before event inside,right before event inside⟩

/-- Under an invariant that the admitted steps keep, equivalent step properties may be exchanged. -/
theorem steps_congr {P : σ → Prop} {Q R : σ → ε → Prop}
    (kept : ∀ state event, P state → Q state event → P (step state event))
    (same : ∀ state event, P state → (Q state event ↔ R state event))
    {initial : σ} {events : List ε} (start : P initial) :
    Steps step Q initial events ↔ Steps step R initial events := by
  induction events generalizing initial with
  | nil => exact ⟨fun _ => steps_nil,fun _ => steps_nil⟩
  | cons event events ih =>
    rw [steps_cons,steps_cons,← same _ _ start]
    constructor
    · rintro ⟨first,rest⟩
      exact ⟨first,(ih (kept _ _ start first)).mp rest⟩
    · rintro ⟨first,rest⟩
      exact ⟨first,(ih (kept _ _ start first)).mpr rest⟩

/-- An observation follows a reference machine through the whole run exactly when
every step, from the state it is taken in, is observed as the reference step. -/
theorem agrees_iff_steps {τ : Type*} {observe : σ → τ} {reference : τ → ε → τ}
    {initial : σ} {events : List ε} :
    (∀ before, before <+: events →
        observe (run step initial before) = run reference (observe initial) before) ↔
      Steps step (fun state event => observe (step state event) = reference (observe state) event)
        initial events := by
  induction events generalizing initial with
  | nil =>
    refine ⟨fun _ => steps_nil,?_⟩
    intro _ before inside
    rw [List.prefix_nil.mp inside]
    rfl
  | cons event events ih =>
    rw [steps_cons,← ih]
    constructor
    · intro all
      have first : observe (step initial event) = reference (observe initial) event :=
        all [event] (List.cons_prefix_cons.mpr ⟨rfl,List.nil_prefix⟩)
      refine ⟨first,?_⟩
      intro before inside
      rw [first]
      exact all (event :: before) (List.cons_prefix_cons.mpr ⟨rfl,inside⟩)
    · rintro ⟨first,rest⟩ before inside
      cases before with
      | nil => rfl
      | cons head tail =>
        obtain ⟨rfl,below⟩ := List.cons_prefix_cons.mp inside
        rw [run_cons,run_cons,← first]
        exact rest tail below

end

/-! Partial steps: a run has no state any more once a step was undefined. -/

section
variable {σ ε : Type*} (step : σ → ε → Option σ)

def attempt (state : Option σ) (event : ε) : Option σ := state.bind fun current => step current event

theorem run_attempt_none (events : List ε) : run (attempt step) none events = none := by
  induction events with
  | nil => rfl
  | cons event events ih => exact ih

variable {step}

/-- Invariant rule: what every defined step preserves holds in every state reached. -/
theorem attempt_invariant {P : σ → Prop} (kept : ∀ state event after, P state → step state event = some after → P after)
    {initial final : σ} {events : List ε} (start : P initial)
    (reached : run (attempt step) (some initial) events = some final) : P final := by
  induction events generalizing initial with
  | nil =>
    rw [← Option.some.inj reached]
    exact start
  | cons event events ih =>
    rw [run_cons] at reached
    cases next : attempt step (some initial) event with
    | none =>
      rw [next,run_attempt_none] at reached
      cases reached
    | some after =>
      rw [next] at reached
      exact ih (kept initial event after start next) reached

/-- Invariant rule for what a state has to do with the events that led to it. -/
theorem attempt_history {P : σ → List ε → Prop}
    (kept : ∀ state before event after, P state before → step state event = some after → P after (before ++ [event]))
    {initial final : σ} {events : List ε} (start : P initial [])
    (reached : run (attempt step) (some initial) events = some final) : P final events := by
  have all : ∀ before later state, P state before → run (attempt step) (some state) later = some final →
      P final (before ++ later) := by
    intro before later
    induction later generalizing before with
    | nil =>
      intro state holds same
      rw [← Option.some.inj same,List.append_nil]
      exact holds
    | cons event later ih =>
      intro state holds rest
      rw [run_cons] at rest
      cases next : attempt step (some state) event with
      | none =>
        rw [next,run_attempt_none] at rest
        cases rest
      | some after =>
        rw [next] at rest
        have whole := ih (before ++ [event]) after (kept state before event after holds next) rest
        rwa [List.append_assoc,List.singleton_append] at whole
  exact all [] events initial start reached

theorem attempt_reaches {initial final : σ} {events before : List ε}
    (reached : run (attempt step) (some initial) events = some final) (inside : before <+: events) :
    ∃ current, run (attempt step) (some initial) before = some current := by
  obtain ⟨rest,rfl⟩ := inside
  rw [run_append] at reached
  cases next : run (attempt step) (some initial) before with
  | none =>
    rw [next,run_attempt_none] at reached
    cases reached
  | some current => exact ⟨current,rfl⟩

/-- A run that reaches a state took defined steps only. -/
theorem attempt_defined {initial final : σ} {events : List ε}
    (reached : run (attempt step) (some initial) events = some final) :
    Steps (attempt step) (fun state event => (attempt step state event).isSome) (some initial) events := by
  intro before event inside
  obtain ⟨after,here⟩ := attempt_reaches reached inside
  rw [run_concat] at here
  exact Option.isSome_of_eq_some here

/-- A run has no state any more exactly when one of its steps is undefined. -/
theorem attempt_none_iff {initial : σ} {events : List ε} : run (attempt step) (some initial) events = none ↔
    ∃ before event current, before ++ [event] <+: events ∧ run (attempt step) (some initial) before = some current ∧
      step current event = none := by
  constructor
  · intro failed
    by_contra free
    have all : ∀ taken, taken <+: events → ∃ current, run (attempt step) (some initial) taken = some current := by
      intro taken
      induction taken using List.reverseRecOn with
      | nil => exact fun _ => ⟨initial,rfl⟩
      | append_singleton front event ih =>
        intro inside
        obtain ⟨current,here⟩ := ih ((List.prefix_append _ _).trans inside)
        rw [run_concat,here]
        exact Option.ne_none_iff_exists'.mp fun none => free ⟨front,event,current,inside,here,none⟩
    obtain ⟨current,here⟩ := all events List.prefix_rfl
    rw [here] at failed
    cases failed
  · rintro ⟨before,event,current,⟨later,rfl⟩,here,none⟩
    rw [run_append,run_concat,here]
    change run _ (step current event) later = _
    rw [none,run_attempt_none]

/-- Exactness rule: under an invariant of all possible steps, when each defined step from
a good state keeps it good exactly under `Q`, and undefined ones meet `Q`, the good
runs are exactly those all of whose steps meet `Q`. -/
theorem attempt_along_iff_steps {I P : σ → Prop} {Q possible : σ → ε → Prop}
    (kept : ∀ state event after, I state → possible state event → step state event = some after →
      I after ∧ (P state → (P after ↔ Q state event)))
    (undefined : ∀ state event, step state event = none → Q state event)
    {initial : σ} {events : List ε} (start : I initial) (good : P initial)
    (legal : Steps (attempt step) (fun state event => ∀ current, state = some current → possible current event)
      (some initial) events) :
    Along (attempt step) (fun state => ∀ current, state = some current → P current) (some initial) events ↔
      Steps (attempt step) (fun state event => ∀ current, state = some current → Q current event)
        (some initial) events := by
  have always : Along (attempt step) (fun state => ∀ current, state = some current → I current)
      (some initial) events := by
    refine along_of_steps ?_ ?_ legal
    · intro state event holds admitted after reached
      obtain ⟨current,here,stepped⟩ := Option.bind_eq_some_iff.mp reached
      exact (kept current event after (holds current here) (admitted current here) stepped).1
    · intro current here
      cases here
      exact start
  have both : Along (attempt step) (fun state => ∀ current, state = some current → I current ∧ P current)
      (some initial) events ↔ Steps (attempt step) (fun state event => ∀ current, state = some current →
        Q current event) (some initial) events := by
    refine along_iff_steps ?_ ?_ legal
    · intro state event holds admitted
      cases state with
      | none => exact iff_of_true (fun current here => by cases here) (fun current here => by cases here)
      | some current =>
        obtain ⟨invariant,before⟩ := holds current rfl
        cases stepped : step current event with
        | none =>
          refine iff_of_true ?_ ?_
          · intro after reached
            change step current event = some after at reached
            rw [stepped] at reached
            cases reached
          · intro same here
            cases here
            exact undefined current event stepped
        | some after =>
          obtain ⟨next,exact⟩ := kept current event after invariant (admitted current rfl) stepped
          constructor
          · intro holdsAfter same here
            cases here
            exact (exact before).mp (holdsAfter after stepped).2
          · intro meets last reached
            change step current event = some last at reached
            rw [stepped] at reached
            cases reached
            exact ⟨next,(exact before).mpr (meets current rfl)⟩
    · intro current here
      cases here
      exact ⟨start,good⟩
  rw [← both]
  constructor
  · intro all before inside current here
    exact ⟨always before inside current here,all before inside current here⟩
  · intro all before inside current here
    exact (all before inside current here).2

end

end Ncfcc.Library
