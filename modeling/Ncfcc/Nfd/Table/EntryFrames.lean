import Ncfcc.Nfd.Table.NextHops

/-! What operations leave alone: the entries of the kinds they do not count, and the information
that strategies keep on measurements entries. -/
namespace Ncfcc.Nfd.Table
open Ncfcc.Library NameTree

theorem Tables.decrement_ne (count : Nat) : Tables.decrement count ≠ count := by
  unfold Tables.decrement
  split <;> omega

/-- A kind whose count stays has its entries where they were. -/
theorem View.Numbered.entryAt_shifts {view next : View} (numbered : view.Numbered) (shift : Shifts view next) {kind : Kind}
    (count : next.nItems kind = view.nItems kind) (name : Name) (number : Nat) :
    next.EntryAt kind name number ↔ view.EntryAt kind name number := by
  cases shift with
  | grown tree grows => exact View.entryAt_grown numbered.linked grows kind name number
  | attached tree other id interest entry grows stored takes =>
    have different : kind ≠ other := by
      rintro rfl
      change Function.update view.nItems kind (view.nItems kind + 1) kind = _ at count
      rw [Function.update_self] at count
      omega
    rw [numbered.entryAt_attach grows stored takes]
    simp [different]
  | detached other item id held below =>
    have different : kind ≠ other := by
      rintro rfl
      change Function.update view.nItems kind (Tables.decrement (view.nItems kind)) kind = _ at count
      rw [Function.update_self] at count
      exact Tables.decrement_ne _ count
    rw [numbered.entryAt_detach held below]
    simp [different]

namespace Tables

section
variable {hashComponent : Component → UInt64}
  (longestMatch : NameTree → Name → (NameTree.Entry → Bool) → Option Nat) {tables next : Tables} {operation : Operation}

theorem step_entryAt (numbered : tables.view.Numbered) (single : ∀ face, operation ≠ .removeNextHopFromAllEntries face)
    (taken : tables.step hashComponent longestMatch operation = some next) {kind : Kind}
    (count : next.view.nItems kind = tables.view.nItems kind) (name : Name) (number : Nat) :
    next.view.EntryAt kind name number ↔ tables.view.EntryAt kind name number := by
  by_cases lost : ∃ id, tables.Loses hashComponent operation id
  · obtain ⟨id,loses⟩ := lost
    have view := step_loses longestMatch loses taken
    obtain ⟨name,-,-,free⟩ := loses
    rw [view]
    exact View.entryAt_prunes (View.lost_prunes numbered.linked free) kind _ number
  · have path := step_move longestMatch numbered.linked (fun _ _ _ _ => trivial) (not_exists.mp lost) single
      (tables.allows_true hashComponent operation) taken
    generalize next.view = after at path count ⊢
    cases path with
    | refl => exact Iff.rfl
    | single move => exact numbered.entryAt_shifts (move.shifts numbered.linked) count name number

theorem removeNextHopFromAllEntries_entryAt (numbered : tables.view.Numbered) (face : Nat) {kind : Kind}
    (other : kind ≠ .fib) (name : Name) (number : Nat) :
    (tables.removeNextHopFromAllEntries face).view.EntryAt kind name number ↔ tables.view.EntryAt kind name number := by
  have erasures : ∀ (entries : List Nat) (state : Tables), state.view.Numbered →
      ((entries.foldl fibEraseEntry state).view.EntryAt kind name number ↔ state.view.EntryAt kind name number) := by
    intro entries
    induction entries with
    | nil => exact fun _ _ => Iff.rfl
    | cons fibEntry rest ih =>
      intro state numbered
      refine (ih _ (fibEraseEntry_numbered numbered fibEntry)).trans ?_
      have taken : state.step (fun _ => 0) (fun _ _ _ => none) (.fibEraseEntry fibEntry) = some (state.fibEraseEntry fibEntry) :=
        rfl
      have single : ∀ face, Operation.fibEraseEntry fibEntry ≠ .removeNextHopFromAllEntries face := nofun
      refine step_entryAt _ numbered single taken ?_ name number
      unfold fibEraseEntry
      split
      · rfl
      · cases kind with
        | fib => exact absurd rfl other
        | _ => rfl
  have view := tables.withoutNextHop_view face
  rw [← view] at numbered ⊢
  exact erasures _ _ numbered

structure Infos where
  measurementsNItems : Nat
  strategyChoiceNItems : Nat
  strategies : Nat → Strategy
  measurementsInfo : Nat → StrategyInfo

def infos (tables : Tables) : Infos :=
  ⟨tables.measurementsNItems,tables.strategyChoiceNItems,tables.strategies,tables.measurementsInfo⟩

inductive SetsInfos : Operation → Prop
  | measurementsGet (name : Name) : SetsInfos (.measurementsGet name)
  | measurementsGetOfFib (fibEntry : Nat) : SetsInfos (.measurementsGetOfFib fibEntry)
  | measurementsGetOfPit (pitEntry : Nat) : SetsInfos (.measurementsGetOfPit pitEntry)
  | measurementsGetParent (child : Nat) : SetsInfos (.measurementsGetParent child)
  | setMeasurementsInfo (measurementsEntry : Nat) (info : StrategyInfo) :
      SetsInfos (.setMeasurementsInfo measurementsEntry info)
  | cleanup : SetsInfos .cleanup
  | strategyChoiceInsert (name strategyName : Name) : SetsInfos (.strategyChoiceInsert name strategyName)
  | strategyChoiceErase (name : Name) : SetsInfos (.strategyChoiceErase name)

private theorem fibEraseEntry_infos (tables : Tables) (fibEntry : Nat) : (tables.fibEraseEntry fibEntry).infos = tables.infos := by
  unfold fibEraseEntry
  split <;> rfl

theorem step_infos (other : ¬ SetsInfos operation)
    (taken : tables.step hashComponent longestMatch operation = some next) : next.infos = tables.infos := by
  cases operation with
  | measurementsGet name => exact absurd (.measurementsGet name) other
  | measurementsGetOfFib fibEntry => exact absurd (.measurementsGetOfFib fibEntry) other
  | measurementsGetOfPit pitEntry => exact absurd (.measurementsGetOfPit pitEntry) other
  | measurementsGetParent child => exact absurd (.measurementsGetParent child) other
  | setMeasurementsInfo measurementsEntry info => exact absurd (.setMeasurementsInfo measurementsEntry info) other
  | cleanup => exact absurd .cleanup other
  | strategyChoiceInsert name strategyName => exact absurd (.strategyChoiceInsert name strategyName) other
  | strategyChoiceErase name => exact absurd (.strategyChoiceErase name) other
  | fibInsert name =>
    cases taken
    unfold fibInsert
    dsimp only
    split
    · rfl
    · split <;> rfl
  | fibErase name =>
    cases taken
    unfold fibErase
    split <;> rfl
  | fibEraseEntry fibEntry =>
    cases taken
    exact fibEraseEntry_infos tables fibEntry
  | removeNextHopFromAllEntries face =>
    cases taken
    have removed : (tables.withoutNextHop face).infos = tables.infos :=
      foldl_kept infos (fun tables fibEntry => tables.removeNextHop fibEntry face) (fun _ _ => rfl) _ tables
    rw [← removed]
    exact foldl_kept infos fibEraseEntry fibEraseEntry_infos _ _
  | pitInsert interest =>
    cases taken
    unfold pitInsert
    dsimp only
    split
    · rfl
    · split <;> rfl
  | pitErase pitEntry =>
    obtain ⟨id,-,rfl⟩ := Option.map_eq_some_iff.mp taken
    rfl
  | extendLifetime measurementsEntry lifetime =>
    cases taken
    unfold extendLifetime
    split
    · rfl
    · dsimp only
      split <;> rfl
  | install strategy =>
    cases taken
    unfold install
    split <;> rfl
  | find query =>
    by_cases exact : ∃ name, query = .measurementsExact name
    · obtain ⟨name,rfl⟩ := exact
      cases taken
      rfl
    · rw [find_tables (not_exists.mp exact) taken]
  | addNextHop fibEntry face cost =>
    cases taken
    rfl
  | removeNextHop fibEntry face =>
    cases taken
    rfl
  | setPitInfo pitEntry info =>
    cases taken
    rfl
  | advance time =>
    cases taken
    rfl

end

end Tables

end Ncfcc.Nfd.Table
