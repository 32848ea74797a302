import Ncfcc.Nfd.Table.EntryCounts
import Ncfcc.Nfd.Table.NextHops

/-! The timers of the measurements entries. The operations of the other tables leave them and
the nodes that carry the entries alone; the operations of the measurements change them in one
of four ways. -/
namespace Ncfcc.Nfd.Table.Tables
open Ncfcc.Library NameTree

@[ext] structure Timers where
  measurementsEntry : Nat → Option Nat
  expiry : Nat → Int
  cleanupEvent : Nat → Option Nat
  scheduler : Scheduler Nat

namespace Timers

def Present (timers : Timers) (number : Nat) : Prop := ∃ id, timers.measurementsEntry id = some number

def create (timers : Timers) (id number : Nat) : Timers where
  measurementsEntry := Function.update timers.measurementsEntry id (some number)
  expiry := Function.update timers.expiry number (timers.scheduler.now + initialLifetime)
  cleanupEvent := Function.update timers.cleanupEvent number (some timers.scheduler.nextId)
  scheduler := timers.scheduler.schedule initialLifetime number

def extend (timers : Timers) (number : Nat) (lifetime : Int) : Timers :=
  let cancelled := timers.scheduler.cancel (timers.cleanupEvent number)
  {timers with
    expiry := Function.update timers.expiry number (timers.scheduler.now + lifetime)
    cleanupEvent := Function.update timers.cleanupEvent number (some cancelled.nextId)
    scheduler := cancelled.schedule lifetime number}

def clean (timers : Timers) (event : Scheduled Nat) (id : Option Nat) : Timers :=
  {timers with
    measurementsEntry := id.elim timers.measurementsEntry fun id => Function.update timers.measurementsEntry id none
    scheduler := timers.scheduler.fire event}

/-- What an operation may do to the timers; new entries get this number. -/
inductive Changes (number : Nat) (timers : Timers) : Operation → Timers → Prop
  | kept (operation : Operation) (short : ∀ entry lifetime, operation = .extendLifetime entry lifetime →
      timers.Present entry → timers.scheduler.now + lifetime ≤ timers.expiry entry) :
      Changes number timers operation timers
  | created (operation : Operation) (id : Nat) (free : timers.measurementsEntry id = none)
      (other : ∀ entry lifetime, operation ≠ .extendLifetime entry lifetime) :
      Changes number timers operation (timers.create id number)
  | extended (entry : Nat) (lifetime : Int) (present : timers.Present entry)
      (longer : timers.expiry entry < timers.scheduler.now + lifetime) :
      Changes number timers (.extendLifetime entry lifetime) (timers.extend entry lifetime)
  | cleaned (event : Scheduled Nat) (id : Option Nat) (next : timers.scheduler.next = some event)
      (here : ∀ node, timers.measurementsEntry node = some event.callback ↔ id = some node) :
      Changes number timers .cleanup (timers.clean event id)
  | advanced (time : Int) :
      Changes number timers (.advance time) {timers with scheduler := timers.scheduler.advance time}

end Timers

def timers (tables : Tables) : Timers :=
  ⟨fun id => (tables.tree.carried id).measurementsEntry,tables.expiry,tables.cleanupEvent,tables.scheduler⟩

section
variable {hashComponent : Component → UInt64} {tables next : Tables}

private theorem timers_of_tree {tree : NameTree} (same : ∀ id, (tree.carried id).measurementsEntry =
      (tables.tree.carried id).measurementsEntry) : ({tables with tree} : Tables).timers = tables.timers :=
  Timers.ext (funext same) rfl rfl rfl

private theorem lookup_timers (hashComponent : Component → UInt64) (linked : tables.tree.Linked) (name : Name) :
    ({tables with tree := (tables.tree.lookup hashComponent name).1} : Tables).timers = tables.timers := by
  refine timers_of_tree fun id => ?_
  rw [(lookup_grows hashComponent linked name).1.carried]

private theorem alter_measurementsEntry (tree : NameTree) (id : Nat) {change : Attached → Attached}
    (kept : ∀ attached, (change attached).measurementsEntry = attached.measurementsEntry) (node : Nat) :
    ((tree.alter id change).carried node).measurementsEntry = (tree.carried node).measurementsEntry := by
  cases stored : tree.entries id with
  | none =>
    have absent : (tree.alter id change).entries = tree.entries := by
      funext other
      rw [alter_entries]
      split
      · rename_i same
        rw [same,stored]
        rfl
      · rfl
    rw [carried,carried,absent]
  | some entry =>
    rw [alter_carried stored]
    by_cases same : node = id
    · rw [same,Function.update_self]
      exact kept _
    · rw [Function.update_of_ne same]

/-- Attachments of the other kinds are none of the measurements. -/
theorem attach_measurementsEntry (tree : NameTree) (id number : Nat) {kind : Kind} (other : kind ≠ .measurements)
    (node : Nat) : ((tree.alter id (kind.attach number)).carried node).measurementsEntry =
      (tree.carried node).measurementsEntry := by
  refine alter_measurementsEntry tree id ?_ node
  intro attached
  cases kind with
  | measurements => exact absurd rfl other
  | _ => rfl

private theorem detach_measurementsEntry {tree : NameTree} (linked : tree.Linked) (id number : Nat) {kind : Kind}
    (other : kind ≠ .measurements) (node : Nat) :
    ((((tree.alter id (kind.detach number)).eraseEntryIfEmpty id).2).carried node).measurementsEntry =
      (tree.carried node).measurementsEntry := by
  rw [(eraseEntryIfEmpty_prunes (alter_linked linked id _) id).carried]
  refine alter_measurementsEntry tree id ?_ node
  intro attached
  cases kind with
  | measurements => exact absurd rfl other
  | _ => rfl

private theorem fibEraseNode_timers (linked : tables.tree.Linked) (id : Nat) : (tables.fibEraseNode id).timers = tables.timers :=
  have other : Kind.fib ≠ .measurements := nofun
  Timers.ext (funext (detach_measurementsEntry linked id 0 other)) rfl rfl rfl

private theorem fibInsert_timers (hashComponent : Component → UInt64) (linked : tables.tree.Linked) (name : Name) :
    (tables.fibInsert hashComponent name).timers = tables.timers := by
  have looked := lookup_timers hashComponent linked name
  unfold fibInsert
  dsimp only
  split
  · exact looked
  · split
    · exact looked
    · refine Eq.trans ?_ looked
      have other : Kind.fib ≠ .measurements := nofun
      exact Timers.ext (funext (attach_measurementsEntry _ _ tables.nextNumber other)) rfl rfl rfl

private theorem pitInsert_timers (hashComponent : Component → UInt64) (linked : tables.tree.Linked) (interest : Interest) :
    (tables.pitInsert hashComponent interest).timers = tables.timers := by
  have looked := lookup_timers hashComponent linked interest.name
  unfold pitInsert
  dsimp only
  split
  · exact looked
  · split
    · exact looked
    · refine Eq.trans ?_ looked
      have other : Kind.pit ≠ .measurements := nofun
      exact Timers.ext (funext (attach_measurementsEntry _ _ tables.nextNumber other)) rfl rfl rfl

private theorem pitErase_timers (linked : tables.tree.Linked) {pitEntry : Nat} (taken : tables.pitErase pitEntry = some next) :
    next.timers = tables.timers := by
  obtain ⟨id,-,rfl⟩ := Option.map_eq_some_iff.mp taken
  have other : Kind.pit ≠ .measurements := nofun
  exact Timers.ext (funext (detach_measurementsEntry linked id pitEntry other)) rfl rfl rfl

private theorem fibErase_timers (hashComponent : Component → UInt64) (linked : tables.tree.Linked) (name : Name) :
    (tables.fibErase hashComponent name).timers = tables.timers := by
  unfold fibErase
  split
  · rfl
  · exact fibEraseNode_timers linked _

private theorem fibEraseEntry_timers (linked : tables.tree.Linked) (fibEntry : Nat) :
    (tables.fibEraseEntry fibEntry).timers = tables.timers := by
  unfold fibEraseEntry
  split
  · rfl
  · exact fibEraseNode_timers linked _

private theorem changeStrategy_timers (hashComponent : Component → UInt64) (tables : Tables) (root : Nat) (name : Name) (old new : Strategy) :
    (tables.changeStrategy hashComponent root name old new).timers = tables.timers := by
  refine changeStrategy_kept timers ?_ hashComponent tables root name old new
  intro tables id
  unfold clearStrategyInfo
  split <;> rfl

private theorem removeNextHopFromAllEntries_timers (numbered : tables.view.Numbered) (face : Nat) :
    (tables.removeNextHopFromAllEntries face).timers = tables.timers := by
  have erasures : ∀ (entries : List Nat) (state : Tables), state.view.Numbered →
      (entries.foldl fibEraseEntry state).timers = state.timers := by
    intro entries
    induction entries with
    | nil => exact fun _ _ => rfl
    | cons fibEntry rest ih =>
      intro state numbered
      refine (ih _ (fibEraseEntry_numbered numbered fibEntry)).trans ?_
      exact fibEraseEntry_timers numbered.linked fibEntry
  have removed : (tables.withoutNextHop face).timers = tables.timers :=
    foldl_kept timers (fun tables fibEntry => tables.removeNextHop fibEntry face) (fun _ _ => rfl) _ tables
  rw [← removed]
  refine erasures _ _ ?_
  rw [← tables.withoutNextHop_view face] at numbered
  exact numbered

private theorem strategyChoiceInsert_timers {longestMatch : NameTree → Name → (NameTree.Entry → Bool) → Option Nat}
    (linked : tables.tree.Linked) {name strategyName : Name}
    (taken : tables.strategyChoiceInsert hashComponent longestMatch name strategyName = some next) :
    next.timers = tables.timers := by
  have looked := lookup_timers hashComponent linked name
  unfold strategyChoiceInsert at taken
  split at taken
  · cases taken
    rfl
  · dsimp only at taken
    split at taken
    · cases taken
      exact looked
    · split at taken
      · split at taken
        · cases taken
          exact looked
        · cases taken
          exact (changeStrategy_timers ..).trans looked
      · obtain ⟨old,-,rfl⟩ := Option.map_eq_some_iff.mp taken
        refine (changeStrategy_timers ..).trans (Eq.trans ?_ looked)
        have other : Kind.strategyChoice ≠ .measurements := nofun
        exact Timers.ext (funext (attach_measurementsEntry _ _ tables.nextNumber other)) rfl rfl rfl

private theorem strategyChoiceErase_timers {longestMatch : NameTree → Name → (NameTree.Entry → Bool) → Option Nat}
    (linked : tables.tree.Linked) {name : Name}
    (taken : tables.strategyChoiceErase hashComponent longestMatch name = some next) : next.timers = tables.timers := by
  unfold strategyChoiceErase at taken
  split at taken
  · cases taken
  · cases found : tables.tree.findExactMatch hashComponent name with
    | none =>
      rw [found] at taken
      cases taken
      rfl
    | some id =>
      rw [found] at taken
      dsimp only at taken
      cases held : (tables.tree.entries id).bind NameTree.Entry.strategyChoiceEntry with
      | none =>
        rw [held] at taken
        cases taken
        rfl
      | some choice =>
        rw [held] at taken
        obtain ⟨parent,-,rfl⟩ := Option.map_eq_some_iff.mp taken
        have view := changeStrategy_view hashComponent tables id name (tables.strategies choice) parent
        have same : (tables.changeStrategy hashComponent id name (tables.strategies choice) parent).view.tree.Linked := by
          rw [view]
          exact linked
        refine Eq.trans ?_ (changeStrategy_timers hashComponent tables id name (tables.strategies choice) parent)
        have other : Kind.strategyChoice ≠ .measurements := nofun
        exact Timers.ext (funext (detach_measurementsEntry same id choice other)) rfl rfl rfl

/-! The entry of a number. -/

def Present (tables : Tables) (measurementsEntry : Nat) : Prop := (tables.measurementsNode measurementsEntry).isSome

instance (tables : Tables) : DecidablePred tables.Present :=
  fun measurementsEntry => inferInstanceAs (Decidable ((tables.measurementsNode measurementsEntry).isSome = true))

private theorem measurementsNode_iff (numbered : tables.view.Numbered) (number id : Nat) :
    tables.measurementsNode number = some id ↔ tables.timers.measurementsEntry id = some number := by
  have held : number ∈ Kind.measurements.numbers (tables.tree.carried id) ↔
      tables.timers.measurementsEntry id = some number := Option.mem_toList
  rw [← held]
  constructor
  · intro found
    obtain ⟨entry,stored,holds⟩ := entry_of_holder found
    rw [carried_of_entry stored]
    exact Option.mem_toList.mpr (of_decide_eq_true holds)
  · refine holder_eq numbered fun entry => ?_
    exact decide_eq_true_iff.trans Option.mem_toList.symm

theorem present_iff (numbered : tables.view.Numbered) (number : Nat) :
    tables.Present number ↔ tables.timers.Present number := by
  unfold Present Timers.Present
  rw [Option.isSome_iff_exists]
  exact exists_congr (measurementsNode_iff numbered number)

/-- What the node has stays, or a new entry is made there. -/
theorem measurementsGetNode_timers (tables : Tables) {id : Nat} {entry : NameTree.Entry}
    (stored : tables.tree.entries id = some entry) :
    (tables.measurementsGetNode id).timers = tables.timers ∨ tables.timers.measurementsEntry id = none ∧
      (tables.measurementsGetNode id).timers = tables.timers.create id tables.nextNumber := by
  unfold measurementsGetNode
  rw [stored,Option.bind_some]
  cases held : entry.measurementsEntry with
  | some number => exact Or.inl rfl
  | none =>
    have free : tables.timers.measurementsEntry id = none := by
      change (tables.tree.carried id).measurementsEntry = none
      rw [carried_of_entry stored]
      exact held
    refine Or.inr ⟨free,Timers.ext ?_ rfl rfl rfl⟩
    funext node
    change ((tables.tree.alter id (Kind.measurements.attach tables.nextNumber)).carried node).measurementsEntry = _
    rw [alter_carried stored]
    change _ = Function.update tables.timers.measurementsEntry id (some tables.nextNumber) node
    by_cases same : node = id
    · rw [same,Function.update_self,Function.update_self]
      rfl
    · rw [Function.update_of_ne same,Function.update_of_ne same]
      rfl

private theorem cleanup_timers (numbered : tables.view.Numbered) (event : Scheduled Nat) :
    (({tables with scheduler := tables.scheduler.fire event} : Tables).cleanup event.callback).timers =
      tables.timers.clean event (tables.measurementsNode event.callback) := by
  have node : ({tables with scheduler := tables.scheduler.fire event} : Tables).measurementsNode event.callback =
      tables.measurementsNode event.callback := rfl
  unfold cleanup
  rw [node]
  cases found : tables.measurementsNode event.callback with
  | none => rfl
  | some id =>
    obtain ⟨entry,stored,-⟩ := entry_of_holder found
    have linked : (tables.tree.alter id (Kind.measurements.detach 0)).Linked := alter_linked numbered.linked id _
    refine Timers.ext ?_ rfl rfl rfl
    funext node
    change (((tables.tree.alter id (Kind.measurements.detach 0)).eraseEntryIfEmpty id).2.carried node).measurementsEntry = _
    rw [(eraseEntryIfEmpty_prunes linked id).carried,alter_carried stored]
    change _ = Function.update tables.timers.measurementsEntry id none node
    by_cases same : node = id
    · rw [same,Function.update_self,Function.update_self]
      rfl
    · rw [Function.update_of_ne same,Function.update_of_ne same]
      rfl

private theorem extendLifetime_changes (numbered : tables.view.Numbered) (entry : Nat) (lifetime : Int) :
    tables.timers.Changes tables.nextNumber (.extendLifetime entry lifetime) (tables.extendLifetime entry lifetime).timers := by
  have present := present_iff numbered entry
  unfold extendLifetime
  cases found : tables.measurementsNode entry with
  | none =>
    refine .kept _ ?_
    rintro _ _ ⟨rfl,rfl⟩ there
    have absent := present.mpr there
    rw [Present,found] at absent
    cases absent
  | some id =>
    have there : tables.timers.Present entry := present.mp (Option.isSome_of_eq_some found)
    dsimp only
    split
    · rename_i longer
      refine .kept _ ?_
      rintro _ _ ⟨rfl,rfl⟩ -
      exact longer
    · rename_i shorter
      exact .extended entry lifetime there (not_le.mp shorter)

/-- Every operation changes the timers in one of these ways. -/
theorem step_changes (longestMatch : NameTree → Name → (NameTree.Entry → Bool) → Option Nat) {operation : Operation}
    (numbered : tables.view.Numbered) (taken : tables.step hashComponent longestMatch operation = some next) :
    tables.timers.Changes tables.nextNumber operation next.timers := by
  have same : ∀ {operation : Operation} {after : Timers}, after = tables.timers →
      (∀ entry lifetime, operation ≠ .extendLifetime entry lifetime) →
      tables.timers.Changes tables.nextNumber operation after := by
    rintro operation _ rfl other
    exact .kept operation fun entry lifetime equal => absurd equal (other entry lifetime)
  have got : ∀ {operation : Operation} {id : Nat} {entry : NameTree.Entry}, tables.tree.entries id = some entry →
      (∀ entry lifetime, operation ≠ .extendLifetime entry lifetime) →
      tables.timers.Changes tables.nextNumber operation (tables.measurementsGetNode id).timers := by
    intro operation id entry stored other
    rcases measurementsGetNode_timers tables stored with kept | ⟨free,created⟩
    · exact same kept other
    · rw [created]
      exact .created operation id free other
  have linked : tables.tree.Linked := numbered.linked
  cases operation with
  | extendLifetime entry lifetime =>
    cases taken
    exact extendLifetime_changes numbered entry lifetime
  | cleanup =>
    unfold step at taken
    cases due : tables.scheduler.next with
    | none =>
      rw [due] at taken
      cases taken
      exact same rfl nofun
    | some event =>
      rw [due] at taken
      cases taken
      rw [cleanup_timers numbered]
      refine .cleaned event _ due fun node => ?_
      exact (measurementsNode_iff numbered event.callback node).symm
  | advance time =>
    cases taken
    exact .advanced time
  | measurementsGet name =>
    cases taken
    obtain ⟨grows,id,entry,node,stored,-⟩ := lookup_grows hashComponent linked name
    have looked := lookup_timers hashComponent linked name
    unfold measurementsGet
    dsimp only
    rw [node]
    rcases measurementsGetNode_timers {tables with tree := (tables.tree.lookup hashComponent name).1} stored with
      kept | ⟨free,created⟩
    · exact same (kept.trans looked) nofun
    · rw [looked] at free created
      dsimp only
      rw [created]
      exact .created _ id free nofun
  | measurementsGetOfFib fibEntry =>
    obtain ⟨id,found,rfl⟩ := Option.map_eq_some_iff.mp taken
    obtain ⟨entry,stored,-⟩ := entry_of_holder found
    exact got stored nofun
  | measurementsGetOfPit pitEntry =>
    obtain ⟨id,found,rfl⟩ := Option.map_eq_some_iff.mp taken
    obtain ⟨entry,stored,-⟩ := entry_of_holder found
    exact got stored nofun
  | measurementsGetParent child =>
    obtain ⟨id,-,made⟩ := Option.bind_eq_some_iff.mp taken
    obtain ⟨entry,stored,made⟩ := Option.bind_eq_some_iff.mp made
    split at made
    · cases made
      exact same rfl nofun
    · obtain ⟨parent,above,rfl⟩ := Option.map_eq_some_iff.mp made
      obtain ⟨upper,held,-⟩ := linked.parent id entry parent stored above
      exact got held nofun
  | fibInsert name =>
    cases taken
    exact same (fibInsert_timers hashComponent linked name) nofun
  | fibErase name =>
    cases taken
    exact same (fibErase_timers hashComponent linked name) nofun
  | fibEraseEntry fibEntry =>
    cases taken
    exact same (fibEraseEntry_timers linked fibEntry) nofun
  | removeNextHopFromAllEntries face =>
    cases taken
    exact same (removeNextHopFromAllEntries_timers numbered face) nofun
  | pitInsert interest =>
    cases taken
    exact same (pitInsert_timers hashComponent linked interest) nofun
  | pitErase pitEntry => exact same (pitErase_timers linked taken) nofun
  | strategyChoiceInsert name strategyName => exact same (strategyChoiceInsert_timers linked taken) nofun
  | strategyChoiceErase name => exact same (strategyChoiceErase_timers linked taken) nofun
  | find query =>
    refine same ?_ nofun
    by_cases exact : ∃ name, query = .measurementsExact name
    · obtain ⟨name,rfl⟩ := exact
      cases taken
      exact lookup_timers hashComponent linked name
    · rw [find_tables (not_exists.mp exact) taken]
  | install strategy =>
    cases taken
    refine same ?_ nofun
    unfold install
    split <;> rfl
  | addNextHop fibEntry face cost =>
    cases taken
    exact same rfl nofun
  | removeNextHop fibEntry face =>
    cases taken
    exact same rfl nofun
  | setPitInfo pitEntry info =>
    cases taken
    exact same rfl nofun
  | setMeasurementsInfo measurementsEntry info =>
    cases taken
    exact same rfl nofun

end

end Ncfcc.Nfd.Table.Tables
