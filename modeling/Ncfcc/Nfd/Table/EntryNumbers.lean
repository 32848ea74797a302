import Ncfcc.Nfd.Table.TableMoves

/-! The numbers of attached entries: every one was given out and is attached once, at a node
that keeps its name. This holds whatever the resizes do to the chains of the name tree. -/
namespace Ncfcc.Nfd.Table
open Ncfcc.Library NameTree

/-- What a move does, without the calls of the name tree it is made of. -/
inductive Shifts : View → View → Prop
  | grown (view : View) (tree : NameTree) (grows : Grows view.tree tree) : Shifts view {view with tree}
  | attached (view : View) (tree : NameTree) (kind : Kind) (id : Nat) (interest : Interest) (entry : NameTree.Entry)
      (grows : Grows view.tree tree) (stored : tree.entries id = some entry) (takes : view.Takes tree kind id interest) :
      Shifts view (view.attach tree kind id interest)
  | detached (view : View) (kind : Kind) (number id : Nat) (held : number ∈ kind.numbers (view.tree.carried id))
      (below : kind = .strategyChoice → ∀ entry, view.tree.entries id = some entry → entry.name ≠ []) :
      Shifts view (view.detach kind number id)

section
variable {hashComponent : Component → UInt64} {allowed : NameTree → NameTree.Call → Prop}
  {peeks : NameTree → Name → Prop} {view next : View}

theorem Moves.shifts (linked : view.tree.Linked) (move : Moves hashComponent allowed peeks view next) :
    Shifts view next := by
  cases move with
  | looked name safe peek => exact .grown view _ (lookup_grows hashComponent linked name).1
  | entered kind name id interest safe node takes =>
    obtain ⟨grows,other,entry,same,stored,-⟩ := lookup_grows hashComponent linked name
    rw [node] at same
    cases same
    exact .attached view _ kind id interest entry grows stored takes
  | attached kind id interest present takes =>
    obtain ⟨entry,stored⟩ := Option.isSome_iff_exists.mp present
    exact .attached view view.tree kind id interest entry (Grows.refl linked) stored takes
  | detached kind number id held below safe => exact .detached view kind number id held below

end

namespace Kind

private theorem numbers_attach {kind : Kind} {attached : Attached} (number : Nat) (other : Kind)
    (free : kind = .pit ∨ kind.numbers attached = []) :
    other.numbers (kind.attach number attached) =
      if other = kind then kind.numbers attached ++ [number] else other.numbers attached := by
  rcases free with rfl | free
  · cases other <;> rfl
  · split
    · rename_i same
      rw [same]
      cases kind with
      | pit => rfl
      | fib =>
        rw [free]
        rfl
      | measurements =>
        rw [free]
        rfl
      | strategyChoice =>
        rw [free]
        rfl
    · cases kind <;> cases other <;> first | rfl | contradiction

private theorem numbers_detach {kind : Kind} {attached : Attached} {number : Nat} (held : number ∈ kind.numbers attached)
    (other : Kind) : (other.numbers (kind.detach number attached)).Perm
      (if other = kind then (kind.numbers attached).erase number else other.numbers attached) := by
  split
  · rename_i same
    rw [same]
    cases kind with
    | pit => exact swapRemove_perm _ _
    | fib => simp_all [numbers,detach]
    | measurements => simp_all [numbers,detach]
    | strategyChoice => simp_all [numbers,detach]
  · cases kind <;> cases other <;> first | rfl | contradiction

end Kind

namespace View

theorem Takes.free {view : View} {tree : NameTree} {kind : Kind} {id : Nat} {interest : Interest}
    (takes : view.Takes tree kind id interest) : kind = .pit ∨ kind.numbers (tree.carried id) = [] := by
  unfold Takes at takes
  split at takes
  · exact Or.inl ‹_›
  · exact Or.inr takes

private theorem attach_carried {view : View} {tree : NameTree} {id : Nat} {entry : NameTree.Entry} (grows : Grows view.tree tree)
    (stored : tree.entries id = some entry) (kind : Kind) (interest : Interest) :
    (view.attach tree kind id interest).tree.carried =
      Function.update view.tree.carried id (kind.attach view.nextNumber (view.tree.carried id)) := by
  rw [← grows.carried]
  exact alter_carried stored _

private theorem detach_carried {view : View} {id : Nat} {entry : NameTree.Entry} (linked : view.tree.Linked)
    (stored : view.tree.entries id = some entry) (kind : Kind) (number : Nat) :
    (view.detach kind number id).tree.carried =
      Function.update view.tree.carried id (kind.detach number (view.tree.carried id)) :=
  (eraseEntryIfEmpty_prunes (alter_linked linked id _) id).carried.trans (alter_carried stored _)

/-- Every number is given out and attached once. -/
structure Numbered (view : View) : Prop where
  linked : view.tree.Linked
  given : ∀ kind id number, number ∈ Kind.numbers kind (view.tree.carried id) → number < view.nextNumber
  nodup : ∀ kind id, (Kind.numbers kind (view.tree.carried id)).Nodup
  once : ∀ kind id other number, number ∈ Kind.numbers kind (view.tree.carried id) →
    number ∈ Kind.numbers kind (view.tree.carried other) → id = other

section
variable {view : View}

/-- What is attached after an entry was. -/
theorem mem_attach {tree : NameTree} {id : Nat} {entry : NameTree.Entry} {kind : Kind} {interest : Interest}
    (grows : Grows view.tree tree) (stored : tree.entries id = some entry) (takes : view.Takes tree kind id interest)
    (other : Kind) (node number : Nat) :
    number ∈ other.numbers ((view.attach tree kind id interest).tree.carried node) ↔
      number ∈ other.numbers (view.tree.carried node) ∨ other = kind ∧ node = id ∧ number = view.nextNumber := by
  have free := takes.free
  rw [grows.carried] at free
  rw [attach_carried grows stored]
  by_cases here : node = id
  · rw [here,Function.update_self,Kind.numbers_attach view.nextNumber other free]
    split
    · rename_i same
      simp [same]
    · rename_i different
      simp [different]
  · rw [Function.update_of_ne here]
    simp [here]

/-- What is attached after an entry was detached. -/
theorem Numbered.mem_detach (numbered : view.Numbered) {kind : Kind} {number id : Nat}
    (held : number ∈ kind.numbers (view.tree.carried id)) (other : Kind) (node item : Nat) :
    item ∈ other.numbers ((view.detach kind number id).tree.carried node) ↔
      item ∈ other.numbers (view.tree.carried node) ∧ ¬ (other = kind ∧ node = id ∧ item = number) := by
  obtain ⟨entry,stored⟩ := Tables.entry_of_numbers held
  rw [detach_carried numbered.linked stored]
  by_cases here : node = id
  · rw [here,Function.update_self,(Kind.numbers_detach held other).mem_iff]
    split
    · rename_i same
      rw [same,(numbered.nodup kind id).mem_erase_iff]
      simp [and_comm]
    · rename_i different
      simp [different]
  · rw [Function.update_of_ne here]
    simp [here]

theorem Numbered.shifts {next : View} (numbered : view.Numbered) (shift : Shifts view next) : next.Numbered := by
  cases shift with
  | grown tree grows =>
    refine ⟨grows.linked,?_,?_,?_⟩
    · rw [grows.carried]
      exact numbered.given
    · rw [grows.carried]
      exact numbered.nodup
    · rw [grows.carried]
      exact numbered.once
  | attached tree kind id interest entry grows stored takes =>
    have members := mem_attach grows stored takes
    refine ⟨alter_linked grows.linked id _,?_,?_,?_⟩
    · intro other node number inside
      rcases (members other node number).mp inside with before | ⟨-,-,rfl⟩
      · exact Nat.lt_succ_of_lt (numbered.given other node number before)
      · exact Nat.lt_succ_self _
    · intro other node
      have free := takes.free
      rw [grows.carried] at free
      rw [attach_carried grows stored]
      by_cases here : node = id
      · rw [here,Function.update_self,Kind.numbers_attach view.nextNumber other free]
        split
        · refine List.nodup_append.mpr ⟨numbered.nodup kind id,List.nodup_singleton _,?_⟩
          rintro number inside _ last rfl
          exact absurd (List.mem_singleton.mp last) (Nat.ne_of_lt (numbered.given kind id number inside))
        · exact numbered.nodup other id
      · rw [Function.update_of_ne here]
        exact numbered.nodup other node
    · intro other node node' number first second
      rcases (members other node number).mp first with before | ⟨rfl,rfl,rfl⟩
      · rcases (members other node' number).mp second with again | ⟨rfl,rfl,rfl⟩
        · exact numbered.once other node node' number before again
        · exact absurd (numbered.given _ _ _ before) (Nat.lt_irrefl _)
      · rcases (members other node' view.nextNumber).mp second with again | ⟨-,rfl,-⟩
        · exact absurd (numbered.given _ _ _ again) (Nat.lt_irrefl _)
        · rfl
  | detached kind number id held below =>
    have members := numbered.mem_detach held
    refine ⟨(eraseEntryIfEmpty_prunes (alter_linked numbered.linked id _) id).linked,?_,?_,?_⟩
    · intro other node item inside
      exact numbered.given other node item ((members other node item).mp inside).1
    · intro other node
      obtain ⟨entry,stored⟩ := Tables.entry_of_numbers held
      rw [detach_carried numbered.linked stored]
      by_cases here : node = id
      · rw [here,Function.update_self,(Kind.numbers_detach held other).nodup_iff]
        split
        · exact (numbered.nodup kind id).erase number
        · exact numbered.nodup other id
      · rw [Function.update_of_ne here]
        exact numbered.nodup other node
    · intro other node node' item first second
      exact numbered.once other node node' item ((members other node item).mp first).1
        ((members other node' item).mp second).1

theorem shifts_names {next : View} (linked : view.tree.Linked) (shift : Shifts view next) {id : Nat}
    {before after : NameTree.Entry} (stored : view.tree.entries id = some before)
    (kept : next.tree.entries id = some after) : after.name = before.name := by
  have altered : ∀ (tree : NameTree) (node : Nat) (change : Attached → Attached) (later : NameTree.Entry),
      (tree.alter node change).entries id = some later → ∃ found, tree.entries id = some found ∧ later.name = found.name := by
    intro tree node change later here
    rw [alter_entries] at here
    split at here
    · rename_i same
      obtain ⟨found,was,rfl⟩ := Option.map_eq_some_iff.mp here
      exact ⟨found,same ▸ was,rfl⟩
    · exact ⟨later,here,rfl⟩
  cases shift with
  | grown tree grows =>
    obtain ⟨later,here,named⟩ := grows.stays id before stored
    cases here.symm.trans kept
    exact named
  | attached tree kind node interest entry grows there takes =>
    obtain ⟨found,was,same⟩ := altered _ _ _ after kept
    obtain ⟨later,here,named⟩ := grows.stays id before stored
    cases here.symm.trans was
    exact same.trans named
  | detached kind number node held below =>
    have prunes := eraseEntryIfEmpty_prunes (alter_linked linked node (kind.detach number)) node
    obtain ⟨later,here,named⟩ := prunes.stays id after kept
    obtain ⟨found,was,same⟩ := altered _ _ _ later here
    cases was.symm.trans stored
    exact named.trans same

def EntryAt (view : View) (kind : Kind) (name : Name) (number : Nat) : Prop :=
  ∃ id entry, view.tree.entries id = some entry ∧ entry.name = name ∧ number ∈ kind.numbers (view.tree.carried id)

/-- What stays attached stays at its name. -/
theorem entryAt_iff {next : View} {kind : Kind} {number : Nat} {P : Prop}
    (names : ∀ id before after, view.tree.entries id = some before → next.tree.entries id = some after →
      after.name = before.name)
    (members : ∀ id, number ∈ kind.numbers (next.tree.carried id) ↔ number ∈ kind.numbers (view.tree.carried id) ∧ P)
    (name : Name) : next.EntryAt kind name number ↔ view.EntryAt kind name number ∧ P := by
  constructor
  · rintro ⟨id,after,stored,named,held⟩
    obtain ⟨earlier,holds⟩ := (members id).mp held
    obtain ⟨before,was⟩ := Tables.entry_of_numbers earlier
    exact ⟨⟨id,before,was,(names id before after was stored).symm.trans named,earlier⟩,holds⟩
  · rintro ⟨⟨id,before,stored,named,held⟩,holds⟩
    have later := (members id).mpr ⟨held,holds⟩
    obtain ⟨after,here⟩ := Tables.entry_of_numbers later
    exact ⟨id,after,here,(names id before after stored here).trans named,later⟩

theorem entryAt_grown {tree : NameTree} (linked : view.tree.Linked) (grows : Grows view.tree tree) (kind : Kind)
    (name : Name) (number : Nat) : ({view with tree} : View).EntryAt kind name number ↔ view.EntryAt kind name number := by
  have members : ∀ id, number ∈ kind.numbers (({view with tree} : View).tree.carried id) ↔
      number ∈ kind.numbers (view.tree.carried id) ∧ True := by
    intro id
    rw [and_true]
    change number ∈ kind.numbers (tree.carried id) ↔ _
    rw [grows.carried]
  rw [entryAt_iff (fun _ _ _ => shifts_names linked (.grown view tree grows)) members name,and_true]

theorem Numbered.entryAt_detach (numbered : view.Numbered) {kind : Kind} {number id : Nat}
    (held : number ∈ kind.numbers (view.tree.carried id))
    (below : kind = .strategyChoice → ∀ entry, view.tree.entries id = some entry → entry.name ≠ [])
    (other : Kind) (name : Name) (item : Nat) : (view.detach kind number id).EntryAt other name item ↔
      view.EntryAt other name item ∧ ¬ (other = kind ∧ item = number) := by
  refine entryAt_iff (fun _ _ _ => shifts_names numbered.linked (.detached view kind number id held below)) ?_ name
  intro node
  rw [numbered.mem_detach held]
  refine and_congr_right fun inside => not_congr ?_
  constructor
  · rintro ⟨same,-,equal⟩
    exact ⟨same,equal⟩
  · rintro ⟨rfl,rfl⟩
    exact ⟨rfl,numbered.once other node id item inside held,rfl⟩

theorem Numbered.entryAt_attach (numbered : view.Numbered) {tree : NameTree} {id : Nat} {entry : NameTree.Entry}
    {kind : Kind} {interest : Interest} (grows : Grows view.tree tree) (stored : tree.entries id = some entry)
    (takes : view.Takes tree kind id interest) (other : Kind) (name : Name) (number : Nat) :
    (view.attach tree kind id interest).EntryAt other name number ↔
      view.EntryAt other name number ∨ other = kind ∧ name = entry.name ∧ number = view.nextNumber := by
  have names := @shifts_names view _ numbered.linked (.attached view tree kind id interest entry grows stored takes)
  have members := mem_attach grows stored takes other
  have here : (view.attach tree kind id interest).tree.entries id = some (entry.alter (kind.attach view.nextNumber)) := by
    change (tree.alter id _).entries id = _
    rw [alter_entries,if_pos rfl,stored]
    rfl
  constructor
  · rintro ⟨node,after,known,named,held⟩
    rcases (members node number).mp held with earlier | ⟨same,rfl,equal⟩
    · obtain ⟨before,was⟩ := Tables.entry_of_numbers earlier
      exact Or.inl ⟨node,before,was,(names was known).symm.trans named,earlier⟩
    · rw [here] at known
      cases known
      exact Or.inr ⟨same,named.symm,equal⟩
  · rintro (⟨node,before,was,named,earlier⟩ | ⟨same,rfl,equal⟩)
    · have later := (members node number).mpr (Or.inl earlier)
      obtain ⟨after,known⟩ := Tables.entry_of_numbers later
      exact ⟨node,after,known,(names was known).trans named,later⟩
    · exact ⟨id,_,here,rfl,(members id number).mpr (Or.inr ⟨same,rfl,equal⟩)⟩

theorem Numbered.entryAt_name (numbered : view.Numbered) {kind : Kind} {name other : Name} {number : Nat}
    (here : view.EntryAt kind name number) (there : view.EntryAt kind other number) : name = other := by
  obtain ⟨id,entry,stored,rfl,held⟩ := here
  obtain ⟨node,found,known,rfl,again⟩ := there
  have same := numbered.once kind id node number held again
  rw [same] at stored
  cases known.symm.trans stored
  rfl

/-- What is attached to nodes that stay is at its name still. -/
theorem entryAt_prunes {next : View} (prunes : Prunes view.tree next.tree) (kind : Kind) (name : Name) (number : Nat) :
    next.EntryAt kind name number ↔ view.EntryAt kind name number := by
  have names : ∀ id before after, view.tree.entries id = some before → next.tree.entries id = some after →
      after.name = before.name := by
    intro id before after stored kept
    obtain ⟨entry,was,same⟩ := prunes.stays id after kept
    cases stored.symm.trans was
    exact same
  have members : ∀ id, number ∈ kind.numbers (next.tree.carried id) ↔
      number ∈ kind.numbers (view.tree.carried id) ∧ True := by
    intro id
    rw [prunes.carried,and_true]
  rw [entryAt_iff names members name,and_true]

theorem lost_prunes (linked : view.tree.Linked) {id : Nat} (free : Kind.fib.numbers (view.tree.carried id) = []) :
    Prunes view.tree (view.detach .fib 0 id).tree := by
  have same : view.tree.alter id (Kind.fib.detach 0) = view.tree := by
    refine alter_self ?_
    have absent : (view.tree.carried id).fibEntry = none := Option.toList_eq_nil_iff.mp free
    change ({view.tree.carried id with fibEntry := none} : Attached) = _
    rw [← absent]
  change Prunes view.tree ((view.tree.alter id (Kind.fib.detach 0)).eraseEntryIfEmpty id).2
  rw [same]
  exact eraseEntryIfEmpty_prunes linked id

theorem Numbered.of_prunes {next : View} (numbered : view.Numbered) (prunes : Prunes view.tree next.tree)
    (numbers : next.nextNumber = view.nextNumber) : next.Numbered := by
  refine ⟨prunes.linked,?_,?_,?_⟩
  · rw [prunes.carried,numbers]
    exact numbered.given
  · rw [prunes.carried]
    exact numbered.nodup
  · rw [prunes.carried]
    exact numbered.once

def initial (nBuckets : Nat) : View := ⟨.initial nBuckets,0,fun _ => 0,fun _ => ⟨[],Selectors.none,0,0⟩⟩

theorem initial_numbered (nBuckets : Nat) : (initial nBuckets).Numbered := by
  refine ⟨⟨fun _ _ => rfl,?_⟩,?_,?_,?_⟩
  · intro id entry parent stored
    cases stored
  · intro kind id number held
    cases kind <;> cases held
  · intro kind id
    cases kind <;> exact List.nodup_nil
  · intro kind id other number held
    cases kind <;> cases held

end

end View

namespace Tables

section
variable {hashComponent : Component → UInt64} {allowed : NameTree → NameTree.Call → Prop}
  {peeks : NameTree → Name → Prop}

theorem new_view (hashComponent : Component → UInt64) (nBuckets : Nat) (now : Int) (defaultStrategy : Strategy) :
    (new hashComponent nBuckets now defaultStrategy).view = (View.initial nBuckets).attach
      ((NameTree.initial nBuckets).lookup hashComponent []).1 .strategyChoice 0 ⟨[],Selectors.none,0,0⟩ := by
  ext kind
  · rfl
  · rfl
  · cases kind <;> rfl
  · rfl

theorem initial_takes (hashComponent : Component → UInt64) (nBuckets : Nat) : (View.initial nBuckets).Takes
    ((NameTree.initial nBuckets).lookup hashComponent []).1 .strategyChoice 0 ⟨[],Selectors.none,0,0⟩ := by
  have bare := (lookup_grows hashComponent (View.initial_numbered nBuckets).linked []).1.carried
  change Kind.strategyChoice.numbers (((View.initial nBuckets).tree.lookup hashComponent []).1.carried 0) = []
  rw [bare]
  rfl

theorem new_moves (nBuckets : Nat) (now : Int) (defaultStrategy : Strategy)
    (safe : allowed (.initial nBuckets) (.lookup [])) :
    Moves hashComponent allowed peeks (View.initial nBuckets) (new hashComponent nBuckets now defaultStrategy).view := by
  rw [new_view]
  exact .entered (View.initial nBuckets) .strategyChoice [] 0 _ safe rfl (initial_takes hashComponent nBuckets)

/-- An attached entry points back to its node. -/
theorem holder_eq {tables : Tables} (numbered : tables.view.Numbered) {kind : Kind} {number id : Nat}
    {holds : NameTree.Entry → Bool} (spec : ∀ entry, holds entry = true ↔ number ∈ kind.numbers entry.attached)
    (held : number ∈ kind.numbers (tables.tree.carried id)) : tables.tree.holder holds = some id := by
  obtain ⟨entry,stored⟩ := entry_of_numbers held
  cases found : tables.tree.holder holds with
  | some node =>
    obtain ⟨other,known,passed⟩ := entry_of_holder found
    have there : number ∈ kind.numbers (tables.tree.carried node) := by
      rw [carried_of_entry known]
      exact (spec other).mp passed
    rw [numbered.once kind node id number there held]
  | none =>
    have inside : id ∈ List.range tables.tree.nextEntry := by
      rw [List.mem_range]
      by_contra late
      have unused : tables.tree.entries id = none := numbered.linked.fresh id (Nat.le_of_not_lt late)
      rw [unused] at stored
      cases stored
    have missing := List.find?_eq_none.mp found id inside
    rw [NameTree.selects,stored] at missing
    rw [carried_of_entry stored] at held
    exact absurd ((spec entry).mpr held) missing

/-- Invariant rule: what the moves keep, and what the erasure of nothing keeps, the operations keep. -/
theorem step_invariant {I : View → Prop} (numbered : ∀ view, I view → view.Numbered)
    (moves : ∀ view next, I view → Moves hashComponent allowed peeks view next → I next)
    (known : ∀ (tree : NameTree) (id : Nat) (entry : NameTree.Entry), tree.entries id = some entry → peeks tree entry.name)
    (longestMatch : NameTree → Name → (NameTree.Entry → Bool) → Option Nat) {tables next : Tables} {operation : Operation}
    (loses : ∀ id, tables.Loses hashComponent operation id → I (tables.view.detach .fib 0 id))
    (holds : I tables.view) (safe : tables.Allows hashComponent allowed peeks operation)
    (taken : tables.step hashComponent longestMatch operation = some next) : I next.view := by
  by_cases lost : ∃ id, tables.Loses hashComponent operation id
  · obtain ⟨id,lost⟩ := lost
    rw [step_loses longestMatch lost taken]
    exact loses id lost
  · have path := step_moves longestMatch (numbered _ holds).linked known (not_exists.mp lost) safe taken
    generalize next.view = after at path
    induction path with
    | refl => exact holds
    | tail _ move ih => exact moves _ _ ih move

end

section
variable (hashComponent : Component → UInt64)
  (longestMatch : NameTree → Name → (NameTree.Entry → Bool) → Option Nat)

theorem allows_true (tables : Tables) (operation : Operation) :
    tables.Allows hashComponent (fun _ _ => True) (fun _ _ => True) operation := by
  cases operation with
  | find query => cases query <;> simp [Allows]
  | removeNextHopFromAllEntries face => exact fun _ _ _ _ _ => trivial
  | _ => simp [Allows,AllowsErase]

theorem new_numbered (nBuckets : Nat) (now : Int) (defaultStrategy : Strategy) :
    (new hashComponent nBuckets now defaultStrategy).view.Numbered :=
  have move : Moves hashComponent (fun _ _ => True) (fun _ _ => True) _ _ := new_moves nBuckets now defaultStrategy trivial
  (View.initial_numbered nBuckets).shifts (move.shifts (View.initial_numbered nBuckets).linked)

theorem step_numbered {tables next : Tables} {operation : Operation} (numbered : tables.view.Numbered)
    (taken : tables.step hashComponent longestMatch operation = some next) : next.view.Numbered := by
  refine step_invariant (fun _ holds => holds) ?_ (fun _ _ _ _ => trivial) longestMatch ?_ numbered
    (tables.allows_true hashComponent operation) taken
  · intro view next holds move
    exact holds.shifts (move.shifts holds.linked)
  · rintro id ⟨name,-,-,free⟩
    exact numbered.of_prunes (View.lost_prunes numbered.linked free) rfl

end

/-! Runs in which every resize is safe. -/

section
variable {hashComponent : Component → UInt64}

def ResizesSafely (hashComponent : Component → UInt64) (tables : Tables) (operation : Operation) : Prop :=
  tables.Allows hashComponent (NameTree.ResizesSafely hashComponent) (fun _ _ => True) operation

/-- The numbers are in order, and so is the name tree. -/
structure Settled (hashComponent : Component → UInt64) (view : View) : Prop where
  numbered : view.Numbered
  consistent : NameTree.Consistent hashComponent view.tree

theorem Settled.moves {peeks : NameTree → Name → Prop} {view next : View} (settled : Settled hashComponent view)
    (move : Moves hashComponent (NameTree.ResizesSafely hashComponent) peeks view next) : Settled hashComponent next := by
  refine ⟨settled.numbered.shifts (move.shifts settled.numbered.linked),?_⟩
  have consistent := settled.consistent
  cases move with
  | looked name safe peek => exact consistent.lookup name safe
  | entered kind name id interest safe node takes => exact (consistent.lookup name safe).alter id _
  | attached kind id interest present takes => exact consistent.alter id _
  | detached kind number id held below safe => exact (consistent.alter id _).call _ safe

theorem Settled.lost {view : View} (settled : Settled hashComponent view) {id : Nat}
    (free : Kind.fib.numbers (view.tree.carried id) = [])
    (safe : NameTree.ResizesSafely hashComponent (view.tree.alter id (Kind.fib.detach 0)) (.eraseEntryIfEmpty id)) :
    Settled hashComponent (view.detach .fib 0 id) :=
  ⟨settled.numbered.of_prunes (View.lost_prunes settled.numbered.linked free) rfl,
    (settled.consistent.alter id _).call _ safe⟩

/-- The only entry of the first tree has hash zero, which is the same in 32 bits. -/
theorem lookup_root_safe (nBuckets : Nat) : NameTree.ResizesSafely hashComponent (.initial nBuckets) (.lookup []) := by
  intro before event inside
  have first : before = [] ∧ event = [] := by
    change before ++ [event] <+: [[]] at inside
    obtain ⟨rest,same⟩ := inside
    cases before with
    | nil =>
      cases same
      exact ⟨rfl,rfl⟩
    | cons head tail => simp at same
  obtain ⟨rfl,rfl⟩ := first
  rintro - id - entry stored
  have zero : entry.hash = 0 := by
    rw [Option.mem_def] at stored
    cases id with
    | zero =>
      cases stored
      rfl
    | succ id => cases stored
  rw [zero]
  rfl

theorem new_settled {nBuckets : Nat} (positive : 0 < nBuckets) (now : Int) (defaultStrategy : Strategy) :
    Settled hashComponent (new hashComponent nBuckets now defaultStrategy).view :=
  have move : Moves hashComponent (NameTree.ResizesSafely hashComponent) (fun _ _ => True) _ _ :=
    new_moves nBuckets now defaultStrategy (lookup_root_safe nBuckets)
  Settled.moves ⟨View.initial_numbered nBuckets,initial_consistent nBuckets positive⟩ move

theorem step_settled (longestMatch : NameTree → Name → (NameTree.Entry → Bool) → Option Nat) {tables next : Tables}
    {operation : Operation} (settled : Settled hashComponent tables.view)
    (safe : tables.ResizesSafely hashComponent operation)
    (taken : tables.step hashComponent longestMatch operation = some next) : Settled hashComponent next.view := by
  refine step_invariant (fun _ holds => holds.numbered) (fun _ _ holds move => holds.moves move)
    (fun _ _ _ _ => trivial) longestMatch ?_ settled safe taken
  rintro id ⟨name,rfl,found,free⟩
  exact settled.lost free (safe id found)

instance (tables : Tables) (fibEntry : Nat) :
    Decidable (tables.AllowsErase (NameTree.ResizesSafely hashComponent) fibEntry) :=
  inferInstanceAs (Decidable (∀ id ∈ tables.fibNode fibEntry, NameTree.ResizesSafely hashComponent _ _))

instance (tables : Tables) : (operation : Operation) → Decidable (tables.ResizesSafely hashComponent operation)
  | .fibInsert name => inferInstanceAs (Decidable (NameTree.ResizesSafely _ _ (.lookup name)))
  | .fibErase name => inferInstanceAs (Decidable (∀ id ∈ tables.tree.findExactMatch hashComponent name,
      NameTree.ResizesSafely hashComponent (tables.tree.setFibEntry id none) (.eraseEntryIfEmpty id)))
  | .fibEraseEntry _ => inferInstanceAs (Decidable (AllowsErase _ _ _))
  | .addNextHop .. => isTrue trivial
  | .removeNextHop .. => isTrue trivial
  | .removeNextHopFromAllEntries face => inferInstanceAs (Decidable (Steps fibEraseEntry
      (fun state fibEntry => state.AllowsErase (NameTree.ResizesSafely hashComponent) fibEntry)
      (tables.withoutNextHop face) (tables.toErase face)))
  | .pitInsert interest => inferInstanceAs (Decidable (NameTree.ResizesSafely _ _ (.lookup interest.name)))
  | .pitErase pitEntry => inferInstanceAs (Decidable (∀ id ∈ tables.pitNode pitEntry,
      NameTree.ResizesSafely hashComponent (tables.tree.erasePitEntry id pitEntry) (.eraseEntryIfEmpty id)))
  | .setPitInfo .. => isTrue trivial
  | .measurementsGet name => inferInstanceAs (Decidable (NameTree.ResizesSafely _ _ (.lookup name)))
  | .measurementsGetOfFib _ => isTrue trivial
  | .measurementsGetOfPit _ => isTrue trivial
  | .measurementsGetParent _ => isTrue trivial
  | .setMeasurementsInfo .. => isTrue trivial
  | .extendLifetime .. => isTrue trivial
  | .cleanup => inferInstanceAs (Decidable (∀ event ∈ tables.scheduler.next, ∀ id ∈ tables.measurementsNode event.callback,
      NameTree.ResizesSafely hashComponent (tables.tree.setMeasurementsEntry id none) (.eraseEntryIfEmpty id)))
  | .advance _ => isTrue trivial
  | .install _ => isTrue trivial
  | .strategyChoiceInsert name strategyName => inferInstanceAs (Decidable ((tables.getStrategy strategyName).isSome →
      NameTree.ResizesSafely hashComponent tables.tree (.lookup name)))
  | .strategyChoiceErase name => inferInstanceAs (Decidable (∀ id ∈ tables.tree.findExactMatch hashComponent name,
      NameTree.ResizesSafely hashComponent (tables.tree.setStrategyChoiceEntry id none) (.eraseEntryIfEmpty id)))
  | .find query =>
    match query with
    | .measurementsExact name => inferInstanceAs (Decidable (NameTree.ResizesSafely _ _ (.lookup name) ∧ True))
    | .fibLongest _ => isTrue trivial
    | .fibLongestOfPit _ => isTrue trivial
    | .fibLongestOfMeasurements _ => isTrue trivial
    | .fibExact _ => isTrue trivial
    | .pitAllDataMatches _ => isTrue trivial
    | .measurementsLongest .. => isTrue trivial
    | .measurementsLongestOfPit .. => isTrue trivial
    | .strategyChoiceGet _ => isTrue trivial
    | .effectiveStrategy _ => isTrue trivial
    | .effectiveStrategyOfPit _ => isTrue trivial
    | .effectiveStrategyOfMeasurements _ => isTrue trivial

def RunsSafely (hashComponent : Component → UInt64)
    (longestMatch : NameTree → Name → (NameTree.Entry → Bool) → Option Nat) (tables : Tables) (operations : List Operation) :
    Prop :=
  Steps (attempt (step hashComponent longestMatch))
    (fun state operation => ∀ current, state = some current → current.ResizesSafely hashComponent operation)
    (some tables) operations

theorem RunsSafely.settled {longestMatch : NameTree → Name → (NameTree.Entry → Bool) → Option Nat} {nBuckets : Nat}
    (positive : 0 < nBuckets) {now : Int} {defaultStrategy : Strategy} {operations : List Operation}
    (safe : RunsSafely hashComponent longestMatch (new hashComponent nBuckets now defaultStrategy) operations) :
    Along (attempt (step hashComponent longestMatch))
      (fun state => ∀ tables, state = some tables → Settled hashComponent tables.view)
      (some (new hashComponent nBuckets now defaultStrategy)) operations := by
  refine along_of_steps ?_ ?_ safe
  · intro state operation holds admitted next reached
    obtain ⟨tables,here,taken⟩ := Option.bind_eq_some_iff.mp reached
    exact step_settled longestMatch (holds tables here) (admitted tables here) taken
  · rintro tables ⟨⟩
    exact new_settled positive now defaultStrategy

/-- No chain keeps an entry that was deleted: a search that met one would read a freed node. -/
def ChainsStored (tables : Tables) : Prop :=
  ∀ bucket < tables.tree.nBuckets, ∀ id ∈ tables.tree.buckets bucket, (tables.tree.entries id).isSome

instance (tables : Tables) : Decidable tables.ChainsStored :=
  inferInstanceAs (Decidable (∀ bucket < tables.tree.nBuckets, ∀ id ∈ tables.tree.buckets bucket, _))

theorem Settled.chainsStored {tables : Tables} (settled : Settled hashComponent tables.view) : tables.ChainsStored := by
  intro bucket within id inside
  obtain ⟨key,stored,-⟩ := settled.consistent.chains.placed bucket within id inside
  obtain ⟨entry,present,-⟩ := entry_of_keys stored
  exact Option.isSome_of_eq_some present

instance (longestMatch : NameTree → Name → (NameTree.Entry → Bool) → Option Nat) (tables : Tables)
    (operations : List Operation) : Decidable (RunsSafely hashComponent longestMatch tables operations) :=
  have : ∀ (state : Option Tables) (operation : Operation),
      Decidable (∀ current, state = some current → current.ResizesSafely hashComponent operation) :=
    fun state _ => inferInstanceAs (Decidable (∀ current ∈ state, ResizesSafely _ _ _))
  inferInstanceAs (Decidable (Steps _ _ _ _))

end

/-- Tables with a measurements entry for `/A`. -/
def measured : Tables :=
  (new CityHash.cityHash64 16 0 ⟨[[8,1,0x53]],0⟩).measurementsGet CityHash.cityHash64 [[8,1,0x41]]

end Tables

end Ncfcc.Nfd.Table
