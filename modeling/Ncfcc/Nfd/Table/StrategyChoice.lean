import Ncfcc.Library.LongestPrefix
import Ncfcc.Nfd.Table.EntryNumbers
import Ncfcc.Nfd.Table.NameTreeSubtree

/-! The strategy choices as a map from names to strategies. The effective strategy of a name is
that of its longest prefix with a choice; an operation changes the choice of one name, and
clears the StrategyInfo under the name that no deeper choice covers. -/
namespace Ncfcc.Nfd.Table.Tables
open Ncfcc.Library NameTree

def choice (tables : Tables) (name : Name) : Option Strategy :=
  (tables.tree.holder fun entry => entry.name = name ∧ hasChoice entry).bind tables.strategyOf

section
variable {hashComponent : Component → UInt64} {tables : Tables}

private theorem hasChoice_iff {id : Nat} {entry : NameTree.Entry} (stored : tables.tree.entries id = some entry) :
    hasChoice entry = true ↔ (tables.strategyOf id).isSome := by
  unfold hasChoice strategyOf
  rw [stored]
  simp

theorem choice_of_entry (settled : Settled hashComponent tables.view) {id : Nat} {entry : NameTree.Entry}
    (stored : tables.tree.entries id = some entry) : tables.choice entry.name = tables.strategyOf id := by
  have names := settled.consistent.names
  unfold choice
  cases found : tables.tree.holder fun other => other.name = entry.name ∧ hasChoice other with
  | some node =>
    obtain ⟨other,known,passed⟩ := entry_of_holder found
    have same := (of_decide_eq_true passed).1
    rw [names.distinct node id other.key entry.key (keys_of_entry known) (keys_of_entry stored) same]
    rfl
  | none =>
    have inside := List.mem_range.mpr (names.fresh id entry.key (keys_of_entry stored))
    have missing := List.find?_eq_none.mp found id inside
    rw [NameTree.selects,stored] at missing
    have without : ¬ hasChoice entry = true := fun has => missing (decide_eq_true ⟨rfl,has⟩)
    rw [hasChoice_iff stored,Option.not_isSome_iff_eq_none] at without
    exact without.symm

private theorem strategyOf_eq_some_iff (id : Nat) (strategy : Strategy) : tables.strategyOf id = some strategy ↔
    ∃ number ∈ Kind.strategyChoice.numbers (tables.tree.carried id), tables.strategies number = strategy := by
  rw [numbers_strategyChoice]
  unfold strategyOf
  rw [Option.map_eq_some_iff]
  simp only [Option.mem_toList]

/-- The choice of a name is the strategy of the entry at its node. -/
theorem choice_eq_some_iff (settled : Settled hashComponent tables.view) (name : Name) (strategy : Strategy) :
    tables.choice name = some strategy ↔
      ∃ number, tables.view.EntryAt .strategyChoice name number ∧ tables.strategies number = strategy := by
  constructor
  · intro chosen
    obtain ⟨id,found,here⟩ := Option.bind_eq_some_iff.mp chosen
    obtain ⟨entry,stored,passed⟩ := entry_of_holder found
    obtain ⟨number,held,same⟩ := (strategyOf_eq_some_iff id strategy).mp here
    exact ⟨number,⟨id,entry,stored,(of_decide_eq_true passed).1,held⟩,same⟩
  · rintro ⟨number,⟨id,entry,stored,rfl,held⟩,same⟩
    rw [choice_of_entry settled stored]
    exact (strategyOf_eq_some_iff id strategy).mpr ⟨number,held,same⟩

theorem choice_eq_none_iff (settled : Settled hashComponent tables.view) (name : Name) :
    tables.choice name = none ↔ ∀ number, ¬ tables.view.EntryAt .strategyChoice name number := by
  rw [Option.eq_none_iff_forall_ne_some]
  constructor
  · intro unchosen number attached
    exact unchosen _ ((choice_eq_some_iff settled name _).mpr ⟨number,attached,rfl⟩)
  · intro absent strategy chosen
    obtain ⟨number,attached,-⟩ := (choice_eq_some_iff settled name strategy).mp chosen
    exact absent number attached

/-- A longest match finds the effective strategy. -/
theorem longest_of_match (settled : Settled hashComponent tables.view) {name : Name} {found : Option Nat}
    (matched : tables.tree.Longest name hasChoice found) : found.bind tables.strategyOf = longest tables.choice name := by
  have candidate : ∀ key strategy, key <+: name → tables.choice key = some strategy →
      ∃ id entry, tables.tree.Candidate name hasChoice id entry ∧ entry.name = key := by
    intro key strategy inside chosen
    obtain ⟨number,⟨id,entry,stored,rfl,held⟩,-⟩ := (choice_eq_some_iff settled key strategy).mp chosen
    refine ⟨id,entry,⟨stored,inside,(hasChoice_iff stored).mpr ?_⟩,rfl⟩
    exact Option.isSome_of_eq_some ((strategyOf_eq_some_iff id _).mpr ⟨number,held,rfl⟩)
  cases found with
  | none =>
    refine (Option.eq_none_iff_forall_ne_some.mpr ?_).symm
    intro strategy effective
    obtain ⟨key,inside,chosen,-⟩ := (longest_eq_some_iff name strategy).mp effective
    obtain ⟨id,entry,here,-⟩ := candidate key strategy inside chosen
    exact matched id entry here
  | some id =>
    obtain ⟨entry,⟨stored,inside,has⟩,best⟩ := matched
    obtain ⟨strategy,chosen⟩ := Option.isSome_iff_exists.mp ((hasChoice_iff stored).mp has)
    rw [Option.bind_some,chosen]
    refine ((longest_eq_some_iff name strategy).mpr ⟨entry.name,inside,?_,?_⟩).symm
    · rw [choice_of_entry settled stored]
      exact chosen
    · intro other within longer
      refine Option.eq_none_iff_forall_ne_some.mpr ?_
      intro another there
      obtain ⟨node,rival,competitor,rfl⟩ := candidate other another within there
      exact absurd (best node rival competitor) (Nat.not_le_of_lt longer)

private theorem findLongestPrefixMatchFrom_self {tree : NameTree} {selector : NameTree.Entry → Bool} {id fuel : Nat}
    {entry : NameTree.Entry} (stored : tree.entries id = some entry) (selected : selector entry = true) :
    tree.findLongestPrefixMatchFrom selector (fuel + 1) (some id) = some id := by
  unfold findLongestPrefixMatchFrom
  rw [stored]
  exact if_pos selected

/-- The effective strategy of a node is that of the longest prefix of its name with a choice. -/
theorem effectiveStrategy_eq (settled : Settled hashComponent tables.view) {id : Nat} {entry : NameTree.Entry}
    (stored : tables.tree.entries id = some entry) : tables.effectiveStrategy id = longest tables.choice entry.name := by
  have matched := longest_of_match settled
    (settled.consistent.longest_from hasChoice (entry.name.length + 1) id entry stored (Nat.lt_succ_self _))
  unfold effectiveStrategy
  rw [stored,Option.bind_some,← matched]
  split
  · rename_i has
    have itself : tables.view.tree.findLongestPrefixMatchFrom hasChoice (entry.name.length + 1) (some id) = some id :=
      findLongestPrefixMatchFrom_self stored has
    rw [itself]
    rfl
  · rfl

/-- The nodes that the changed choice covers are enumerated. -/
theorem mem_changed (settled : Settled hashComponent tables.view) {root : Nat} {entry : NameTree.Entry}
    (stored : tables.tree.entries root = some entry) (id : Nat) :
    id ∈ tables.tree.partialEnumerate hashComponent entry.name (tables.changeSelector root) ↔
      ∃ found, tables.tree.entries id = some found ∧ Covers tables.choice entry.name found.name := by
  have consistent : NameTree.Consistent hashComponent tables.tree := settled.consistent
  -- The selector passes the changed choice itself and nodes without a choice.
  have passes : ∀ node other, tables.tree.entries node = some other → entry.name <+: other.name →
      (((tables.changeSelector root node).1 = true ↔ (other.name ≠ entry.name → tables.choice other.name = none)) ∧
        (tables.changeSelector root node).2 = (tables.changeSelector root node).1) := by
    intro node other known _
    have selected : tables.tree.selects hasChoice node = (tables.strategyOf node).isSome := by
      rw [Bool.eq_iff_iff,← hasChoice_iff known,NameTree.selects,known]
      rfl
    have same : other.name = entry.name ↔ node = root := by
      constructor
      · exact consistent.names.distinct node root other.key entry.key (keys_of_entry known) (keys_of_entry stored)
      · rintro rfl
        cases known.symm.trans stored
        rfl
    rw [choice_of_entry settled known,ne_eq,same]
    unfold changeSelector
    split
    · rename_i here
      simp [here]
    · rename_i apart
      rw [selected]
      cases tables.strategyOf node <;> simp [apart]
  rw [consistent.mem_partialEnumerate (tables.changeSelector root) stored]
  constructor
  · rintro ⟨accepted,found,known,under,clear⟩
    refine ⟨found,known,under,?_⟩
    intro key above inside different
    cases chosen : tables.choice key with
    | none => rfl
    | some strategy =>
      obtain ⟨number,⟨node,other,here,rfl,-⟩,-⟩ := (choice_eq_some_iff settled key strategy).mp chosen
      obtain ⟨open_,both⟩ := passes node other here above
      have unchosen : tables.choice other.name = none := by
        refine open_.mp ?_ different
        by_cases last : node = id
        · rw [last]
          exact accepted
        · rw [← both]
          exact clear node other here above inside last
      exact absurd chosen (by simp [unchosen])
  · rintro ⟨found,known,under,between⟩
    refine ⟨(passes id found known under).1.mpr (between found.name under List.prefix_rfl),found,known,under,?_⟩
    intro node other here above inside _
    obtain ⟨open_,both⟩ := passes node other here above
    rw [both]
    exact open_.mpr (between other.name above inside)

/-! The cleared StrategyInfo. -/

private theorem clear_clear (info : PitInfo) : info.clear.clear = info.clear := by
  simp [PitInfo.clear]

private theorem clearStrategyInfo_infos (tables : Tables) (id : Nat) :
    (tables.clearStrategyInfo id).pitInfo = (fun number => if number ∈ Kind.pit.numbers (tables.tree.carried id) then
        (tables.pitInfo number).clear else tables.pitInfo number) ∧
      (tables.clearStrategyInfo id).measurementsInfo = (fun number =>
        if number ∈ Kind.measurements.numbers (tables.tree.carried id) then [] else tables.measurementsInfo number) := by
  rw [numbers_pit,numbers_measurements]
  unfold clearStrategyInfo
  cases tables.tree.entries id with
  | none => simp
  | some entry => simp

/-- The entries of the nodes of a list are cleared, the others are not. -/
theorem clears_infos (nodes : List Nat) (tables : Tables) (number : Nat) :
    ((nodes.foldl clearStrategyInfo tables).pitInfo number =
        if ∃ id ∈ nodes, number ∈ Kind.pit.numbers (tables.tree.carried id) then (tables.pitInfo number).clear
        else tables.pitInfo number) ∧
      (nodes.foldl clearStrategyInfo tables).measurementsInfo number =
        if ∃ id ∈ nodes, number ∈ Kind.measurements.numbers (tables.tree.carried id) then []
        else tables.measurementsInfo number := by
  induction nodes generalizing tables with
  | nil => simp
  | cons id rest ih =>
    have tree : (tables.clearStrategyInfo id).tree = tables.tree := congrArg View.tree (tables.clearStrategyInfo_view id)
    obtain ⟨pit,measurements⟩ := tables.clearStrategyInfo_infos id
    rw [List.foldl_cons,(ih _).1,(ih _).2,tree,pit,measurements]
    simp only [List.mem_cons,exists_eq_or_imp]
    constructor
    · by_cases here : number ∈ Kind.pit.numbers (tables.tree.carried id)
      · simp [here,clear_clear]
      · simp [here]
    · by_cases here : number ∈ Kind.measurements.numbers (tables.tree.carried id)
      · simp [here]
      · simp [here]

end

def ClearsNode (tables next : Tables) (entry : NameTree.Entry) : Prop :=
  (∀ number ∈ entry.pitEntries, next.pitInfo number = (tables.pitInfo number).clear) ∧
    ∀ number, entry.measurementsEntry = some number → next.measurementsInfo number = []

def KeepsNode (tables next : Tables) (entry : NameTree.Entry) : Prop :=
  (∀ number ∈ entry.pitEntries, next.pitInfo number = tables.pitInfo number) ∧
    ∀ number, entry.measurementsEntry = some number → next.measurementsInfo number = tables.measurementsInfo number

def KeepsNodes (tables next : Tables) : Prop :=
  ∀ id entry, tables.tree.entries id = some entry → ∃ later, next.tree.entries id = some later ∧
    later.name = entry.name ∧ later.pitEntries = entry.pitEntries ∧ later.measurementsEntry = entry.measurementsEntry

/-- A change from one strategy to another clears the nodes that the name covers. -/
def ClearsCovered (tables next : Tables) (name : Name) (old new : Strategy) : Prop :=
  ∀ id entry, tables.tree.entries id = some entry →
    (old ≠ new ∧ Covers tables.choice name entry.name → tables.ClearsNode next entry) ∧
      (¬ (old ≠ new ∧ Covers tables.choice name entry.name) → tables.KeepsNode next entry)

section
variable {hashComponent : Component → UInt64} {tables : Tables}

theorem changeStrategy_clears (settled : Settled hashComponent tables.view) {root : Nat} {top : NameTree.Entry}
    (stored : tables.tree.entries root = some top) (old new : Strategy) :
    tables.ClearsCovered (tables.changeStrategy hashComponent root top.name old new) top.name old new := by
  intro id entry here
  unfold changeStrategy
  split
  · rename_i same
    exact ⟨fun changed => absurd same changed.1,fun _ => ⟨fun _ _ => rfl,fun _ _ => rfl⟩⟩
  · rename_i different
    have infos := clears_infos (tables.tree.partialEnumerate hashComponent top.name (tables.changeSelector root)) tables
    have covered : id ∈ tables.tree.partialEnumerate hashComponent top.name (tables.changeSelector root) ↔
        Covers tables.choice top.name entry.name := by
      rw [mem_changed settled stored]
      constructor
      · rintro ⟨found,known,covers⟩
        cases here.symm.trans known
        exact covers
      · exact fun covers => ⟨entry,here,covers⟩
    -- An entry is attached to one node only.
    have only : ∀ kind number, number ∈ Kind.numbers kind (tables.tree.carried id) →
        ((∃ node ∈ tables.tree.partialEnumerate hashComponent top.name (tables.changeSelector root),
          number ∈ Kind.numbers kind (tables.tree.carried node)) ↔ Covers tables.choice top.name entry.name) := by
      intro kind number held
      rw [← covered]
      constructor
      · rintro ⟨node,met,there⟩
        rw [settled.numbered.once kind id node number held there]
        exact met
      · exact fun met => ⟨id,met,held⟩
    have pit : ∀ number ∈ entry.pitEntries, number ∈ Kind.pit.numbers (tables.tree.carried id) := by
      intro number inside
      rw [carried_of_entry here]
      exact inside
    have measurements : ∀ number, entry.measurementsEntry = some number →
        number ∈ Kind.measurements.numbers (tables.tree.carried id) := by
      intro number attached
      rw [carried_of_entry here]
      exact Option.mem_toList.mpr attached
    constructor
    · rintro ⟨-,covers⟩
      refine ⟨?_,?_⟩
      · intro number inside
        rw [(infos number).1,if_pos ((only .pit number (pit number inside)).mpr covers)]
      · intro number attached
        rw [(infos number).2,if_pos ((only .measurements number (measurements number attached)).mpr covers)]
    · intro unchanged
      have uncovered : ¬ Covers tables.choice top.name entry.name := fun covers => unchanged ⟨different,covers⟩
      refine ⟨?_,?_⟩
      · intro number inside
        rw [(infos number).1,if_neg fun met => uncovered ((only .pit number (pit number inside)).mp met)]
      · intro number attached
        rw [(infos number).2,if_neg fun met => uncovered ((only .measurements number (measurements number attached)).mp met)]

theorem ClearsCovered.of_same {middle next : Tables} {name : Name} {old new : Strategy}
    (cleared : middle.ClearsCovered next name old new)
    (nodes : tables.KeepsNodes middle) (pit : middle.pitInfo = tables.pitInfo)
    (measurements : middle.measurementsInfo = tables.measurementsInfo)
    (covers : ∀ seen, Covers middle.choice name seen ↔ Covers tables.choice name seen) :
    tables.ClearsCovered next name old new := by
  intro id entry stored
  obtain ⟨later,here,named,pitEntries,measurementsEntry⟩ := nodes id entry stored
  have spec := cleared id later here
  unfold ClearsNode KeepsNode at spec ⊢
  rw [named,covers,pitEntries,measurementsEntry,pit,measurements] at spec
  exact spec

theorem choice_single (settled : Settled hashComponent tables.view) {name : Name} {id first number : Nat}
    {entry : NameTree.Entry} (stored : tables.tree.entries id = some entry) (named : entry.name = name)
    (chosen : entry.strategyChoiceEntry = some first) :
    tables.view.EntryAt .strategyChoice name number ↔ number = first := by
  have here : Kind.strategyChoice.numbers (tables.tree.carried id) = [first] := by
    rw [carried_of_entry stored]
    change entry.strategyChoiceEntry.toList = _
    rw [chosen]
    rfl
  constructor
  · rintro ⟨node,other,known,same,held⟩
    have equal := settled.consistent.names.distinct node id other.key entry.key (keys_of_entry known) (keys_of_entry stored)
      (same.trans named.symm)
    rw [equal] at held
    exact List.mem_singleton.mp (here ▸ held)
  · rintro rfl
    exact ⟨id,entry,stored,named,here.symm ▸ List.mem_singleton_self _⟩

theorem choice_eq_update {next : Tables} (settled : Settled hashComponent tables.view)
    (after : Settled hashComponent next.view) {name : Name} {value : Option Strategy}
    (chosen : ∀ strategy, (∃ number, next.view.EntryAt .strategyChoice name number ∧ next.strategies number = strategy) ↔
      value = some strategy)
    (others : ∀ key, key ≠ name → ∀ number, (next.view.EntryAt .strategyChoice key number ↔
      tables.view.EntryAt .strategyChoice key number) ∧ (tables.view.EntryAt .strategyChoice key number →
        next.strategies number = tables.strategies number)) :
    next.choice = Function.update tables.choice name value := by
  funext key
  refine Option.ext fun strategy => ?_
  rw [choice_eq_some_iff after]
  by_cases same : key = name
  · rw [same,Function.update_self]
    exact chosen strategy
  · rw [Function.update_of_ne same,choice_eq_some_iff settled]
    refine exists_congr fun number => ?_
    obtain ⟨attached,kept⟩ := others key same number
    rw [attached]
    refine and_congr_right fun here => ?_
    rw [kept here]

end

end Ncfcc.Nfd.Table.Tables
