import Ncfcc.Nfd.Table.StrategyChoice

/-! The operations on strategy choices over runs. An insertion or an erasure changes the choice of
one name, and the StrategyInfo it clears is that of the nodes whose effective strategy changes. -/
namespace Ncfcc.Nfd.Table
open Ncfcc.Library NameTree

def View.Rooted (view : View) : Prop := ∃ number, view.EntryAt .strategyChoice [] number

theorem View.Rooted.shifts {view next : View} (rooted : view.Rooted) (numbered : view.Numbered)
    (shift : Shifts view next) : next.Rooted := by
  obtain ⟨number,here⟩ := rooted
  refine ⟨number,?_⟩
  cases shift with
  | grown tree grows => exact (View.entryAt_grown numbered.linked grows .strategyChoice [] number).mpr here
  | attached tree kind id interest entry grows stored takes =>
    exact (numbered.entryAt_attach grows stored takes .strategyChoice [] number).mpr (Or.inl here)
  | detached kind item id held below =>
    refine (numbered.entryAt_detach held below .strategyChoice [] number).mpr ⟨here,?_⟩
    rintro ⟨same,rfl⟩
    obtain ⟨entry,stored⟩ := Tables.entry_of_numbers held
    have there : view.EntryAt .strategyChoice entry.name number := ⟨id,entry,stored,rfl,same.symm ▸ held⟩
    exact below same.symm entry stored (numbered.entryAt_name there here)

namespace Tables

/-! The strategies of the choices are installed. -/

/-- Every choice has an installed strategy, and installed strategies are told apart by name. -/
structure Installed (tables : Tables) : Prop where
  known : ∀ number, tables.strategies number ∈ tables.strategyInstances
  distinct : ∀ first ∈ tables.strategyInstances, ∀ second ∈ tables.strategyInstances,
    first.name = second.name → first = second

section
variable {tables next : Tables}

private theorem pickStrategy_mem (strategyName : Name) (strategies : List Strategy) (candidate : Option Strategy)
    {strategy : Strategy} (picked : pickStrategy strategyName strategies candidate = some strategy) :
    strategy ∈ strategies ∨ candidate = some strategy := by
  induction strategies generalizing candidate with
  | nil => exact Or.inr picked
  | cons first rest ih =>
    unfold pickStrategy at picked
    split at picked
    · split at picked
      · cases picked
        exact Or.inl (List.mem_cons_self ..)
      · split at picked
        · rcases ih _ picked with later | here
          · exact Or.inl (List.mem_cons_of_mem _ later)
          · cases here
            exact Or.inl (List.mem_cons_self ..)
        · rcases ih _ picked with later | before
          · exact Or.inl (List.mem_cons_of_mem _ later)
          · exact Or.inr before
    · exact Or.inr picked

private theorem getStrategy_mem {strategyName : Name} {strategy : Strategy}
    (got : tables.getStrategy strategyName = some strategy) : strategy ∈ tables.strategyInstances := by
  rcases pickStrategy_mem strategyName _ none got with inside | impossible
  · exact (List.dropWhile_suffix _).mem inside
  · cases impossible

private theorem mem_install {strategy : Strategy} (fresh : ∀ other ∈ tables.strategyInstances, other.name ≠ strategy.name)
    (other : Strategy) :
    other ∈ (tables.install strategy).strategyInstances ↔ other = strategy ∨ other ∈ tables.strategyInstances := by
  have absent : ¬ tables.strategyInstances.any (fun other => other.name = strategy.name) := by
    rw [List.any_eq_true]
    rintro ⟨other,inside,same⟩
    exact fresh other inside (of_decide_eq_true same)
  unfold install
  rw [if_neg absent,List.mem_append,List.mem_cons,or_left_comm,← List.mem_append,List.takeWhile_append_dropWhile]

theorem Installed.install (installed : tables.Installed) (strategy : Strategy) : (tables.install strategy).Installed := by
  by_cases fresh : ∀ other ∈ tables.strategyInstances, other.name ≠ strategy.name
  · have members := mem_install fresh
    have strategies : (tables.install strategy).strategies = tables.strategies := by
      unfold Tables.install
      split <;> rfl
    constructor
    · intro number
      rw [strategies]
      exact (members _).mpr (Or.inr (installed.known number))
    · intro first one second two same
      rcases (members first).mp one with rfl | earlier
      · rcases (members second).mp two with rfl | later
        · rfl
        · exact absurd same.symm (fresh second later)
      · rcases (members second).mp two with rfl | later
        · exact absurd same (fresh first earlier)
        · exact installed.distinct first earlier second later same
  · have present : tables.strategyInstances.any (fun other => other.name = strategy.name) = true := by
      rw [List.any_eq_true]
      simpa using fresh
    unfold Tables.install
    rw [if_pos present]
    exact installed

theorem Installed.of_contents (installed : tables.Installed) (strategies : next.strategies = tables.strategies)
    (instances : next.strategyInstances = tables.strategyInstances) : next.Installed := by
  constructor
  · rw [strategies,instances]
    exact installed.known
  · rw [instances]
    exact installed.distinct

theorem Installed.update (installed : tables.Installed) {strategy : Strategy} (known : strategy ∈ tables.strategyInstances)
    {number : Nat} (strategies : next.strategies = Function.update tables.strategies number strategy)
    (instances : next.strategyInstances = tables.strategyInstances) : next.Installed := by
  constructor
  · intro other
    rw [strategies,instances,Function.update_apply]
    split
    · exact known
    · exact installed.known other
  · rw [instances]
    exact installed.distinct

private theorem strategyChoiceInsert_installed {hashComponent : Component → UInt64}
    {longestMatch : NameTree → Name → (NameTree.Entry → Bool) → Option Nat} (installed : tables.Installed)
    {name strategyName : Name} (taken : tables.strategyChoiceInsert hashComponent longestMatch name strategyName = some next) :
    next.Installed := by
  unfold strategyChoiceInsert at taken
  split at taken
  · cases taken
    exact installed
  · rename_i strategy got
    have known := getStrategy_mem got
    dsimp only at taken
    split at taken
    · cases taken
      exact installed.of_contents rfl rfl
    · split at taken
      · split at taken
        · cases taken
          exact installed.of_contents rfl rfl
        · cases taken
          exact installed.update known
            (congrArg (Function.update · _ _) (congrArg Contents.strategies (changeStrategy_contents ..)))
            (congrArg Contents.strategyInstances (changeStrategy_contents ..))
      · obtain ⟨old,-,rfl⟩ := Option.map_eq_some_iff.mp taken
        exact installed.update known
          (congrArg (Function.update · _ _) (congrArg Contents.strategies (changeStrategy_contents ..)))
          (congrArg Contents.strategyInstances (changeStrategy_contents ..))

private theorem step_installed {hashComponent : Component → UInt64}
    (longestMatch : NameTree → Name → (NameTree.Entry → Bool) → Option Nat) {operation : Operation}
    (installed : tables.Installed) (taken : tables.step hashComponent longestMatch operation = some next) :
    next.Installed := by
  by_cases sets : SetsContents operation
  · cases sets with
    | fibInsert name =>
      cases taken
      unfold fibInsert
      dsimp only
      split
      · exact installed.of_contents rfl rfl
      · split <;> exact installed.of_contents rfl rfl
    | addNextHop fibEntry face cost =>
      cases taken
      exact installed.of_contents rfl rfl
    | removeNextHop fibEntry face =>
      cases taken
      exact installed.of_contents rfl rfl
    | removeNextHopFromAllEntries face =>
      cases taken
      let read := fun tables : Tables => (tables.strategies,tables.strategyInstances)
      have erased : ∀ tables fibEntry, read (Tables.fibEraseEntry tables fibEntry) = read tables := by
        intro tables fibEntry
        have kept := tables.fibEraseEntry_contents fibEntry
        exact Prod.ext (congrArg Contents.strategies kept) (congrArg Contents.strategyInstances kept)
      have same : read (tables.removeNextHopFromAllEntries face) = read tables :=
        (foldl_kept read fibEraseEntry erased _ _).trans
          (foldl_kept read (fun tables fibEntry => tables.removeNextHop fibEntry face) (fun _ _ => rfl) _ tables)
      exact installed.of_contents (congrArg Prod.fst same) (congrArg Prod.snd same)
    | install strategy =>
      cases taken
      exact installed.install strategy
    | strategyChoiceInsert name strategyName => exact strategyChoiceInsert_installed installed taken
  · have same := step_contents longestMatch sets taken
    exact installed.of_contents (congrArg Contents.strategies same) (congrArg Contents.strategyInstances same)

end

/-! The invariant. -/

/-- The tables are in order, the root has a choice, and the choices have installed strategies. -/
structure Chosen (hashComponent : Component → UInt64) (tables : Tables) : Prop where
  settled : Settled hashComponent tables.view
  rooted : tables.view.Rooted
  installed : tables.Installed

section
variable {hashComponent : Component → UInt64} {tables : Tables}

theorem new_chosen {nBuckets : Nat} (positive : 0 < nBuckets) (now : Int) (defaultStrategy : Strategy) :
    Chosen hashComponent (new hashComponent nBuckets now defaultStrategy) := by
  refine ⟨new_settled positive now defaultStrategy,?_,?_,?_⟩
  · have numbered := View.initial_numbered nBuckets
    obtain ⟨grows,id,entry,node,stored,named⟩ := lookup_grows hashComponent numbered.linked []
    cases node
    rw [new_view]
    exact ⟨0,(numbered.entryAt_attach grows stored (initial_takes hashComponent nBuckets) .strategyChoice [] 0).mpr
      (Or.inr ⟨rfl,named.symm,rfl⟩)⟩
  · intro number
    exact List.mem_singleton_self _
  · intro first one second two _
    rw [List.mem_singleton.mp one,List.mem_singleton.mp two]

theorem step_chosen (longestMatch : NameTree → Name → (NameTree.Entry → Bool) → Option Nat) {next : Tables}
    {operation : Operation} (chosen : Chosen hashComponent tables) (safe : tables.ResizesSafely hashComponent operation)
    (taken : tables.step hashComponent longestMatch operation = some next) : Chosen hashComponent next := by
  have kept : Settled hashComponent next.view ∧ next.view.Rooted := by
    refine step_invariant (I := fun view => Settled hashComponent view ∧ view.Rooted) (fun _ holds => holds.1.numbered)
      ?_ (fun _ _ _ _ => trivial) longestMatch ?_ ⟨chosen.settled,chosen.rooted⟩ safe taken
    · intro view next holds move
      exact ⟨holds.1.moves move,holds.2.shifts holds.1.numbered (move.shifts holds.1.numbered.linked)⟩
    · rintro id ⟨name,rfl,found,free⟩
      obtain ⟨number,here⟩ := chosen.rooted
      have prunes := View.lost_prunes chosen.settled.numbered.linked free
      exact ⟨chosen.settled.lost free (safe id found),number,(View.entryAt_prunes prunes .strategyChoice [] number).mpr here⟩
  exact ⟨kept.1,kept.2,step_installed longestMatch chosen.installed taken⟩

theorem Chosen.longest_isSome (chosen : Chosen hashComponent tables) (name : Name) :
    (longest tables.choice name).isSome := by
  refine Library.longest_isSome ?_ name
  obtain ⟨number,here⟩ := chosen.rooted
  exact Option.isSome_of_eq_some ((choice_eq_some_iff chosen.settled [] _).mpr ⟨number,here,rfl⟩)

end

/-! The changes. -/

/-- The choice of a name is set or removed, and the nodes it covers are cleared if that makes a
difference. Only nodes without PIT entries and measurements are erased. -/
structure Changes (tables next : Tables) (name : Name) (value : Option Strategy) : Prop where
  choice : next.choice = Function.update tables.choice name value
  nodes : ∀ id entry, tables.tree.entries id = some entry →
    (∃ later, next.tree.entries id = some later ∧ later.name = entry.name) ∨
      entry.pitEntries = [] ∧ entry.measurementsEntry = none
  clears : ∃ old new, longest tables.choice name = some old ∧ longest next.choice name = some new ∧
    tables.ClearsCovered next name old new

/-- The StrategyInfo of exactly those nodes is cleared whose effective strategy changes. -/
def ClearsChanged (tables next : Tables) : Prop :=
  ∀ id entry, tables.tree.entries id = some entry →
    (next.effectiveStrategy id ≠ tables.effectiveStrategy id → tables.ClearsNode next entry) ∧
      (next.effectiveStrategy id = tables.effectiveStrategy id → tables.KeepsNode next entry)

section
variable {hashComponent : Component → UInt64} {tables next : Tables}

theorem Changes.clearsChanged {name : Name} {value : Option Strategy} (changes : tables.Changes next name value)
    (before : Settled hashComponent tables.view) (after : Settled hashComponent next.view) :
    tables.ClearsChanged next := by
  intro id entry stored
  obtain ⟨old,new,oldest,newest,clears⟩ := changes.clears
  obtain ⟨cleared,kept⟩ := clears id entry stored
  rcases changes.nodes id entry stored with ⟨later,here,named⟩ | ⟨nothing,bare⟩
  · rw [effectiveStrategy_eq before stored,effectiveStrategy_eq after here,named]
    by_cases covers : Covers tables.choice name entry.name
    · have covered : Covers next.choice name entry.name := by
        rw [changes.choice]
        exact (covers_update name entry.name value).mpr covers
      rw [covers.longest_eq,covered.longest_eq,oldest,newest]
      constructor
      · intro different
        exact cleared ⟨fun same => different (by rw [same]),covers⟩
      · intro same
        exact kept fun changed => changed.1 (Option.some.inj same).symm
    · have unseen : longest next.choice entry.name = longest tables.choice entry.name := by
        rw [changes.choice]
        exact longest_update_of_not_covers covers value
      exact ⟨fun different => absurd unseen different,fun _ => kept fun changed => covers changed.2⟩
  · have trivially : ∀ P Q : Nat → Prop, (∀ number ∈ entry.pitEntries, P number) ∧
        ∀ number, entry.measurementsEntry = some number → Q number := by
      intro P Q
      rw [nothing,bare]
      exact ⟨fun _ inside => absurd inside List.not_mem_nil,fun _ absent => nomatch absent⟩
    exact ⟨fun _ => trivially _ _,fun _ => trivially _ _⟩

private theorem clearsCovered_self {name : Name} {strategy : Strategy} (pit : next.pitInfo = tables.pitInfo)
    (measurements : next.measurementsInfo = tables.measurementsInfo) :
    tables.ClearsCovered next name strategy strategy := by
  intro id entry stored
  refine ⟨fun changed => absurd rfl changed.1,fun _ => ⟨?_,?_⟩⟩
  · intro number inside
    rw [pit]
  · intro number attached
    rw [measurements]

theorem Changes.of_changed {middle : Tables} {name : Name} {value : Option Strategy} {root : Nat} {top : NameTree.Entry}
    {old new : Strategy} (settled : Settled hashComponent middle.view)
    (stored : middle.tree.entries root = some top) (named : top.name = name) (nodes : tables.KeepsNodes middle)
    (pit : middle.pitInfo = tables.pitInfo) (measurements : middle.measurementsInfo = tables.measurementsInfo)
    (others : ∀ key, key ≠ name → middle.choice key = tables.choice key)
    (nextPit : next.pitInfo = (middle.changeStrategy hashComponent root name old new).pitInfo)
    (nextMeasurements : next.measurementsInfo = (middle.changeStrategy hashComponent root name old new).measurementsInfo)
    (later : ∀ id entry, tables.tree.entries id = some entry →
      (∃ later, next.tree.entries id = some later ∧ later.name = entry.name) ∨
        entry.pitEntries = [] ∧ entry.measurementsEntry = none)
    (choice : next.choice = Function.update tables.choice name value)
    (oldest : longest tables.choice name = some old) (newest : longest next.choice name = some new) :
    tables.Changes next name value := by
  refine ⟨choice,later,old,new,oldest,newest,?_⟩
  have cleared := changeStrategy_clears settled stored old new
  rw [named] at cleared
  have same : middle.ClearsCovered next name old new := by
    intro id entry here
    have spec := cleared id entry here
    unfold ClearsNode KeepsNode at spec ⊢
    rw [nextPit,nextMeasurements]
    exact spec
  refine same.of_same nodes pit measurements fun seen => covers_congr ?_ seen
  intro key different
  rw [others key different]

theorem KeepsNodes.stay (nodes : tables.KeepsNodes next) {id : Nat} {entry : NameTree.Entry}
    (stored : tables.tree.entries id = some entry) :
    (∃ later, next.tree.entries id = some later ∧ later.name = entry.name) ∨
      entry.pitEntries = [] ∧ entry.measurementsEntry = none := by
  obtain ⟨later,here,named,-⟩ := nodes id entry stored
  exact Or.inl ⟨later,here,named⟩

/-! An insertion. -/

def looked (hashComponent : Component → UInt64) (tables : Tables) (name : Name) : Tables :=
  {tables with tree := (tables.tree.lookup hashComponent name).1}

theorem looked_settled (settled : Settled hashComponent tables.view) {name : Name}
    (safe : NameTree.ResizesSafely hashComponent tables.tree (.lookup name)) :
    Settled hashComponent (tables.looked hashComponent name).view :=
  have move : Moves hashComponent (NameTree.ResizesSafely hashComponent) (fun _ _ => True) tables.view
      (tables.looked hashComponent name).view := .looked tables.view name safe trivial
  settled.moves move

private theorem looked_entryAt (settled : Settled hashComponent tables.view) (name key : Name) (number : Nat) :
    (tables.looked hashComponent name).view.EntryAt .strategyChoice key number ↔
      tables.view.EntryAt .strategyChoice key number :=
  View.entryAt_grown settled.numbered.linked (lookup_grows hashComponent settled.numbered.linked name).1 .strategyChoice
    key number

theorem looked_choice (settled : Settled hashComponent tables.view) {name : Name}
    (safe : NameTree.ResizesSafely hashComponent tables.tree (.lookup name)) :
    (tables.looked hashComponent name).choice = tables.choice := by
  funext key
  refine Option.ext fun strategy => ?_
  rw [choice_eq_some_iff settled,choice_eq_some_iff (looked_settled settled safe)]
  exact exists_congr fun number => and_congr_left fun _ => looked_entryAt settled name key number

private theorem looked_keepsNodes (settled : Settled hashComponent tables.view) (name : Name) :
    tables.KeepsNodes (tables.looked hashComponent name) := by
  intro id entry stored
  have grows : Grows tables.tree (tables.tree.lookup hashComponent name).1 :=
    (lookup_grows hashComponent settled.numbered.linked name).1
  obtain ⟨later,here,named⟩ := grows.stays id entry stored
  have same := congrFun grows.carried id
  rw [carried_of_entry here,carried_of_entry stored] at same
  exact ⟨later,here,named,congrArg Attached.pitEntries same,congrArg Attached.measurementsEntry same⟩

private theorem set_changes {middle : Tables} {name : Name} {id number : Nat} {entry : NameTree.Entry} {old : Strategy}
    (settled : Settled hashComponent tables.view) (after : Settled hashComponent middle.view)
    (stored : middle.tree.entries id = some entry) (named : entry.name = name)
    (present : entry.strategyChoiceEntry = some number) (nodes : tables.KeepsNodes middle)
    (pit : middle.pitInfo = tables.pitInfo) (measurements : middle.measurementsInfo = tables.measurementsInfo)
    (strategies : middle.strategies = tables.strategies)
    (others : ∀ key, key ≠ name → ∀ item, middle.view.EntryAt .strategyChoice key item ↔
      tables.view.EntryAt .strategyChoice key item)
    (oldest : longest tables.choice name = some old) (strategy : Strategy) :
    let changed := middle.changeStrategy hashComponent id name old strategy
    tables.Changes {changed with strategies := Function.update changed.strategies number strategy} name (some strategy) := by
  intro changed
  have single : ∀ item, middle.view.EntryAt .strategyChoice name item ↔ item = number :=
    fun item => choice_single after stored named present
  have view : changed.view = middle.view := changeStrategy_view ..
  have same : changed.strategies = tables.strategies :=
    (congrArg Contents.strategies (changeStrategy_contents middle ..)).trans strategies
  have choice : ({changed with strategies := Function.update changed.strategies number strategy} : Tables).choice =
      Function.update tables.choice name (some strategy) := by
    refine choice_eq_update settled (view ▸ after) ?_ ?_
    · intro other
      change (∃ item, changed.view.EntryAt .strategyChoice name item ∧ Function.update changed.strategies number strategy item = other) ↔ _
      rw [view]
      simp [single]
    · intro key different item
      change (changed.view.EntryAt .strategyChoice key item ↔ _) ∧
        (_ → Function.update changed.strategies number strategy item = _)
      rw [view,same]
      refine ⟨others key different item,?_⟩
      intro here
      refine Function.update_of_ne ?_ ..
      rintro rfl
      exact different (after.numbered.entryAt_name ((others key different item).mpr here) ((single item).mpr rfl))
  refine Changes.of_changed after stored named nodes pit measurements ?_ rfl rfl ?_ choice oldest ?_
  · intro key different
    refine Option.ext fun other => ?_
    rw [choice_eq_some_iff after,choice_eq_some_iff settled,strategies]
    exact exists_congr fun item => and_congr_left fun _ => others key different item
  · intro node other here
    have tree : changed.tree = middle.tree := congrArg View.tree view
    change (∃ later, changed.tree.entries node = some later ∧ _) ∨ _
    rw [tree]
    exact nodes.stay here
  · refine longest_of_chosen ?_
    rw [choice,Function.update_self]

section
variable {name : Name} {strategy : Strategy} {id : Nat} {entry : NameTree.Entry}
  (settled : Settled hashComponent tables.view)
  (safe : NameTree.ResizesSafely hashComponent tables.tree (.lookup name))
  (stored : (tables.tree.lookup hashComponent name).1.entries id = some entry) (named : entry.name = name)
include settled safe stored named

private theorem insert_same {number : Nat} (present : entry.strategyChoiceEntry = some number)
    (same : tables.strategies number = strategy) :
    tables.Changes (tables.looked hashComponent name) name (some strategy) := by
  have after := looked_settled settled safe
  have chosen : tables.choice name = some strategy := by
    rw [← looked_choice settled safe,choice_eq_some_iff after]
    exact ⟨number,(choice_single after stored named present).mpr rfl,same⟩
  have choice : (tables.looked hashComponent name).choice = Function.update tables.choice name (some strategy) := by
    rw [looked_choice settled safe,← chosen,Function.update_eq_self]
  have oldest := longest_of_chosen chosen
  refine ⟨choice,fun _ _ here => (looked_keepsNodes settled name).stay here,strategy,strategy,oldest,?_,
    clearsCovered_self rfl rfl⟩
  rw [looked_choice settled safe]
  exact oldest

theorem insert_new (absent : entry.strategyChoiceEntry = none) {old : Strategy}
    (node : (tables.tree.lookup hashComponent name).2 = some id) (oldest : longest tables.choice name = some old) :
    let entered : Tables := {tables with
      tree := (tables.tree.lookup hashComponent name).1.setStrategyChoiceEntry id (some tables.nextNumber)
      nextNumber := tables.nextNumber + 1
      strategyChoiceNItems := tables.strategyChoiceNItems + 1}
    let changed := entered.changeStrategy hashComponent id name old strategy
    tables.Changes {changed with strategies := Function.update changed.strategies tables.nextNumber strategy} name
      (some strategy) := by
  intro entered
  have grows : Grows tables.tree (tables.tree.lookup hashComponent name).1 :=
    (lookup_grows hashComponent settled.numbered.linked name).1
  have takes : tables.view.Takes (tables.tree.lookup hashComponent name).1 .strategyChoice id (tables.interests 0) := by
    change Kind.strategyChoice.numbers ((tables.tree.lookup hashComponent name).1.carried id) = []
    rw [numbers_strategyChoice,stored,Option.bind_some,absent]
    rfl
  have view : entered.view = tables.view.attach (tables.tree.lookup hashComponent name).1 .strategyChoice id
      (tables.interests 0) := by
    ext kind
    · rfl
    · rfl
    · cases kind <;> rfl
    · rfl
  have entries := modify_entries (tables.tree.lookup hashComponent name).1 id
  have move : Moves hashComponent (NameTree.ResizesSafely hashComponent) (fun _ _ => True) tables.view entered.view := by
    rw [view]
    exact .entered tables.view .strategyChoice name id (tables.interests 0) safe node takes
  have here : entered.tree.entries id = some {entry with strategyChoiceEntry := some tables.nextNumber} := by
    refine (entries id _).trans ?_
    rw [if_pos rfl,stored]
    rfl
  have nodes : tables.KeepsNodes entered := by
    intro other first known
    obtain ⟨second,looked,sameName,samePit,sameMeasurements⟩ := looked_keepsNodes settled name other first known
    by_cases same : other = id
    · rw [same] at looked ⊢
      cases looked.symm.trans stored
      exact ⟨_,here,sameName,samePit,sameMeasurements⟩
    · refine ⟨second,?_,sameName,samePit,sameMeasurements⟩
      refine (entries other _).trans ?_
      rw [if_neg same]
      exact looked
  have others : ∀ key, key ≠ name → ∀ item, entered.view.EntryAt .strategyChoice key item ↔
      tables.view.EntryAt .strategyChoice key item := by
    intro key different item
    rw [view,settled.numbered.entryAt_attach grows stored takes,named]
    simp [different]
  exact set_changes settled (settled.moves move) here named rfl nodes rfl rfl rfl others oldest strategy

end

/-- The specification of the longest prefix match, on trees that are in order. -/
def FindsLongest (hashComponent : Component → UInt64)
    (longestMatch : NameTree → Name → (NameTree.Entry → Bool) → Option Nat) : Prop :=
  ∀ tree, NameTree.Consistent hashComponent tree → ∀ name selector, tree.Longest name selector (longestMatch tree name selector)

section
variable {longestMatch : NameTree → Name → (NameTree.Entry → Bool) → Option Nat}
  (finds : FindsLongest hashComponent longestMatch)
include finds

private theorem findEffectiveStrategy_eq (settled : Settled hashComponent tables.view) (name : Name) :
    tables.findEffectiveStrategy longestMatch name = longest tables.choice name :=
  longest_of_match settled (finds tables.tree settled.consistent name hasChoice)

omit finds in
theorem strategyChoiceInsert_changes (chosen : Chosen hashComponent tables) {name strategyName : Name}
    {strategy : Strategy} (got : tables.getStrategy strategyName = some strategy)
    (safe : NameTree.ResizesSafely hashComponent tables.tree (.lookup name))
    (right : tables.choice name = none →
      (tables.looked hashComponent name).findEffectiveStrategy longestMatch name = longest tables.choice name) :
    ∃ next, tables.strategyChoiceInsert hashComponent longestMatch name strategyName = some next ∧
      tables.Changes next name (some strategy) := by
  have settled := chosen.settled
  have after := looked_settled settled safe
  obtain ⟨grows,id,entry,node,stored,named⟩ := lookup_grows hashComponent settled.numbered.linked name
  change (tables.tree.lookup hashComponent name).2 = some id at node
  change (tables.tree.lookup hashComponent name).1.entries id = some entry at stored
  unfold strategyChoiceInsert
  rw [got]
  dsimp only
  rw [node]
  dsimp only
  rw [stored,Option.bind_some]
  cases present : entry.strategyChoiceEntry with
  | some number =>
    dsimp only
    have here : (tables.looked hashComponent name).view.EntryAt .strategyChoice name number :=
      (choice_single after stored named present).mpr rfl
    split
    · rename_i same
      have equal := chosen.installed.distinct _ (chosen.installed.known number) strategy (getStrategy_mem got) same
      exact ⟨_,rfl,insert_same settled safe stored named present equal⟩
    · refine ⟨_,rfl,set_changes settled after stored named present (looked_keepsNodes settled name) rfl rfl rfl ?_ ?_ strategy⟩
      · exact fun key _ item => looked_entryAt settled name key item
      · refine longest_of_chosen ((choice_eq_some_iff settled name _).mpr ?_)
        exact ⟨number,(looked_entryAt settled name name number).mp here,rfl⟩
  | none =>
    obtain ⟨old,oldest⟩ := Option.isSome_iff_exists.mp (chosen.longest_isSome name)
    have unchosen : tables.choice name = none := by
      have same := choice_of_entry after stored
      rw [looked_choice settled safe,named] at same
      rw [same]
      unfold strategyOf
      rw [show (tables.looked hashComponent name).tree.entries id = some entry from stored,Option.bind_some,present]
      rfl
    have effective : (tables.looked hashComponent name).findEffectiveStrategy longestMatch name = some old := by
      rw [right unchosen,oldest]
    dsimp only
    change ∃ next, ((tables.looked hashComponent name).findEffectiveStrategy longestMatch name).map _ = some next ∧ _
    rw [effective]
    exact ⟨_,rfl,insert_new settled safe stored named present node oldest⟩

/-! An erasure. -/

omit finds in
private theorem erase_nothing (chosen : Chosen hashComponent tables) {name : Name} (unchosen : tables.choice name = none) :
    tables.Changes tables name none := by
  obtain ⟨old,oldest⟩ := Option.isSome_iff_exists.mp (chosen.longest_isSome name)
  refine ⟨?_,fun id entry stored => Or.inl ⟨entry,stored,rfl⟩,old,old,oldest,oldest,clearsCovered_self rfl rfl⟩
  rw [← unchosen,Function.update_eq_self]

omit finds in
private theorem erase_changed (settled : Settled hashComponent tables.view) {id number : Nat} {entry : NameTree.Entry}
    (stored : tables.tree.entries id = some entry) (present : entry.strategyChoiceEntry = some number)
    (below : entry.name ≠ [])
    (safe : NameTree.ResizesSafely hashComponent (tables.tree.setStrategyChoiceEntry id none) (.eraseEntryIfEmpty id))
    {parent : Strategy} (effective : longest tables.choice entry.name.dropLast = some parent) :
    let changed := tables.changeStrategy hashComponent id entry.name (tables.strategies number) parent
    tables.Changes {changed with
      tree := ((changed.tree.setStrategyChoiceEntry id none).eraseEntryIfEmpty id).2
      strategyChoiceNItems := decrement changed.strategyChoiceNItems} entry.name none := by
  intro changed
  let next : Tables := {changed with
    tree := ((changed.tree.setStrategyChoiceEntry id none).eraseEntryIfEmpty id).2
    strategyChoiceNItems := decrement changed.strategyChoiceNItems}
  have numbered := settled.numbered
  have kept : changed.view = tables.view := changeStrategy_view ..
  have same : next.strategies = tables.strategies :=
    congrArg Contents.strategies (changeStrategy_contents tables id entry.name (tables.strategies number) parent)
  have view : next.view = tables.view.detach .strategyChoice number id := by
    rw [← kept]
    ext kind
    · rfl
    · rfl
    · cases kind <;> rfl
    · rfl
  have here : tables.view.EntryAt .strategyChoice entry.name number := (choice_single settled stored rfl present).mpr rfl
  have held : number ∈ Kind.strategyChoice.numbers (tables.tree.carried id) := by
    rw [carried_of_entry stored]
    exact Option.mem_toList.mpr present
  have lower : Kind.strategyChoice = .strategyChoice → ∀ other, tables.tree.entries id = some other → other.name ≠ [] := by
    intro _ other known
    cases stored.symm.trans known
    exact below
  have after : Settled hashComponent next.view := by
    have move : Moves hashComponent (NameTree.ResizesSafely hashComponent) (fun _ _ => True) tables.view _ :=
      .detached tables.view .strategyChoice number id held lower safe
    rw [view]
    exact settled.moves move
  have attached : ∀ key item, next.view.EntryAt .strategyChoice key item ↔
      tables.view.EntryAt .strategyChoice key item ∧ item ≠ number := by
    intro key item
    rw [view,numbered.entryAt_detach held lower]
    simp
  have choice : next.choice = Function.update tables.choice entry.name none := by
    refine choice_eq_update settled after ?_ ?_
    · intro strategy
      refine iff_of_false ?_ (by simp)
      rintro ⟨item,there,-⟩
      obtain ⟨before,other⟩ := (attached entry.name item).mp there
      exact other ((choice_single settled stored rfl present).mp before)
    · intro key different item
      refine ⟨?_,fun _ => congrFun same item⟩
      rw [attached,and_iff_left_iff_imp]
      rintro before rfl
      exact different (numbered.entryAt_name before here)
  refine Changes.of_changed settled stored rfl (fun _ other known => ⟨other,known,rfl,rfl,rfl⟩) rfl rfl (fun _ _ => rfl)
    rfl rfl ?_ choice ?_ ?_
  · intro node other known
    cases remains : next.tree.entries node with
    | some later =>
      have shift : Shifts tables.view next.view := view ▸ .detached tables.view .strategyChoice number id held lower
      exact Or.inl ⟨later,rfl,View.shifts_names numbered.linked shift known remains⟩
    | none =>
      -- A node is erased with nothing attached to it.
      have bare : ∀ kind item, kind ≠ .strategyChoice → item ∉ Kind.numbers kind (tables.tree.carried node) := by
        intro kind item different inside
        have still := (numbered.mem_detach held kind node item).mpr ⟨inside,fun equal => different equal.1⟩
        rw [← view] at still
        obtain ⟨later,there⟩ := entry_of_numbers still
        cases remains.symm.trans there
      rw [carried_of_entry known] at bare
      refine Or.inr ⟨List.eq_nil_iff_forall_not_mem.mpr fun item => bare .pit item (by decide),?_⟩
      refine Option.eq_none_iff_forall_ne_some.mpr fun item attached => ?_
      exact bare .measurements item (by decide) (Option.mem_toList.mpr attached)
  · exact longest_of_chosen ((choice_eq_some_iff settled entry.name _).mpr ⟨number,here,rfl⟩)
  · change longest next.choice entry.name = some parent
    rw [choice,(covers_self entry.name).longest_update,Option.none_or,if_neg below]
    exact effective

omit finds in
theorem strategyChoiceErase_changes (chosen : Chosen hashComponent tables) {name : Name} (below : name ≠ [])
    (safe : tables.ResizesSafely hashComponent (.strategyChoiceErase name))
    (right : tables.choice name ≠ none →
      tables.findEffectiveStrategy longestMatch name.dropLast = longest tables.choice name.dropLast) :
    ∃ next, tables.strategyChoiceErase hashComponent longestMatch name = some next ∧ tables.Changes next name none := by
  have settled := chosen.settled
  have consistent : NameTree.Consistent hashComponent tables.tree := settled.consistent
  have nothing : tables.choice name = none → ∃ next, some tables = some next ∧ tables.Changes next name none :=
    fun unchosen => ⟨tables,rfl,erase_nothing chosen unchosen⟩
  unfold strategyChoiceErase
  rw [if_neg below]
  cases found : tables.tree.findExactMatch hashComponent name with
  | none =>
    refine nothing ((choice_eq_none_iff settled name).mpr ?_)
    rintro number ⟨id,entry,stored,named,-⟩
    rw [(consistent.findExactMatch_iff name id).mpr ⟨entry,stored,named⟩] at found
    cases found
  | some id =>
    obtain ⟨entry,stored,rfl⟩ := (consistent.findExactMatch_iff name id).mp found
    dsimp only
    rw [stored,Option.bind_some]
    cases present : entry.strategyChoiceEntry with
    | none =>
      refine nothing ?_
      rw [choice_of_entry settled stored]
      unfold strategyOf
      rw [stored,Option.bind_some,present]
      rfl
    | some number =>
      obtain ⟨parent,effective⟩ := Option.isSome_iff_exists.mp (chosen.longest_isSome entry.name.dropLast)
      have here : tables.choice entry.name = some (tables.strategies number) :=
        (choice_eq_some_iff settled entry.name _).mpr ⟨number,(choice_single settled stored rfl present).mpr rfl,rfl⟩
      dsimp only
      rw [right (by rw [here]; exact nofun),effective]
      exact ⟨_,rfl,erase_changed settled stored present below (safe id found) effective⟩

end

end

/-! Runs. -/

/-- The root has a choice, and the effective strategy of every node, of every entry attached to
one and of every name is that of the longest prefix with a choice. -/
structure Effective (longestMatch : NameTree → Name → (NameTree.Entry → Bool) → Option Nat) (tables : Tables) : Prop where
  root : (tables.choice []).isSome
  defined : ∀ name, (longest tables.choice name).isSome
  name : ∀ name, tables.findEffectiveStrategy longestMatch name = longest tables.choice name
  node : ∀ id entry, tables.tree.entries id = some entry → tables.effectiveStrategy id = longest tables.choice entry.name
  pit : ∀ id entry, tables.tree.entries id = some entry → ∀ number ∈ entry.pitEntries,
    (tables.pitNode number).bind tables.effectiveStrategy = longest tables.choice entry.name
  measurements : ∀ id entry, tables.tree.entries id = some entry → ∀ number, entry.measurementsEntry = some number →
    (tables.measurementsNode number).bind tables.effectiveStrategy = longest tables.choice entry.name

/-- An insertion changes the choice of its name if the strategy is installed, an erasure removes
it; the StrategyInfo cleared is that of the nodes whose effective strategy changes. -/
def ChangesChoice (hashComponent : Component → UInt64)
    (longestMatch : NameTree → Name → (NameTree.Entry → Bool) → Option Nat) (tables : Tables) : Operation → Prop
  | .strategyChoiceInsert name strategyName =>
    ∃ next, tables.strategyChoiceInsert hashComponent longestMatch name strategyName = some next ∧
      next.choice = ((tables.getStrategy strategyName).elim tables.choice fun strategy =>
        Function.update tables.choice name (some strategy)) ∧ tables.ClearsChanged next
  | .strategyChoiceErase name => name ≠ [] →
    ∃ next, tables.strategyChoiceErase hashComponent longestMatch name = some next ∧
      next.choice = Function.update tables.choice name none ∧ tables.ClearsChanged next
  | _ => True

section
variable {hashComponent : Component → UInt64} {longestMatch : NameTree → Name → (NameTree.Entry → Bool) → Option Nat}
  {tables : Tables} (finds : FindsLongest hashComponent longestMatch)
include finds

theorem Chosen.effective (chosen : Chosen hashComponent tables) : tables.Effective longestMatch := by
  have settled := chosen.settled
  refine ⟨chosen.longest_isSome [],chosen.longest_isSome,findEffectiveStrategy_eq finds settled,
    fun id entry => effectiveStrategy_eq settled,?_,?_⟩
  · intro id entry stored number inside
    have held : number ∈ Kind.pit.numbers (tables.tree.carried id) := by
      rw [carried_of_entry stored]
      exact inside
    have found : tables.pitNode number = some id := holder_eq settled.numbered (fun _ => decide_eq_true_iff) held
    rw [found]
    exact effectiveStrategy_eq settled stored
  · intro id entry stored number attached
    have held : number ∈ Kind.measurements.numbers (tables.tree.carried id) := by
      rw [carried_of_entry stored]
      exact Option.mem_toList.mpr attached
    have found : tables.measurementsNode number = some id :=
      holder_eq settled.numbered (fun _ => decide_eq_true_iff.trans Option.mem_toList.symm) held
    rw [found]
    exact effectiveStrategy_eq settled stored

theorem Chosen.changesChoice (chosen : Chosen hashComponent tables) {operation : Operation}
    (safe : tables.ResizesSafely hashComponent operation) : tables.ChangesChoice hashComponent longestMatch operation := by
  cases operation with
  | strategyChoiceInsert name strategyName =>
    cases got : tables.getStrategy strategyName with
    | none =>
      refine ⟨tables,?_,?_,?_⟩
      · unfold strategyChoiceInsert
        rw [got]
      · rw [got]
        rfl
      · exact fun id entry stored => ⟨fun different => absurd rfl different,fun _ => ⟨fun _ _ => rfl,fun _ _ => rfl⟩⟩
    | some strategy =>
      have looks := safe (Option.isSome_of_eq_some got)
      have right := findEffectiveStrategy_eq finds (looked_settled chosen.settled looks) name
      rw [looked_choice chosen.settled looks] at right
      obtain ⟨next,taken,changes⟩ := strategyChoiceInsert_changes chosen got looks fun _ => right
      refine ⟨next,taken,?_,changes.clearsChanged chosen.settled (step_settled longestMatch chosen.settled safe taken)⟩
      rw [got]
      exact changes.choice
  | strategyChoiceErase name =>
    intro below
    have right := findEffectiveStrategy_eq finds chosen.settled name.dropLast
    obtain ⟨next,taken,changes⟩ := strategyChoiceErase_changes chosen below safe fun _ => right
    exact ⟨next,taken,changes.choice,changes.clearsChanged chosen.settled (step_settled longestMatch chosen.settled safe taken)⟩
  | _ => trivial

end

def longestOfAll (tree : NameTree) (name : Name) (selector : NameTree.Entry → Bool) : Option Nat :=
  ((List.range tree.nextEntry).filter (tree.selects fun entry => entry.name.isPrefixOf name ∧ selector entry)).maxOn?
    fun id => ((tree.entries id).map fun entry => entry.name.length).getD 0

private theorem longestOfAll_finds (hashComponent : Component → UInt64) : FindsLongest hashComponent longestOfAll := by
  intro tree consistent name selector
  have candidates : ∀ id entry, tree.entries id = some entry →
      (id ∈ (List.range tree.nextEntry).filter (tree.selects fun entry => entry.name.isPrefixOf name ∧ selector entry) ↔
        tree.Candidate name selector id entry) := by
    intro id entry stored
    have bound := consistent.names.fresh id entry.key (keys_of_entry stored)
    simp [Candidate,NameTree.selects,stored,bound]
  cases found : longestOfAll tree name selector with
  | none =>
    intro id entry candidate
    have inside := (candidates id entry candidate.1).mpr candidate
    rw [Option.eq_none_iff_forall_ne_some] at found
    exact absurd (Option.some_get (List.isSome_maxOn?_of_mem inside)).symm (found _)
  | some id =>
    have inside := List.maxOn?_mem found
    obtain ⟨entry,stored⟩ : ∃ entry, tree.entries id = some entry := by
      have selected := (List.mem_filter.mp inside).2
      unfold NameTree.selects at selected
      obtain ⟨entry,stored,-⟩ := (Option.any_eq_true _ _).mp selected
      exact ⟨entry,stored⟩
    refine ⟨entry,(candidates id entry stored).mp inside,?_⟩
    intro other otherEntry rival
    have best := List.le_apply_get_maxOn?_of_mem (f := fun id => ((tree.entries id).map fun entry => entry.name.length).getD 0)
      ((candidates other otherEntry rival.1).mpr rival)
    have longest := Option.get_of_eq_some (Option.isSome_of_eq_some found) found
    unfold longestOfAll at longest
    rw [longest,stored,rival.1] at best
    exact best

def choosesStrategy : List Operation :=
  [.install ⟨[[8,1,0x54]],1⟩,.measurementsGet [[8,1,0x41]],.setMeasurementsInfo 1 [3],
    .strategyChoiceInsert [[8,1,0x41]] [[8,1,0x54]],.strategyChoiceErase [[8,1,0x41]]]

end Tables

end Ncfcc.Nfd.Table
