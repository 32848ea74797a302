import Ncfcc.Nfd.Table.EntryNumbers
import Ncfcc.Nfd.Table.PitSearch

/-! The PIT entries that Data match. They are collected on the way up from the node that the
longest prefix match finds for the Data's name, which never is the node of a full name. The
name tree goes by hashes of whole TLVs, and Interests match by the octets of components. -/
namespace Ncfcc.Nfd.Table
open Ncfcc.Library NameTree

/-! Where the Interests of the PIT come from. -/

def Tables.Operation.names : Tables.Operation → List Name
  | .fibInsert name | .fibErase name | .measurementsGet name | .strategyChoiceErase name => [name]
  | .pitInsert interest => [interest.name]
  | .install strategy => [strategy.name]
  | .strategyChoiceInsert name strategyName => [name,strategyName]
  | .find query =>
    match query with
    | .fibLongest name | .fibExact name | .measurementsLongest name _ | .measurementsExact name | .strategyChoiceGet name
    | .effectiveStrategy name => [name]
    | .pitAllDataMatches data => [data.fullName]
    | _ => []
  | _ => []

namespace Tables

private theorem foldl_interests {α : Type} {change : Tables → α → Tables}
    (kept : ∀ tables item, (change tables item).interests = tables.interests) (items : List α) (tables : Tables) :
    (items.foldl change tables).interests = tables.interests := by
  induction items generalizing tables with
  | nil => rfl
  | cons item items ih => exact (ih _).trans (kept tables item)

section
variable {hashComponent : Component → UInt64} {longestMatch : NameTree → Name → (NameTree.Entry → Bool) → Option Nat}
  {tables next : Tables}

private theorem changeStrategy_interests (root : Nat) (name : Name) (oldStrategy newStrategy : Strategy) :
    (tables.changeStrategy hashComponent root name oldStrategy newStrategy).interests = tables.interests := by
  unfold changeStrategy
  split
  · rfl
  · refine foldl_interests (fun state id => ?_) _ tables
    unfold clearStrategyInfo
    split <;> rfl

private theorem measurementsGetNode_interests (id : Nat) : (tables.measurementsGetNode id).interests = tables.interests := by
  unfold measurementsGetNode
  split <;> rfl

private theorem fibEraseEntry_interests (fibEntry : Nat) : (tables.fibEraseEntry fibEntry).interests = tables.interests := by
  unfold fibEraseEntry
  split <;> rfl

private theorem strategyChoiceInsert_interests {name strategyName : Name}
    (taken : tables.strategyChoiceInsert hashComponent longestMatch name strategyName = some next) :
    next.interests = tables.interests := by
  unfold strategyChoiceInsert at taken
  split at taken
  · cases taken
    rfl
  · dsimp only at taken
    split at taken
    · cases taken
      rfl
    · split at taken
      · split at taken
        · cases taken
          rfl
        · cases taken
          exact changeStrategy_interests ..
      · obtain ⟨oldStrategy,-,rfl⟩ := Option.map_eq_some_iff.mp taken
        exact changeStrategy_interests ..

private theorem strategyChoiceErase_interests {name : Name}
    (taken : tables.strategyChoiceErase hashComponent longestMatch name = some next) : next.interests = tables.interests := by
  unfold strategyChoiceErase at taken
  split at taken
  · cases taken
  · split at taken
    · cases taken
      rfl
    · split at taken
      · cases taken
        rfl
      · obtain ⟨parentStrategy,-,rfl⟩ := Option.map_eq_some_iff.mp taken
        exact changeStrategy_interests ..

/-- Interests come from insertions into the PIT. -/
theorem step_interests {operation : Operation} (taken : tables.step hashComponent longestMatch operation = some next)
    (number : Nat) : next.interests number = tables.interests number ∨ operation = .pitInsert (next.interests number) := by
  have kept : next.interests = tables.interests → next.interests number = tables.interests number ∨
      operation = .pitInsert (next.interests number) := fun same => Or.inl (congrFun same number)
  cases operation with
  | pitInsert interest =>
    cases taken
    unfold pitInsert
    dsimp only
    split
    · exact Or.inl rfl
    · split
      · exact Or.inl rfl
      · by_cases new : number = tables.nextNumber
        · have placed : Function.update tables.interests tables.nextNumber interest number = interest := by
            rw [new,Function.update_self]
          exact Or.inr (congrArg Operation.pitInsert placed.symm)
        · exact Or.inl (Function.update_of_ne new ..)
  | fibInsert name =>
    cases taken
    refine kept ?_
    unfold fibInsert
    dsimp only
    split
    · rfl
    · split <;> rfl
  | fibErase name =>
    cases taken
    refine kept ?_
    unfold fibErase
    split <;> rfl
  | fibEraseEntry fibEntry =>
    cases taken
    exact kept (fibEraseEntry_interests fibEntry)
  | removeNextHopFromAllEntries face =>
    cases taken
    refine kept ((foldl_interests (fun _ _ => fibEraseEntry_interests _) _ _).trans ?_)
    exact foldl_interests (fun state fibEntry => (rfl : (state.removeNextHop fibEntry face).interests = state.interests)) _ _
  | pitErase pitEntry =>
    obtain ⟨id,-,rfl⟩ := Option.map_eq_some_iff.mp taken
    exact kept rfl
  | measurementsGet name =>
    cases taken
    refine kept ?_
    unfold measurementsGet
    dsimp only
    split
    · rfl
    · exact measurementsGetNode_interests _
  | measurementsGetOfFib fibEntry =>
    obtain ⟨id,-,rfl⟩ := Option.map_eq_some_iff.mp taken
    exact kept (measurementsGetNode_interests id)
  | measurementsGetOfPit pitEntry =>
    obtain ⟨id,-,rfl⟩ := Option.map_eq_some_iff.mp taken
    exact kept (measurementsGetNode_interests id)
  | measurementsGetParent child =>
    obtain ⟨id,-,there⟩ := Option.bind_eq_some_iff.mp taken
    obtain ⟨entry,-,there⟩ := Option.bind_eq_some_iff.mp there
    split at there
    · cases there
      exact kept rfl
    · obtain ⟨parent,-,rfl⟩ := Option.map_eq_some_iff.mp there
      exact kept (measurementsGetNode_interests parent)
  | extendLifetime measurementsEntry lifetime =>
    cases taken
    refine kept ?_
    unfold extendLifetime
    split
    · rfl
    · dsimp only
      split <;> rfl
  | cleanup =>
    simp only [step] at taken
    split at taken
    · cases taken
      exact kept rfl
    · cases taken
      refine kept ?_
      unfold cleanup
      split <;> rfl
  | install strategy =>
    cases taken
    refine kept ?_
    unfold install
    split <;> rfl
  | strategyChoiceInsert name strategyName => exact kept (strategyChoiceInsert_interests taken)
  | strategyChoiceErase name => exact kept (strategyChoiceErase_interests taken)
  | find query =>
    obtain ⟨⟨found,entries⟩,there,rfl⟩ := Option.map_eq_some_iff.mp taken
    refine kept ?_
    cases query with
    | measurementsExact name =>
      cases there
      rfl
    | fibLongestOfPit pitEntry | fibLongestOfMeasurements measurementsEntry
    | effectiveStrategyOfPit pitEntry | effectiveStrategyOfMeasurements measurementsEntry =>
      obtain ⟨entries,-,same⟩ := Option.map_eq_some_iff.mp there
      cases same
      rfl
    | _ =>
      cases there
      rfl
  | _ =>
    cases taken
    exact kept rfl

def Named (names : List Name) (tables : Tables) : Prop := ∀ number, (tables.interests number).name ∈ names

def namesUsed (defaultStrategy : Strategy) (operations : List Operation) : List Name :=
  [] :: defaultStrategy.name :: operations.flatMap Operation.names

private theorem named_run {nBuckets : Nat} {now : Int} {defaultStrategy : Strategy} {operations : List Operation} {final : Tables}
    (reached : run (attempt (step hashComponent longestMatch)) (some (new hashComponent nBuckets now defaultStrategy))
      operations = some final) : final.Named (namesUsed defaultStrategy operations) := by
  refine attempt_history (P := fun tables taken => tables.Named (namesUsed defaultStrategy taken)) ?_ ?_ reached
  · intro before past operation after named stepped number
    have grown : namesUsed defaultStrategy (past ++ [operation]) = namesUsed defaultStrategy past ++ operation.names := by
      simp [namesUsed]
    rw [grown]
    rcases step_interests stepped number with same | rfl
    · rw [same]
      exact List.mem_append_left _ (named number)
    · exact List.mem_append_right _ (List.mem_singleton_self _)
  · intro number
    exact List.mem_cons_self

end

end Tables

/-- A PIT entry is at the node of its name, alone with its selectors. -/
structure Filed (view : View) : Prop where
  numbered : view.Numbered
  named : ∀ id entry number, view.tree.entries id = some entry → number ∈ Kind.pit.numbers (view.tree.carried id) →
    (view.interests number).name = entry.name
  single : ∀ id first second, first ∈ Kind.pit.numbers (view.tree.carried id) →
    second ∈ Kind.pit.numbers (view.tree.carried id) →
    (view.interests first).selectors = (view.interests second).selectors → first = second

section
variable {view next : View}

/-- The Interests of attached entries are not touched by a new one. -/
theorem View.attach_interests (numbered : view.Numbered) (tree : NameTree) (kind : Kind) (id : Nat) (interest : Interest)
    {node number : Nat} (held : number ∈ Kind.pit.numbers (view.tree.carried node)) :
    (view.attach tree kind id interest).interests number = view.interests number := by
  have different := Nat.ne_of_lt (numbered.given .pit node number held)
  unfold View.attach
  dsimp only
  split
  · exact Function.update_of_ne different ..
  · rfl

theorem Filed.of_prunes (filed : Filed view) (prunes : Prunes view.tree next.tree)
    (numbers : next.nextNumber = view.nextNumber) (interests : next.interests = view.interests) : Filed next := by
  refine ⟨filed.numbered.of_prunes prunes numbers,?_,?_⟩
  · intro id later number stored held
    obtain ⟨entry,was,same⟩ := prunes.stays id later stored
    rw [prunes.carried] at held
    rw [interests,same]
    exact filed.named id entry number was held
  · rw [prunes.carried,interests]
    exact filed.single

theorem Filed.shifts (filed : Filed view) (shift : Shifts view next) : Filed next := by
  have numbered := filed.numbered
  have names := @View.shifts_names view next numbered.linked shift
  -- An entry that was attached has the name of its node still.
  have old : ∀ id after number, next.tree.entries id = some after → number ∈ Kind.pit.numbers (view.tree.carried id) →
      (view.interests number).name = after.name := by
    intro id after number stored held
    obtain ⟨before,was⟩ := Tables.entry_of_numbers held
    rw [names was stored]
    exact filed.named id before number was held
  refine ⟨numbered.shifts shift,?_,?_⟩
  · intro id after number stored held
    cases shift with
    | grown tree grows =>
      rw [grows.carried] at held
      exact old id after number stored held
    | attached tree kind node interest entry grows there takes =>
      rcases (View.mem_attach grows there takes .pit id number).mp held with earlier | ⟨rfl,rfl,rfl⟩
      · rw [View.attach_interests numbered tree kind node interest earlier]
        exact old id after number stored earlier
      · rw [View.Takes,if_pos rfl] at takes
        change (tree.alter id _).entries id = some after at stored
        rw [alter_entries,if_pos rfl,there] at stored
        cases stored
        refine Eq.trans ?_ (takes.1 entry there).symm
        exact congrArg Interest.name (Function.update_self ..)
    | detached kind item node there below =>
      exact old id after number stored ((numbered.mem_detach there .pit id number).mp held).1
  · intro id first second left right same
    cases shift with
    | grown tree grows =>
      rw [grows.carried] at left right
      exact filed.single id first second left right same
    | attached tree kind node interest entry grows there takes =>
      have kept := @View.attach_interests view numbered tree kind node interest
      -- A new entry differs in its selectors from the others of the node, which have its name.
      have apart : ∀ number, number ∈ Kind.pit.numbers (view.tree.carried node) → kind = .pit →
          ((view.attach tree kind node interest).interests number).selectors ≠
            ((view.attach tree kind node interest).interests view.nextNumber).selectors := by
        rintro number held rfl equal
        rw [View.Takes,if_pos rfl,grows.carried] at takes
        have placed : (view.attach tree .pit node interest).interests view.nextNumber = interest := Function.update_self ..
        rw [kept held,placed] at equal
        have named := old node _ number (by
          change (tree.alter node _).entries node = _
          rw [alter_entries,if_pos rfl,there]
          rfl) held
        exact takes.2 number held ⟨named.trans (takes.1 entry there),equal⟩
      rcases (View.mem_attach grows there takes .pit id first).mp left with one | ⟨isPit,rfl,rfl⟩
      · rcases (View.mem_attach grows there takes .pit id second).mp right with two | ⟨isPit,rfl,rfl⟩
        · rw [kept one,kept two] at same
          exact filed.single id first second one two same
        · exact absurd same (apart first one isPit.symm)
      · rcases (View.mem_attach grows there takes .pit id second).mp right with two | ⟨-,-,rfl⟩
        · exact absurd same.symm (apart second two isPit.symm)
        · rfl
    | detached kind item node there below =>
      exact filed.single id first second ((numbered.mem_detach there .pit id first).mp left).1
        ((numbered.mem_detach there .pit id second).mp right).1 same

end

namespace Tables

section
variable (hashComponent : Component → UInt64)
  (longestMatch : NameTree → Name → (NameTree.Entry → Bool) → Option Nat)

theorem new_filed (nBuckets : Nat) (now : Int) (defaultStrategy : Strategy) :
    Filed (new hashComponent nBuckets now defaultStrategy).view := by
  have move : Moves hashComponent (fun _ _ => True) (fun _ _ => True) _ _ := new_moves nBuckets now defaultStrategy trivial
  have start : Filed (View.initial nBuckets) := by
    refine ⟨View.initial_numbered nBuckets,?_,?_⟩
    · intro id entry number stored
      cases stored
    · intro id first second held
      cases held
  exact start.shifts (move.shifts start.numbered.linked)

theorem step_filed {tables next : Tables} {operation : Operation} (filed : Filed tables.view)
    (taken : tables.step hashComponent longestMatch operation = some next) : Filed next.view := by
  refine step_invariant (fun _ holds => holds.numbered) ?_ (fun _ _ _ _ => trivial) longestMatch ?_ filed
    (tables.allows_true hashComponent operation) taken
  · intro view next holds move
    exact holds.shifts (move.shifts holds.numbered.linked)
  · rintro id ⟨name,-,-,free⟩
    exact filed.of_prunes (View.lost_prunes filed.numbered.linked free) rfl rfl

end

def PitAt (tables : Tables) (name : Name) (number : Nat) : Prop :=
  ∃ id entry, tables.tree.entries id = some entry ∧ entry.name = name ∧ number ∈ entry.pitEntries

def OnePerInterest (tables : Tables) : Prop :=
  ∀ name other first second, tables.PitAt name first → tables.PitAt other second →
    octets (tables.interests first).name = octets (tables.interests second).name →
    (tables.interests first).selectors = (tables.interests second).selectors → first = second

/-- The entries found for Data are those that match, each once. -/
def FindsMatches (hashComponent : Component → UInt64) (tables : Tables) (data : Data) : Prop :=
  (tables.findAllDataMatches hashComponent data).Nodup ∧ ∀ number, number ∈ tables.findAllDataMatches hashComponent data ↔
    (∃ name, tables.PitAt name number) ∧ (tables.interests number).matchesData data = true

/-- The name of a matching entry is no full name, and at the longest prefix of the Data's name
with the hash of a node that has PIT entries, no such node has a shorter name. -/
def Unshadowed (hashComponent : Component → UInt64) (tables : Tables) (data : Data) : Prop :=
  ∀ name number, tables.PitAt name number → (tables.interests number).matchesData data = true →
    name.length ≤ data.name.length ∧ ∀ level ≤ data.name.length,
      (∀ higher ≤ data.name.length, level < higher → ∀ id entry,
        tables.tree.Candidate data.name (fun entry => !entry.pitEntries.isEmpty) id entry →
        entry.hash ≠ computeHash hashComponent (data.name.getPrefix higher)) →
      ∀ id entry, tables.tree.Candidate data.name (fun entry => !entry.pitEntries.isEmpty) id entry →
        entry.hash = computeHash hashComponent (data.name.getPrefix level) → name.length ≤ entry.name.length

section
variable {hashComponent : Component → UInt64} {tables : Tables} {data : Data}

/-- Where the longest prefix match finds a node, the matching entries of that node and of the
nodes above are collected. -/
theorem mem_findAllDataMatches (consistent : NameTree.Consistent hashComponent tables.tree) (numbered : tables.view.Numbered)
    {id : Nat} {entry : NameTree.Entry}
    (found : tables.tree.findLongestPrefixMatch hashComponent data.name (fun entry => !entry.pitEntries.isEmpty) = some id)
    (stored : tables.tree.entries id = some entry) (inside : entry.name <+: data.name) :
    (tables.findAllDataMatches hashComponent data).Nodup ∧
      ∀ number, number ∈ tables.findAllDataMatches hashComponent data ↔
        ∃ name, tables.PitAt name number ∧ name <+: entry.name ∧ (tables.interests number).matchesData data = true := by
  obtain ⟨once,nodes⟩ := consistent.upwards_spec (fun entry => !entry.pitEntries.isEmpty) (data.name.length + 1) id entry
    stored (Nat.lt_succ_of_le inside.length_le)
  have numbers := numbers_pit tables.tree
  unfold findAllDataMatches NameTree.findAllMatches
  rw [found]
  constructor
  · refine List.nodup_flatMap.mpr ⟨?_,?_⟩
    · intro node _
      rw [← numbers]
      exact (numbered.nodup .pit node).filter _
    · refine once.imp ?_
      intro node other apart
      rw [Function.onFun,List.disjoint_left]
      intro number here there
      rw [← numbers,List.mem_filter] at here there
      exact apart (numbered.once .pit node other number here.1 there.1)
  · intro number
    rw [List.mem_flatMap]
    constructor
    · rintro ⟨node,met,collected⟩
      obtain ⟨above,known,shorter,-⟩ := (nodes node).mp met
      rw [known,List.mem_filter] at collected
      exact ⟨above.name,⟨node,above,known,rfl,collected.1⟩,shorter,collected.2⟩
    · rintro ⟨name,⟨node,above,known,rfl,held⟩,shorter,matching⟩
      refine ⟨node,(nodes node).mpr ⟨above,known,shorter,?_⟩,?_⟩
      · simpa using List.ne_nil_of_mem held
      · rw [known,List.mem_filter]
        exact ⟨held,matching⟩

theorem mem_numbers_pit {tree : NameTree} {id : Nat} {entry : NameTree.Entry} (stored : tree.entries id = some entry)
    (number : Nat) : number ∈ Kind.pit.numbers (tree.carried id) ↔ number ∈ entry.pitEntries := by
  rw [carried_of_entry stored]
  rfl

theorem pitAt_unique (numbered : tables.view.Numbered) {name other : Name} {number : Nat}
    (here : tables.PitAt name number) (there : tables.PitAt other number) : name = other := by
  obtain ⟨id,entry,stored,rfl,held⟩ := here
  obtain ⟨node,found,known,rfl,again⟩ := there
  have same := numbered.once .pit id node number ((mem_numbers_pit stored number).mpr held)
    ((mem_numbers_pit known number).mpr again)
  rw [same,known] at stored
  cases stored
  rfl

/-- A matching entry is at a prefix of the Data's name or at their full name. -/
theorem name_of_matching (filed : Filed tables.view) {names : List Name} (named : tables.Named names)
    (apart : ToldApart (data.fullName :: names)) {name : Name} {number : Nat} (attached : tables.PitAt name number)
    (matching : (tables.interests number).matchesData data = true) : name <+: data.name ∨ name = data.fullName := by
  obtain ⟨id,entry,stored,rfl,held⟩ := attached
  have placed : (tables.interests number).name = entry.name :=
    filed.named id entry number stored ((mem_numbers_pit stored number).mpr held)
  rw [← placed]
  exact Interest.name_of_matchesData apart (List.mem_cons_of_mem _ (named number)) List.prefix_rfl List.mem_cons_self matching

private theorem findsMatches_iff (consistent : NameTree.Consistent hashComponent tables.tree) (filed : Filed tables.view)
    {names : List Name} (named : tables.Named names) (data : Data) (apart : ToldApart (data.fullName :: names)) :
    tables.FindsMatches hashComponent data ↔ tables.Unshadowed hashComponent data := by
  have long : ∀ name : Name, name = data.fullName → ¬ name.length ≤ data.name.length := by
    rintro name rfl bound
    simp [Data.fullName] at bound
  rcases consistent.findLongestPrefixMatch_cases data.name (fun entry => !entry.pitEntries.isEmpty) with
    ⟨missing,without⟩ | ⟨level,bound,id,entry,found,candidate,hashed,first,highest⟩
  · have nothing : tables.findAllDataMatches hashComponent data = [] := by
      unfold findAllDataMatches NameTree.findAllMatches
      rw [missing]
      rfl
    have full : ∀ name number, tables.PitAt name number → (tables.interests number).matchesData data = true →
        name = data.fullName := by
      rintro name number ⟨id,entry,stored,rfl,held⟩ matching
      refine (name_of_matching filed named apart ⟨id,entry,stored,rfl,held⟩ matching).resolve_left fun inside => ?_
      refine without id entry ⟨stored,inside,?_⟩
      simpa using List.ne_nil_of_mem held
    unfold FindsMatches
    rw [nothing]
    constructor
    · rintro ⟨-,exact⟩ name number attached matching
      cases (exact number).mpr ⟨⟨name,attached⟩,matching⟩
    · intro unshadowed
      refine ⟨List.nodup_nil,?_⟩
      intro number
      constructor
      · intro inside
        cases inside
      · rintro ⟨⟨name,attached⟩,matching⟩
        exact absurd (unshadowed name number attached matching).1 (long name (full name number attached matching))
  · obtain ⟨nodup,members⟩ := mem_findAllDataMatches consistent filed.numbered found candidate.1 candidate.2.1
    constructor
    · rintro ⟨-,exact⟩ name number attached matching
      obtain ⟨other,there,shorter,-⟩ := (members number).mp ((exact number).mpr ⟨⟨name,attached⟩,matching⟩)
      rw [pitAt_unique filed.numbered there attached] at shorter
      refine ⟨(shorter.trans candidate.2.1).length_le,?_⟩
      intro top inside above rival rivalEntry competitor rivalHashed
      rw [level_eq bound candidate hashed highest inside above competitor rivalHashed] at rivalHashed
      refine shorter.length_le.trans ?_
      by_contra less
      have under := List.prefix_of_prefix_length_le competitor.2.1 candidate.2.1 (by omega)
      exact less (Nat.le_of_eq (congrArg List.length (first rival rivalEntry competitor rivalHashed under)).symm)
    · intro unshadowed
      refine ⟨nodup,?_⟩
      intro number
      rw [members]
      constructor
      · rintro ⟨name,attached,-,matching⟩
        exact ⟨⟨name,attached⟩,matching⟩
      · rintro ⟨⟨name,attached⟩,matching⟩
        obtain ⟨size,shadow⟩ := unshadowed name number attached matching
        have inside := (name_of_matching filed named apart attached matching).resolve_right fun full => long name full size
        have within := shadow level bound highest id entry candidate hashed
        exact ⟨name,attached,List.prefix_of_prefix_length_le inside candidate.2.1 within,matching⟩

/-- The entries found are those that the search comes by, told from the names of the PIT. -/
theorem mem_findAllDataMatches_iff (consistent : NameTree.Consistent hashComponent tables.tree) (filed : Filed tables.view)
    {names : List Name} (listed : ∀ name, name ∈ names ↔ ∃ number, tables.PitAt name number)
    (apart : ToldApart (data.name :: names)) (number : Nat) :
    number ∈ tables.findAllDataMatches hashComponent data ↔ ∃ name, tables.PitAt name number ∧
      Visited hashComponent names data.name name ∧ (tables.interests number).matchesData data = true := by
  -- The nodes that the search accepts are those of the listed names.
  have accepted : ∀ name ∈ names, name <+: data.name → ∃ id entry,
      tables.tree.Candidate data.name (fun entry => !entry.pitEntries.isEmpty) id entry ∧ entry.name = name ∧
        entry.hash = computeHash hashComponent name := by
    intro name inside under
    obtain ⟨held,id,entry,stored,rfl,there⟩ := (listed name).mp inside
    exact ⟨id,entry,⟨stored,under,by simpa using List.ne_nil_of_mem there⟩,rfl,consistent.hash_eq id entry stored⟩
  rcases consistent.findLongestPrefixMatch_cases data.name (fun entry => !entry.pitEntries.isEmpty) with
    ⟨missing,without⟩ | ⟨level,bound,id,entry,found,candidate,hashed,first,highest⟩
  · have nothing : tables.findAllDataMatches hashComponent data = [] := by
      unfold findAllDataMatches NameTree.findAllMatches
      rw [missing]
      rfl
    rw [nothing]
    refine iff_of_false List.not_mem_nil ?_
    rintro ⟨name,attached,⟨under,-⟩,-⟩
    obtain ⟨other,candidate,there,-⟩ := accepted name ((listed name).mpr ⟨number,attached⟩) under
    exact without other candidate there
  · have inside : entry.name ∈ names := by
      have filled : entry.pitEntries ≠ [] := by simpa using candidate.2.2
      obtain ⟨held,there⟩ := List.exists_mem_of_ne_nil _ filled
      exact (listed entry.name).mpr ⟨held,id,entry,candidate.1,rfl,there⟩
    have own := consistent.hash_eq id entry candidate.1
    obtain ⟨front,deepest⟩ : ∃ front, deepestMatch hashComponent names data.name = some front :=
      deepestMatch_isSome apart inside candidate.2.1
    obtain ⟨top,below,least,above⟩ := deepestMatch_eq_some_iff.mp deepest
    obtain ⟨there,passed,smallest⟩ := minOn_passes least
    obtain ⟨under,levelled⟩ := (passes_iff apart there).mp passed
    obtain ⟨rival,rivalEntry,competitor,named,rivalHash⟩ := accepted front there under
    have passing : passes hashComponent data.name level entry.name = true :=
      (passes_iff apart inside).mpr ⟨candidate.2.1,own.symm.trans hashed⟩
    have same : top = level := by
      rcases lt_trichotomy top level with less | same | more
      · rw [above level bound less entry.name inside] at passing
        cases passing
      · exact same
      · exact absurd (rivalHash.trans levelled) (highest top below more rival rivalEntry competitor)
    subst same
    have shorter := List.prefix_of_prefix_length_le under candidate.2.1 (smallest entry.name inside passing)
    have end_eq : front = entry.name :=
      named.symm.trans (first rival rivalEntry competitor (rivalHash.trans levelled) (named ▸ shorter))
    rw [(mem_findAllDataMatches consistent filed.numbered found candidate.1 candidate.2.1).2 number]
    refine exists_congr fun name => and_congr_right fun attached => and_congr_left fun _ => ?_
    rw [visited_iff apart ((listed name).mpr ⟨number,attached⟩),deepest,end_eq]
    simp

private theorem onePerInterest_of_filed (consistent : NameTree.Consistent hashComponent tables.tree) (filed : Filed tables.view)
    {names : List Name} (named : tables.Named names) (apart : ToldApart names) : tables.OnePerInterest := by
  rintro _ _ first second ⟨id,entry,stored,rfl,held⟩ ⟨node,found,known,rfl,again⟩ alike selected
  have left := (mem_numbers_pit stored first).mpr held
  have right := (mem_numbers_pit known second).mpr again
  have equal := apart.eq (named first) (named second) List.prefix_rfl List.prefix_rfl alike
  have same : entry.name = found.name :=
    (filed.named id entry first stored left).symm.trans (equal.trans (filed.named node found second known right))
  have here := consistent.names.distinct id node entry.key found.key (keys_of_entry stored) (keys_of_entry known) same
  exact filed.single node first second (here ▸ left) right selected

end

/-- In every state that a run with safe resizes and names told apart by their octets reaches the PIT has one
entry for a Name and Selectors, and the entries found for Data are those that match exactly if no
matching entry is shadowed. -/
theorem findsMatches_iff_unshadowed (hashComponent : Component → UInt64)
    (longestMatch : NameTree → Name → (NameTree.Entry → Bool) → Option Nat) (nBuckets : Nat) (positive : 0 < nBuckets)
    (now : Int) (defaultStrategy : Strategy) (operations : List Operation) (final : Tables)
    (safe : RunsSafely hashComponent longestMatch (new hashComponent nBuckets now defaultStrategy) operations)
    (apart : ToldApart (namesUsed defaultStrategy operations))
    (reached : run (attempt (step hashComponent longestMatch)) (some (new hashComponent nBuckets now defaultStrategy))
      operations = some final) :
    final.OnePerInterest ∧ ∀ data, ToldApart (data.fullName :: namesUsed defaultStrategy operations) →
      (final.FindsMatches hashComponent data ↔ final.Unshadowed hashComponent data) := by
  have consistent := (safe.settled positive operations List.prefix_rfl final reached).consistent
  have filed : Filed final.view := attempt_invariant (fun _ _ _ good taken => step_filed hashComponent longestMatch good taken)
    (new_filed hashComponent nBuckets now defaultStrategy) reached
  have named := named_run reached
  exact ⟨onePerInterest_of_filed consistent filed named apart,findsMatches_iff consistent filed named⟩

def pending (name : Name) : Tables :=
  (new CityHash.cityHash64 16 0 ⟨[[8,1,0x53]],0⟩).pitInsert CityHash.cityHash64 ⟨name,Selectors.none,0,0⟩

theorem findsMatches_iff_unshadowed_pending :
    (pending [[8,1,0x41]]).OnePerInterest ∧ ∀ data,
      ToldApart (data.fullName :: namesUsed ⟨[[8,1,0x53]],0⟩ [.pitInsert ⟨[[8,1,0x41]],Selectors.none,0,0⟩]) →
        ((pending [[8,1,0x41]]).FindsMatches CityHash.cityHash64 data ↔
          (pending [[8,1,0x41]]).Unshadowed CityHash.cityHash64 data) :=
  findsMatches_iff_unshadowed CityHash.cityHash64 (fun tree => tree.findLongestPrefixMatch CityHash.cityHash64) 16
    (by decide) 0 ⟨[[8,1,0x53]],0⟩ [.pitInsert ⟨[[8,1,0x41]],Selectors.none,0,0⟩] _ (by decide +kernel) (by decide +kernel) rfl

private theorem zeros_length : (List.replicate 32 (0 : UInt8)).length = 32 := rfl

/-- Data named `/A` with a digest of zeros. -/
def sampleData : Data := ⟨[[8,1,0x41]],⟨List.replicate 32 0,zeros_length⟩,none⟩

/-- An Interest for the full name of the Data matches them and is not found. -/
theorem fullName_not_found :
    run (attempt (step CityHash.cityHash64 fun tree => tree.findLongestPrefixMatch CityHash.cityHash64))
        (some (new CityHash.cityHash64 16 0 ⟨[[8,1,0x53]],0⟩))
        [.pitInsert ⟨sampleData.fullName,Selectors.none,0,0⟩] = some (pending sampleData.fullName) ∧
      ¬ (pending sampleData.fullName).FindsMatches CityHash.cityHash64 sampleData := by
  refine ⟨rfl,?_⟩
  rintro ⟨-,exact⟩
  have nothing : (pending sampleData.fullName).findAllDataMatches CityHash.cityHash64 sampleData = [] := by
    decide +kernel
  rw [nothing] at exact
  refine absurd ((exact 1).mpr ⟨⟨sampleData.fullName,2,_,(Option.some_get (by decide +kernel)).symm,?_,?_⟩,?_⟩)
    List.not_mem_nil
  · decide +kernel
  · decide +kernel
  · decide +kernel

end Tables

end Ncfcc.Nfd.Table
