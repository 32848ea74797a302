import Ncfcc.Nfd.Table.EntryFrames
import Ncfcc.Nfd.Table.StrategyChanges

/-! The measurements of the access strategy. An entry is found by the longest match from a PIT
entry and has to carry an MtInfo if its name belongs to the strategy; other strategies create
entries through an accessor that looks at the name only afterwards. -/
namespace Ncfcc.Nfd.Table.Tables
open Ncfcc.Library NameTree

def mtInfo : Nat := 1011

/-- Eight seconds, in nanoseconds. -/
def meLifetime : Int := 8000000000

section
variable (hashComponent : Component → UInt64) (strategy : Strategy) (tables : Tables)

/-- `filter` of the accessor: the entry, if its name belongs to the strategy. -/
def accessible (measurementsEntry : Option Nat) : Option Nat :=
  measurementsEntry.filter fun number => (tables.measurementsNode number).bind tables.effectiveStrategy = some strategy

/-- `get` of the accessor creates the entry before it is filtered. -/
def accessorGet (name : Name) : Tables × Option Nat :=
  let created := tables.measurementsGet hashComponent name
  (created,created.accessible strategy
    (((tables.tree.lookup hashComponent name).2.bind created.tree.entries).bind NameTree.Entry.measurementsEntry))

/-- `getOrCreateStrategyInfo` of an MtInfo. -/
def addMtInfo (me : Nat) : Tables :=
  {tables with measurementsInfo := Function.update tables.measurementsInfo me ((tables.measurementsInfo me).insert mtInfo)}

/-- The empty name has no prefix to try. -/
def parentGet (dataName : Name) : Tables × Option Nat :=
  if dataName.isEmpty then (tables,none) else tables.accessorGet hashComponent strategy dataName.dropLast

/-- The name itself is tried if the prefix is not the strategy's. -/
def prefixGet (dataName : Name) : Tables × Option Nat :=
  let (parents,parent) := tables.parentGet hashComponent strategy dataName
  if parent.isSome then (parents,parent) else parents.accessorGet hashComponent strategy dataName

/-- The name of the Data has to be the strategy's, which is asserted. -/
def addPrefixMeasurements (dataName : Name) : Option Tables :=
  let (created,found) := tables.prefixGet hashComponent strategy dataName
  found.map fun me => (created.extendLifetime me meLifetime).addMtInfo me

/-- `findLongestPrefixMatch` of the accessor from a PIT entry. -/
def accessorFind (pitEntry : Nat) : Option Nat :=
  tables.accessible strategy
    ((tables.longestFrom (acceptedMeasurements fun _ => true) (tables.pitNode pitEntry)).bind List.head?)

/-- None where the entry found carries no MtInfo, which is asserted. -/
def findPrefixMeasurements (pitEntry : Nat) : Option (Option Nat) :=
  match tables.accessorFind strategy pitEntry with
  | none => some none
  | some me => if mtInfo ∈ tables.measurementsInfo me then some (some me) else none

end

/-- What the access strategy does to measurements, and what everything else does to the tables. -/
inductive AccessEvent where
  | addPrefixMeasurements (dataName : Name)
  | other (operation : Operation)

def matchByName (hashComponent : Component → UInt64) (tree : NameTree) (name : Name) (selector : NameTree.Entry → Bool) :
    Option Nat := tree.findLongestPrefixMatch hashComponent name selector

section
variable (hashComponent : Component → UInt64) (strategy : Strategy) (tables : Tables)

def accessStep : AccessEvent → Option Tables
  | .addPrefixMeasurements dataName => tables.addPrefixMeasurements hashComponent strategy dataName
  | .other operation => tables.step hashComponent (matchByName hashComponent) operation

/-- Every entry found carries an MtInfo, and no assertion fails. -/
def FindsMtInfo : Prop :=
  ∀ pitEntry, (∀ me, tables.accessorFind strategy pitEntry = some me → mtInfo ∈ tables.measurementsInfo me) ∧
    (tables.findPrefixMeasurements strategy pitEntry).isSome

/-! The condition of a step. -/

/-- Some node with measurements passes. -/
def anyMeasured (passes : Name → Bool) : Bool :=
  (List.range tables.tree.nextEntry).any (tables.tree.selects fun entry => entry.measurementsEntry.isSome && passes entry.name)

def leavesName (name : Name) : Bool :=
  decide (longest tables.choice name ≠ some strategy) || tables.anyMeasured fun other => other = name

def leavesNode (node : Option Nat) : Bool :=
  ((node.bind tables.tree.entries).map NameTree.Entry.name).all (tables.leavesName strategy)

/-- A change of the choice of a name brings measurements to the access strategy. -/
def gains (name : Name) (value : Option Strategy) : Bool :=
  tables.anyMeasured fun seen => decide (longest (Function.update tables.choice name value) seen = some strategy) &&
    decide (longest tables.choice seen ≠ some strategy)

/-- No names with measurements become the access strategy's, nobody takes an MtInfo away, and the
match by name finds the strategy that a choice takes over from or leaves to. -/
def leavesMtInfo : Operation → Bool
  | .measurementsGet name => tables.leavesName strategy name
  | .measurementsGetOfFib fibEntry => tables.leavesNode strategy (tables.fibNode fibEntry)
  | .measurementsGetOfPit pitEntry => tables.leavesNode strategy (tables.pitNode pitEntry)
  | .measurementsGetParent child =>
    tables.leavesNode strategy (((tables.measurementsNode child).bind tables.tree.entries).bind NameTree.Entry.parent)
  | .setMeasurementsInfo measurementsEntry info => decide (mtInfo ∈ tables.measurementsInfo measurementsEntry → mtInfo ∈ info)
  | .strategyChoiceInsert name strategyName => (tables.getStrategy strategyName).all fun new =>
      !tables.gains strategy name (some new) && decide (tables.choice name = none →
        (tables.looked hashComponent name).findEffectiveStrategy (matchByName hashComponent) name = longest tables.choice name)
  | .strategyChoiceErase name => !tables.gains strategy name none && decide (tables.choice name ≠ none →
      tables.findEffectiveStrategy (matchByName hashComponent) name.dropLast = longest tables.choice name.dropLast)
  | _ => true

def LeavesMtInfo : AccessEvent → Prop
  | .addPrefixMeasurements dataName =>
    (dataName ≠ [] → NameTree.ResizesSafely hashComponent tables.tree (.lookup dataName.dropLast)) ∧
      ((tables.parentGet hashComponent strategy dataName).2 = none →
        NameTree.ResizesSafely hashComponent (tables.parentGet hashComponent strategy dataName).1.tree (.lookup dataName))
  | .other operation => tables.ResizesSafely hashComponent operation ∧ tables.leavesMtInfo hashComponent strategy operation = true

instance : (event : AccessEvent) → Decidable (tables.LeavesMtInfo hashComponent strategy event)
  | .addPrefixMeasurements _ => inferInstanceAs (Decidable ((_ → NameTree.ResizesSafely _ _ _) ∧ (_ → NameTree.ResizesSafely _ _ _)))
  | .other operation => inferInstanceAs (Decidable (tables.ResizesSafely hashComponent operation ∧ _))

end

/-- The names of the access strategy have an MtInfo wherever they have measurements. -/
def Carries (strategy : Strategy) (tables : Tables) : Prop :=
  ∀ name number, tables.view.EntryAt .measurements name number → longest tables.choice name = some strategy →
    mtInfo ∈ tables.measurementsInfo number

section
variable {hashComponent : Component → UInt64} {strategy : Strategy} {tables next : Tables}

private theorem measuredAt_iff (name : Name) (number : Nat) : tables.view.EntryAt .measurements name number ↔
    ∃ id entry, tables.tree.entries id = some entry ∧ entry.name = name ∧ entry.measurementsEntry = some number := by
  refine exists_congr fun id => exists_congr fun entry => and_congr_right fun stored => and_congr_right fun _ => ?_
  rw [carried_of_entry stored]
  exact Option.mem_toList

private theorem anyMeasured_iff (settled : Settled hashComponent tables.view) (passes : Name → Bool) :
    tables.anyMeasured passes = true ↔
      ∃ name number, tables.view.EntryAt .measurements name number ∧ passes name = true := by
  unfold anyMeasured
  rw [List.any_eq_true]
  constructor
  · rintro ⟨id,-,selected⟩
    obtain ⟨entry,stored,passed⟩ := (Option.any_eq_true _ _).mp selected
    obtain ⟨present,passed⟩ := Bool.and_eq_true_iff.mp passed
    obtain ⟨number,here⟩ := Option.isSome_iff_exists.mp present
    exact ⟨entry.name,number,(measuredAt_iff _ _).mpr ⟨id,entry,stored,rfl,here⟩,passed⟩
  · rintro ⟨name,number,here,passed⟩
    obtain ⟨id,entry,stored,rfl,attached⟩ := (measuredAt_iff _ _).mp here
    refine ⟨id,List.mem_range.mpr (settled.consistent.names.fresh id entry.key (keys_of_entry stored)),?_⟩
    unfold NameTree.selects
    rw [stored]
    simp [attached,passed]

private theorem leavesName_iff (settled : Settled hashComponent tables.view) (name : Name) : tables.leavesName strategy name = true ↔
    (longest tables.choice name = some strategy → ∃ number, tables.view.EntryAt .measurements name number) := by
  unfold leavesName
  rw [Bool.or_eq_true,decide_eq_true_iff,anyMeasured_iff settled,ne_eq,← imp_iff_not_or]
  simp

/-- An entry that the accessor gives is in the namespace of the strategy. -/
theorem accessible_iff (settled : Settled hashComponent tables.view) {name : Name} {number : Nat}
    (here : tables.view.EntryAt .measurements name number) :
    tables.accessible strategy (some number) = some number ↔ longest tables.choice name = some strategy := by
  obtain ⟨id,entry,stored,rfl,held⟩ := here
  have found : tables.measurementsNode number = some id :=
    holder_eq settled.numbered (fun _ => decide_eq_true_iff.trans Option.mem_toList.symm) held
  unfold accessible
  rw [Option.filter_eq_some_iff]
  simp [found,effectiveStrategy_eq settled stored]

theorem Carries.finds (settled : Settled hashComponent tables.view) (carries : tables.Carries strategy) :
    tables.FindsMtInfo strategy := by
  have carried : ∀ pitEntry me, tables.accessorFind strategy pitEntry = some me → mtInfo ∈ tables.measurementsInfo me := by
    intro pitEntry me found
    unfold accessorFind accessible at found
    obtain ⟨-,passed⟩ := Option.filter_eq_some_iff.mp found
    obtain ⟨id,node,effective⟩ := Option.bind_eq_some_iff.mp (of_decide_eq_true passed)
    obtain ⟨entry,stored,attached⟩ := entry_of_holder node
    rw [effectiveStrategy_eq settled stored] at effective
    exact carries entry.name me ((measuredAt_iff _ _).mpr ⟨id,entry,stored,rfl,of_decide_eq_true attached⟩) effective
  intro pitEntry
  refine ⟨carried pitEntry,?_⟩
  unfold findPrefixMeasurements
  cases found : tables.accessorFind strategy pitEntry with
  | none => rfl
  | some me =>
    dsimp only
    rw [if_pos (carried pitEntry me found)]
    rfl

/-! Operations that leave the measurements and the choices where they are. -/

private theorem choice_congr (before : Settled hashComponent tables.view) (after : Settled hashComponent next.view)
    (entries : ∀ key number, next.view.EntryAt .strategyChoice key number ↔ tables.view.EntryAt .strategyChoice key number)
    (strategies : next.strategies = tables.strategies) : next.choice = tables.choice := by
  funext key
  refine Option.ext fun chosen => ?_
  rw [choice_eq_some_iff before,choice_eq_some_iff after,strategies]
  exact exists_congr fun number => and_congr_left fun _ => entries key number

theorem Carries.frame (carries : tables.Carries strategy) (choice : next.choice = tables.choice)
    (entries : ∀ name number, next.view.EntryAt .measurements name number → tables.view.EntryAt .measurements name number)
    (infos : ∀ number, mtInfo ∈ tables.measurementsInfo number → mtInfo ∈ next.measurementsInfo number) :
    next.Carries strategy := by
  intro name number here belongs
  rw [choice] at belongs
  exact infos number (carries name number (entries name number here) belongs)

private theorem step_frame {operation : Operation} (before : Settled hashComponent tables.view) (after : Settled hashComponent next.view)
    (other : ¬ SetsInfos operation) (taken : tables.step hashComponent (matchByName hashComponent) operation = some next)
    (carries : tables.Carries strategy) : next.Carries strategy := by
  have same := step_infos _ other taken
  have infos : next.measurementsInfo = tables.measurementsInfo := congrArg Infos.measurementsInfo same
  have strategies : next.strategies = tables.strategies := congrArg Infos.strategies same
  have kept : ∀ kind, kind = .measurements ∨ kind = .strategyChoice → ∀ name number,
      next.view.EntryAt kind name number ↔ tables.view.EntryAt kind name number := by
    intro kind which name number
    by_cases all : ∃ face, operation = .removeNextHopFromAllEntries face
    · obtain ⟨face,rfl⟩ := all
      cases taken
      refine removeNextHopFromAllEntries_entryAt before.numbered face ?_ name number
      rcases which with rfl | rfl <;> decide
    · refine step_entryAt _ before.numbered (not_exists.mp all) taken ?_ name number
      rcases which with rfl | rfl
      · exact congrArg Infos.measurementsNItems same
      · exact congrArg Infos.strategyChoiceNItems same
  refine carries.frame (choice_congr before after (kept .strategyChoice (Or.inr rfl)) strategies) ?_ ?_
  · exact fun name number here => (kept .measurements (Or.inl rfl) name number).mp here
  · rw [infos]
    exact fun _ inside => inside

/-! Entries are created. -/

structure Got (tables next : Tables) (name : Name) (me : Nat) : Prop where
  choice : next.choice = tables.choice
  here : next.view.EntryAt .measurements name me
  others : ∀ key number, next.view.EntryAt .measurements key number → number ≠ me →
    tables.view.EntryAt .measurements key number ∧ next.measurementsInfo number = tables.measurementsInfo number
  known : ∀ number, tables.view.EntryAt .measurements name number →
    number = me ∧ next.measurementsInfo me = tables.measurementsInfo me

/-- A name has one measurements entry. -/
theorem measured_single (settled : Settled hashComponent tables.view) {id first number : Nat} {entry : NameTree.Entry}
    (stored : tables.tree.entries id = some entry) (present : entry.measurementsEntry = some first)
    (here : tables.view.EntryAt .measurements entry.name number) : number = first := by
  obtain ⟨node,other,known,same,attached⟩ := (measuredAt_iff _ _).mp here
  have equal := settled.consistent.names.distinct node id other.key entry.key (keys_of_entry known) (keys_of_entry stored) same
  subst equal
  cases known.symm.trans stored
  exact Option.some.inj (attached.symm.trans present)

private theorem measurementsGetNode_got (settled : Settled hashComponent tables.view) {id : Nat}
    (after : Settled hashComponent (tables.measurementsGetNode id).view) {entry : NameTree.Entry}
    (stored : tables.tree.entries id = some entry) :
    ∃ me, ((tables.measurementsGetNode id).tree.entries id).bind NameTree.Entry.measurementsEntry = some me ∧
      tables.Got (tables.measurementsGetNode id) entry.name me := by
  have numbers := numbers_measurements tables.tree id
  cases present : (tables.tree.entries id).bind NameTree.Entry.measurementsEntry with
  | some me =>
    rw [measurementsGetNode_eq_self tables present]
    refine ⟨me,present,rfl,?_,fun key number here _ => ⟨here,rfl⟩,?_⟩
    · rw [stored] at present
      exact (measuredAt_iff _ _).mpr ⟨id,entry,stored,rfl,present⟩
    · rw [stored] at present
      exact fun number here => ⟨measured_single settled stored present here,rfl⟩
  | none =>
    rw [present] at numbers
    have takes : tables.view.Takes tables.tree .measurements id (tables.interests 0) := numbers
    have entries := settled.numbered.entryAt_attach (Grows.refl settled.numbered.linked) stored takes
    have view : (tables.measurementsGetNode id).view =
        tables.view.attach tables.view.tree .measurements id (tables.interests 0) := measurementsGetNode_view tables present
    rw [← view] at entries
    have infos : (tables.measurementsGetNode id).measurementsInfo =
        Function.update tables.measurementsInfo tables.nextNumber [] := by
      unfold measurementsGetNode
      rw [present]
    have strategies : (tables.measurementsGetNode id).strategies = tables.strategies := by
      unfold measurementsGetNode
      rw [present]
    refine ⟨tables.nextNumber,?_,?_,?_,?_,?_⟩
    · unfold measurementsGetNode
      rw [present]
      dsimp only
      unfold setMeasurementsEntry
      rw [modify_entries,if_pos rfl,stored]
      rfl
    · refine choice_congr settled after ?_ strategies
      intro key number
      rw [entries]
      simp
    · exact (entries _ _ _).mpr (Or.inr ⟨rfl,rfl,rfl⟩)
    · intro key number here different
      rcases (entries _ _ _).mp here with before | ⟨-,-,same⟩
      · refine ⟨before,?_⟩
        rw [infos,Function.update_of_ne different]
      · exact absurd same different
    · intro number here
      obtain ⟨node,other,known,same,attached⟩ := (measuredAt_iff _ _).mp here
      have equal := settled.consistent.names.distinct node id other.key entry.key (keys_of_entry known)
        (keys_of_entry stored) same
      rw [equal] at known
      rw [known,Option.bind_some,attached] at present
      cases present

private theorem measurementsGet_chosen (chosen : Chosen hashComponent tables) {name : Name}
    (safe : NameTree.ResizesSafely hashComponent tables.tree (.lookup name)) :
    Chosen hashComponent (tables.measurementsGet hashComponent name) := by
  have allowed : tables.ResizesSafely hashComponent (.measurementsGet name) := safe
  have taken : tables.step hashComponent (matchByName hashComponent) (.measurementsGet name) =
      some (tables.measurementsGet hashComponent name) := rfl
  exact step_chosen _ chosen allowed taken

private theorem measurementsGet_got (chosen : Chosen hashComponent tables) {name : Name}
    (safe : NameTree.ResizesSafely hashComponent tables.tree (.lookup name)) :
    ∃ me, (((tables.tree.lookup hashComponent name).2.bind (tables.measurementsGet hashComponent name).tree.entries).bind
        NameTree.Entry.measurementsEntry) = some me ∧ tables.Got (tables.measurementsGet hashComponent name) name me := by
  have settled := chosen.settled
  have looks := looked_settled settled safe
  have after := (measurementsGet_chosen chosen safe).settled
  obtain ⟨grows,id,entry,node,stored,rfl⟩ := lookup_grows hashComponent settled.numbered.linked name
  have unfolded : tables.measurementsGet hashComponent entry.name =
      (tables.looked hashComponent entry.name).measurementsGetNode id := by
    unfold measurementsGet
    dsimp only
    rw [show (tables.tree.lookup hashComponent entry.name).2 = some id from node]
    rfl
  rw [unfolded] at after ⊢
  obtain ⟨me,attached,choice,here,others,known⟩ := measurementsGetNode_got looks after stored
  have entries : ∀ key number, (tables.looked hashComponent entry.name).view.EntryAt .measurements key number ↔
      tables.view.EntryAt .measurements key number :=
    fun key number => View.entryAt_grown settled.numbered.linked grows .measurements key number
  refine ⟨me,?_,choice.trans (looked_choice settled safe),here,?_,?_⟩
  · rw [show (tables.tree.lookup hashComponent entry.name).2 = some id from node]
    exact attached
  · intro key number there different
    obtain ⟨before,same⟩ := others key number there different
    exact ⟨(entries key number).mp before,same⟩
  · exact fun number before => known number ((entries _ _).mpr before)

/-- The entry got may be new; it is not missed if the name is another strategy's or had one. -/
theorem Got.carries {name : Name} {me : Nat} (got : tables.Got next name me)
    (numbered : next.view.Numbered) (carries : tables.Carries strategy)
    (leaves : longest tables.choice name = some strategy → ∃ number, tables.view.EntryAt .measurements name number) :
    next.Carries strategy := by
  intro key number here belongs
  rw [got.choice] at belongs
  by_cases same : number = me
  · subst same
    cases numbered.entryAt_name here got.here
    obtain ⟨known,before⟩ := leaves belongs
    obtain ⟨rfl,info⟩ := got.known known before
    rw [info]
    exact carries name known before belongs
  · obtain ⟨before,info⟩ := got.others key number here same
    rw [info]
    exact carries key number before belongs

/-! The access strategy's own operation. -/

/-- The entry that the accessor gives is the only one that may lack an MtInfo. -/
def Lacks (strategy : Strategy) (tables : Tables) (found : Option Nat) : Prop :=
  ∀ name number, tables.view.EntryAt .measurements name number → longest tables.choice name = some strategy →
    mtInfo ∈ tables.measurementsInfo number ∨ found = some number

private theorem accessorGet_lacks (chosen : Chosen hashComponent tables) (carries : tables.Carries strategy) {name : Name}
    (safe : NameTree.ResizesSafely hashComponent tables.tree (.lookup name)) :
    Chosen hashComponent (tables.accessorGet hashComponent strategy name).1 ∧
      Lacks strategy (tables.accessorGet hashComponent strategy name).1 (tables.accessorGet hashComponent strategy name).2 := by
  have after := measurementsGet_chosen chosen safe
  refine ⟨after,?_⟩
  obtain ⟨me,attached,got⟩ := measurementsGet_got chosen safe
  unfold accessorGet
  dsimp only
  rw [attached]
  intro key number here belongs
  by_cases same : number = me
  · subst same
    exact Or.inr ((accessible_iff after.settled here).mpr belongs)
  · obtain ⟨before,info⟩ := got.others key number here same
    rw [info]
    exact Or.inl (carries key number before (got.choice ▸ belongs))

theorem Lacks.carries (lacks : Lacks strategy tables none) : tables.Carries strategy := by
  intro name number here belongs
  exact (lacks name number here belongs).resolve_right nofun

private theorem prefixGet_lacks (chosen : Chosen hashComponent tables) (carries : tables.Carries strategy) {dataName : Name}
    (safe : tables.LeavesMtInfo hashComponent strategy (.addPrefixMeasurements dataName)) :
    Chosen hashComponent (tables.prefixGet hashComponent strategy dataName).1 ∧
      Lacks strategy (tables.prefixGet hashComponent strategy dataName).1 (tables.prefixGet hashComponent strategy dataName).2 := by
  obtain ⟨parentSafe,ownSafe⟩ := safe
  have parents : Chosen hashComponent (tables.parentGet hashComponent strategy dataName).1 ∧
      Lacks strategy (tables.parentGet hashComponent strategy dataName).1 (tables.parentGet hashComponent strategy dataName).2 := by
    unfold parentGet
    cases dataName with
    | nil => exact ⟨chosen,fun name number here belongs => Or.inl (carries name number here belongs)⟩
    | cons first rest => exact accessorGet_lacks chosen carries (parentSafe (List.cons_ne_nil _ _))
  unfold prefixGet
  dsimp only
  cases found : (tables.parentGet hashComponent strategy dataName).2 with
  | some me =>
    rw [found] at parents
    exact parents
  | none =>
    rw [found] at parents
    exact accessorGet_lacks parents.1 parents.2.carries (ownSafe found)

private theorem extendLifetime_kept (tables : Tables) (me : Nat) (lifetime : Int) :
    ((tables.extendLifetime me lifetime).view = tables.view ∧ (tables.extendLifetime me lifetime).choice = tables.choice) ∧
      (tables.extendLifetime me lifetime).measurementsInfo = tables.measurementsInfo := by
  unfold extendLifetime
  split
  · exact ⟨⟨rfl,rfl⟩,rfl⟩
  · dsimp only
    split <;> exact ⟨⟨rfl,rfl⟩,rfl⟩

theorem Lacks.addMtInfo {me : Nat} (lacks : Lacks strategy tables (some me)) (lifetime : Int) :
    ((tables.extendLifetime me lifetime).addMtInfo me).Carries strategy := by
  obtain ⟨⟨view,choice⟩,infos⟩ := tables.extendLifetime_kept me lifetime
  intro name number here belongs
  change (tables.extendLifetime me lifetime).view.EntryAt .measurements name number at here
  change longest (tables.extendLifetime me lifetime).choice name = some strategy at belongs
  rw [view] at here
  rw [choice] at belongs
  unfold Tables.addMtInfo
  dsimp only
  rw [infos,Function.update_apply]
  split
  · exact List.mem_insert_self
  · rename_i other
    exact (lacks name number here belongs).resolve_right fun same => other (Option.some.inj same).symm

private theorem addPrefixMeasurements_carries (chosen : Chosen hashComponent tables) (carries : tables.Carries strategy) {dataName : Name}
    (safe : tables.LeavesMtInfo hashComponent strategy (.addPrefixMeasurements dataName))
    (taken : tables.addPrefixMeasurements hashComponent strategy dataName = some next) :
    Chosen hashComponent next ∧ next.Carries strategy := by
  obtain ⟨after,lacks⟩ := prefixGet_lacks chosen carries safe
  unfold addPrefixMeasurements at taken
  dsimp only at taken
  obtain ⟨me,found,rfl⟩ := Option.map_eq_some_iff.mp taken
  rw [found] at lacks
  refine ⟨?_,lacks.addMtInfo meLifetime⟩
  generalize (tables.prefixGet hashComponent strategy dataName).1 = created at after
  have allowed : created.ResizesSafely hashComponent (.extendLifetime me meLifetime) := trivial
  have extended : Chosen hashComponent (created.extendLifetime me meLifetime) :=
    step_chosen (matchByName hashComponent) after allowed rfl
  exact ⟨extended.settled,extended.rooted,extended.installed.of_contents rfl rfl⟩

/-! The operations of everybody else. -/

private theorem measurementsGetNode_carries (settled : Settled hashComponent tables.view) {id : Nat}
    (after : Settled hashComponent (tables.measurementsGetNode id).view) (carries : tables.Carries strategy)
    {entry : NameTree.Entry} (stored : tables.tree.entries id = some entry)
    (leaves : tables.leavesNode strategy (some id) = true) : (tables.measurementsGetNode id).Carries strategy := by
  obtain ⟨me,-,got⟩ := measurementsGetNode_got settled after stored
  unfold leavesNode at leaves
  rw [Option.bind_some,stored] at leaves
  exact got.carries after.numbered carries ((leavesName_iff settled entry.name).mp leaves)

private theorem cleanup_carries (before : Settled hashComponent tables.view) (after : Settled hashComponent next.view)
    (carries : tables.Carries strategy) (taken : tables.step hashComponent (matchByName hashComponent) .cleanup = some next) :
    next.Carries strategy := by
  unfold step at taken
  dsimp only at taken
  split at taken
  · cases taken
    exact carries
  · rename_i event _
    generalize fires : ({tables with scheduler := tables.scheduler.fire event} : Tables) = fired at taken
    have view : fired.view = tables.view := by
      rw [← fires]
      rfl
    have infos : fired.measurementsInfo = tables.measurementsInfo := by rw [← fires]
    have strategies : fired.strategies = tables.strategies := by rw [← fires]
    cases taken
    cases found : fired.measurementsNode event.callback with
    | none =>
      have unchanged : fired.cleanup event.callback = fired := by
        unfold cleanup
        rw [found]
      rw [unchanged] at after ⊢
      refine carries.frame (choice_congr before after (fun key number => by rw [view]) strategies) ?_ ?_
      · rw [view]
        exact fun _ _ here => here
      · rw [infos]
        exact fun _ inside => inside
    | some id =>
      obtain ⟨held,detached⟩ := cleanup_view fired found
      have entries := (view ▸ before.numbered : fired.view.Numbered).entryAt_detach held (fun other => by cases other)
      rw [← detached,view] at entries
      have same : (fired.cleanup event.callback).strategies = tables.strategies ∧
          (fired.cleanup event.callback).measurementsInfo = tables.measurementsInfo := by
        unfold cleanup
        rw [found]
        exact ⟨strategies,infos⟩
      refine carries.frame (choice_congr before after ?_ same.1) ?_ ?_
      · intro key number
        rw [entries]
        simp
      · exact fun key number here => ((entries _ _ _).mp here).1
      · rw [same.2]
        exact fun _ inside => inside

/-- A change of choices that brings no measurements to the strategy. -/
theorem Changes.carries (before : Settled hashComponent tables.view) (after : Settled hashComponent next.view)
    (carries : tables.Carries strategy) {name : Name} {value : Option Strategy} (changes : tables.Changes next name value)
    (entries : ∀ key number, next.view.EntryAt .measurements key number → tables.view.EntryAt .measurements key number)
    (brings : tables.gains strategy name value = false) : next.Carries strategy := by
  intro key number here belongs
  have there := entries key number here
  have belonged : longest tables.choice key = some strategy := by
    rw [changes.choice] at belongs
    by_contra other
    have gained : tables.gains strategy name value = true :=
      (anyMeasured_iff before _).mpr ⟨key,number,there,by simp [belongs,other]⟩
    rw [gained] at brings
    cases brings
  obtain ⟨id,entry,stored,rfl,attached⟩ := (measuredAt_iff _ _).mp there
  obtain ⟨later,still,named⟩ : ∃ later, next.tree.entries id = some later ∧ later.name = entry.name := by
    rcases changes.nodes id entry stored with stays | ⟨-,bare⟩
    · exact stays
    · rw [bare] at attached
      cases attached
  have kept := (changes.clearsChanged before after id entry stored).2 (by
    rw [effectiveStrategy_eq before stored,effectiveStrategy_eq after still,named,belongs,belonged])
  rw [kept.2 number attached]
  exact carries entry.name number there belonged

private theorem changeStrategy_measurementsNItems (tables : Tables) (root : Nat) (name : Name) (old new : Strategy) :
    (tables.changeStrategy hashComponent root name old new).measurementsNItems = tables.measurementsNItems :=
  congrArg (fun view : View => view.nItems .measurements) (changeStrategy_view ..)

private theorem strategyChoiceInsert_measured (numbered : tables.view.Numbered) {name strategyName : Name}
    (taken : tables.strategyChoiceInsert hashComponent (matchByName hashComponent) name strategyName = some next)
    (key : Name) (number : Nat) :
    next.view.EntryAt .measurements key number ↔ tables.view.EntryAt .measurements key number := by
  have single : ∀ face, Operation.strategyChoiceInsert name strategyName ≠ .removeNextHopFromAllEntries face := nofun
  have step : tables.step hashComponent (matchByName hashComponent) (.strategyChoiceInsert name strategyName) = some next := taken
  refine step_entryAt _ numbered single step ?_ key number
  unfold strategyChoiceInsert at taken
  split at taken
  · cases taken
    rfl
  · dsimp only at taken
    split at taken
    · cases taken
      rfl
    · split at taken
      · split at taken
        · cases taken
          rfl
        · cases taken
          exact changeStrategy_measurementsNItems ..
      · obtain ⟨old,-,rfl⟩ := Option.map_eq_some_iff.mp taken
        exact changeStrategy_measurementsNItems ..

private theorem strategyChoiceErase_measured (numbered : tables.view.Numbered) {name : Name}
    (taken : tables.strategyChoiceErase hashComponent (matchByName hashComponent) name = some next)
    (key : Name) (number : Nat) :
    next.view.EntryAt .measurements key number ↔ tables.view.EntryAt .measurements key number := by
  have single : ∀ face, Operation.strategyChoiceErase name ≠ .removeNextHopFromAllEntries face := nofun
  have step : tables.step hashComponent (matchByName hashComponent) (.strategyChoiceErase name) = some next := taken
  refine step_entryAt _ numbered single step ?_ key number
  unfold strategyChoiceErase at taken
  split at taken
  · cases taken
  · split at taken
    · cases taken
      rfl
    · split at taken
      · cases taken
        rfl
      · obtain ⟨old,-,rfl⟩ := Option.map_eq_some_iff.mp taken
        exact changeStrategy_measurementsNItems ..

private theorem setsInfos_carries {operation : Operation} (chosen : Chosen hashComponent tables) (after : Settled hashComponent next.view)
    (carries : tables.Carries strategy) (safe : tables.ResizesSafely hashComponent operation)
    (leaves : tables.leavesMtInfo hashComponent strategy operation = true) (sets : SetsInfos operation)
    (taken : tables.step hashComponent (matchByName hashComponent) operation = some next) : next.Carries strategy := by
  have settled := chosen.settled
  cases sets with
  | measurementsGet name =>
    cases taken
    obtain ⟨me,-,got⟩ := measurementsGet_got chosen safe
    exact got.carries after.numbered carries ((leavesName_iff settled name).mp leaves)
  | measurementsGetOfFib fibEntry =>
    obtain ⟨id,node,rfl⟩ := Option.map_eq_some_iff.mp taken
    obtain ⟨entry,stored,-⟩ := entry_of_holder node
    exact measurementsGetNode_carries settled after carries stored (node ▸ leaves)
  | measurementsGetOfPit pitEntry =>
    obtain ⟨id,node,rfl⟩ := Option.map_eq_some_iff.mp taken
    obtain ⟨entry,stored,-⟩ := entry_of_holder node
    exact measurementsGetNode_carries settled after carries stored (node ▸ leaves)
  | measurementsGetParent child =>
    obtain ⟨id,node,taken⟩ := Option.bind_eq_some_iff.mp taken
    obtain ⟨entry,stored,taken⟩ := Option.bind_eq_some_iff.mp taken
    split at taken
    · cases taken
      exact carries
    · obtain ⟨up,parent,rfl⟩ := Option.map_eq_some_iff.mp taken
      rcases settled.consistent.parent_cases stored with ⟨rootless,-⟩ | ⟨other,above,same,known,-⟩
      · cases rootless.symm.trans parent
      · cases same.symm.trans parent
        refine measurementsGetNode_carries settled after carries known ?_
        change tables.leavesNode strategy (((tables.measurementsNode child).bind tables.tree.entries).bind
          NameTree.Entry.parent) = true at leaves
        rw [node,Option.bind_some,stored,Option.bind_some,parent] at leaves
        exact leaves
  | setMeasurementsInfo measurementsEntry info =>
    cases taken
    refine carries.frame rfl (fun _ _ here => here) ?_
    intro number inside
    dsimp only
    rw [Function.update_apply]
    split
    · rename_i same
      exact of_decide_eq_true leaves (same ▸ inside)
    · exact inside
  | cleanup => exact cleanup_carries settled after carries taken
  | strategyChoiceInsert name strategyName =>
    have entries := strategyChoiceInsert_measured settled.numbered taken
    change tables.strategyChoiceInsert hashComponent (matchByName hashComponent) name strategyName = some next at taken
    change (tables.getStrategy strategyName).all _ = true at leaves
    cases got : tables.getStrategy strategyName with
    | none =>
      unfold strategyChoiceInsert at taken
      rw [got] at taken
      cases taken
      exact carries
    | some new =>
      rw [got] at leaves
      obtain ⟨brings,right⟩ := Bool.and_eq_true_iff.mp leaves
      obtain ⟨reached,same,changes⟩ := strategyChoiceInsert_changes chosen got (safe (Option.isSome_of_eq_some got))
        (of_decide_eq_true right)
      cases same.symm.trans taken
      exact changes.carries settled after carries (fun key number => (entries key number).mp) (by simpa using brings)
  | strategyChoiceErase name =>
    have entries := strategyChoiceErase_measured settled.numbered taken
    obtain ⟨brings,right⟩ := Bool.and_eq_true_iff.mp leaves
    have below : name ≠ [] := by
      rintro rfl
      cases taken
    obtain ⟨reached,same,changes⟩ := strategyChoiceErase_changes chosen below safe (of_decide_eq_true right)
    cases same.symm.trans taken
    exact changes.carries settled after carries (fun key number => (entries key number).mp) (by simpa using brings)

private theorem accessStep_carries {event : AccessEvent} (chosen : Chosen hashComponent tables) (carries : tables.Carries strategy)
    (admitted : tables.LeavesMtInfo hashComponent strategy event)
    (taken : tables.accessStep hashComponent strategy event = some next) :
    Chosen hashComponent next ∧ next.Carries strategy := by
  cases event with
  | addPrefixMeasurements dataName => exact addPrefixMeasurements_carries chosen carries admitted taken
  | other operation =>
    obtain ⟨safe,leaves⟩ := admitted
    have after := step_chosen _ chosen safe taken
    refine ⟨after,?_⟩
    by_cases sets : SetsInfos operation
    · exact setsInfos_carries chosen after.settled carries safe leaves sets taken
    · exact step_frame chosen.settled after.settled sets taken carries

private theorem new_carries (nBuckets : Nat) (now : Int) (defaultStrategy : Strategy) :
    (new hashComponent nBuckets now defaultStrategy).Carries strategy := by
  intro name number here
  have numbered := View.initial_numbered nBuckets
  obtain ⟨grows,id,entry,node,stored,-⟩ := lookup_grows hashComponent numbered.linked []
  cases node
  rw [new_view] at here
  have entries := (numbered.entryAt_attach grows stored (initial_takes hashComponent nBuckets) .measurements name number).mp here
  obtain ⟨_,_,known,-⟩ := entries.resolve_right fun other => nomatch other.1
  cases known

end

/-- In a run whose steps all leave the MtInfos of the strategy, whatever measurements it finds in
its namespace carry one. -/
theorem findsMtInfo_of_leavesMtInfo (hashComponent : Component → UInt64) (nBuckets : Nat) (positive : 0 < nBuckets) (now : Int)
    (defaultStrategy strategy : Strategy) (events : List AccessEvent)
    (leaves : Steps (attempt (accessStep hashComponent strategy)) (fun state event => ∀ tables, state = some tables →
      tables.LeavesMtInfo hashComponent strategy event) (some (new hashComponent nBuckets now defaultStrategy)) events) :
    Along (attempt (accessStep hashComponent strategy)) (fun state => ∀ tables, state = some tables →
      tables.FindsMtInfo strategy) (some (new hashComponent nBuckets now defaultStrategy)) events := by
  have always : Along (attempt (accessStep hashComponent strategy)) (fun state => ∀ tables, state = some tables →
      Chosen hashComponent tables ∧ tables.Carries strategy) (some (new hashComponent nBuckets now defaultStrategy)) events := by
    refine along_of_steps ?_ ?_ leaves
    · intro state event holds admitted next reached
      obtain ⟨tables,here,taken⟩ := Option.bind_eq_some_iff.mp reached
      obtain ⟨chosen,carries⟩ := holds tables here
      exact accessStep_carries chosen carries (admitted tables here) taken
    · rintro tables ⟨⟩
      exact ⟨new_chosen positive now defaultStrategy,new_carries nBuckets now defaultStrategy⟩
  intro before inside tables here
  obtain ⟨chosen,carries⟩ := always before inside tables here
  exact carries.finds chosen.settled

instance (hashComponent : Component → UInt64) (strategy : Strategy) (start : Option Tables) (events : List AccessEvent) :
    Decidable (Steps (attempt (accessStep hashComponent strategy)) (fun state event => ∀ tables, state = some tables →
      tables.LeavesMtInfo hashComponent strategy event) start events) :=
  have (state : Option Tables) (event : AccessEvent) : Decidable (∀ tables, state = some tables →
      tables.LeavesMtInfo hashComponent strategy event) :=
    inferInstanceAs (Decidable (∀ tables ∈ state, LeavesMtInfo _ _ _ _))
  inferInstanceAs (Decidable (Steps _ _ _ _))

/-- The access strategy has `/A`, another strategy `/A/B`. -/
def nestedChoices : List AccessEvent :=
  [.other (.install ⟨[[8,1,0x61]],1⟩),.other (.install ⟨[[8,1,0x6e]],2⟩),
    .other (.strategyChoiceInsert [[8,1,0x41]] [[8,1,0x61]]),.other (.strategyChoiceInsert [[8,1,0x41],[8,1,0x42]] [[8,1,0x6e]])]

/-- Data under `/A` and an Interest under `/A`. -/
def measuresData : List AccessEvent :=
  nestedChoices ++ [.addPrefixMeasurements [[8,1,0x41],[8,1,0x43]],.other (.measurementsGet [[8,1,0x41],[8,1,0x42]]),
    .other (.pitInsert ⟨[[8,1,0x41],[8,1,0x43]],Selectors.none,0,0⟩)]

theorem findsMtInfo_measuresData :
    Along (attempt (accessStep CityHash.cityHash64 ⟨[[8,1,0x61]],1⟩)) (fun state => ∀ tables, state = some tables →
      tables.FindsMtInfo ⟨[[8,1,0x61]],1⟩) (some (new CityHash.cityHash64 16 0 ⟨[[8,1,0x53]],0⟩)) measuresData :=
  findsMtInfo_of_leavesMtInfo CityHash.cityHash64 16 (by decide) 0 ⟨[[8,1,0x53]],0⟩ ⟨[[8,1,0x61]],1⟩ measuresData
    (by decide +kernel)

/-- The other strategy gets the parent of its entry for `/A/B`: an entry for `/A` without an
MtInfo, which the access strategy finds for an Interest under `/A`. -/
def measuresParent : List AccessEvent :=
  nestedChoices ++ [.other (.measurementsGet [[8,1,0x41],[8,1,0x42]]),.other (.measurementsGetParent 3),
    .other (.pitInsert ⟨[[8,1,0x41],[8,1,0x43]],Selectors.none,0,0⟩)]

theorem measuresParent_not_findsMtInfo :
    ¬ Along (attempt (accessStep CityHash.cityHash64 ⟨[[8,1,0x61]],1⟩)) (fun state => ∀ tables, state = some tables →
      tables.FindsMtInfo ⟨[[8,1,0x61]],1⟩) (some (new CityHash.cityHash64 16 0 ⟨[[8,1,0x53]],0⟩)) measuresParent := by
  intro always
  have wrong : (run (attempt (accessStep CityHash.cityHash64 ⟨[[8,1,0x61]],1⟩))
      (some (new CityHash.cityHash64 16 0 ⟨[[8,1,0x53]],0⟩)) measuresParent).any (fun tables =>
        tables.accessorFind ⟨[[8,1,0x61]],1⟩ 5 = some 4 ∧ tables.findPrefixMeasurements ⟨[[8,1,0x61]],1⟩ 5 = none) = true := by
    decide +kernel
  obtain ⟨tables,reached,passed⟩ := (Option.any_eq_true _ _).mp wrong
  have finds := (always measuresParent List.prefix_rfl tables reached 5).2
  rw [(of_decide_eq_true passed).2] at finds
  cases finds

end Ncfcc.Nfd.Table.Tables
