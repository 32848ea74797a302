import Ncfcc.Library.Marks
import Ncfcc.Library.Run
import Ncfcc.NdnCxx.NameUri

/-! Exclude filters. The map runs from the greatest component down, and ANY behind a component
excludes all up to the next greater entry. A run of operations excludes what they name
together, as long as no range begins and ends inside one that is excluded already. -/
namespace Ncfcc.NdnCxx
open Ncfcc.Encoding Ncfcc.Library Ncfcc.Library.Marks

/-- `exclude_type`, from its beginning to its end. -/
abbrev ExcludeMap := List (Component × Bool)

namespace ExcludeMap

/-- `lower_bound`, as a position. -/
def lowerBound (exclude : ExcludeMap) (component : Component) : Nat :=
  (exclude.takeWhile fun item => decide (component < item.1)).length

def hasAny (exclude : ExcludeMap) (position : Nat) : Bool := exclude[position]?.any fun item => item.2

/-- `insert`: the map, the position of the item, and whether it is new. -/
def insert (exclude : ExcludeMap) (component : Component) (any : Bool) : ExcludeMap × Nat × Bool :=
  let position := exclude.lowerBound component
  if (exclude[position]?.any fun item => item.1 = component) = true then (exclude,position,false)
  else (exclude.insertIdx position (component,any),position,true)

def erase (exclude : ExcludeMap) (first last : Nat) : ExcludeMap := exclude.take first ++ exclude.drop last

def newFrom (exclude : ExcludeMap) (start : Component) : ExcludeMap × Nat :=
  let position := exclude.lowerBound start
  if exclude.hasAny position then (exclude,position)
  else
    let (inserted,position,fresh) := exclude.insert start true
    if fresh then (inserted,position) else (inserted.set position (start,true),position)

def excludeRange (exclude : ExcludeMap) (start stop : Component) : ExcludeMap :=
  let (exclude,newFrom) := exclude.newFrom start
  let newTo := exclude.lowerBound stop
  if newTo = newFrom ∨ exclude.hasAny newTo = false then
    -- a new item moves the ones behind it
    let (inserted,newTo,fresh) := exclude.insert stop false
    inserted.erase (newTo + 1) (if fresh then newFrom + 1 else newFrom)
  else exclude.erase newTo newFrom

def excludeAfter (exclude : ExcludeMap) (start : Component) : ExcludeMap :=
  let (exclude,newFrom) := exclude.newFrom start
  if newFrom ≠ 0 then exclude.erase 0 newFrom else exclude

/-- `m_exclude[name] = any` -/
def assign (exclude : ExcludeMap) (component : Component) (any : Bool) : ExcludeMap :=
  let (inserted,position,_) := exclude.insert component any
  inserted.set position (component,any)

/-! The operations as those on marks. -/

variable {upper lower : ExcludeMap} {component : Component}

private theorem lowerBound_split (high : ∀ item ∈ upper, component < item.1) (low : ∀ item ∈ lower.head?, item.1 ≤ component) :
    lowerBound (upper ++ lower) component = upper.length := by
  unfold lowerBound
  rw [List.takeWhile_append_of_pos (by simpa using fun first any inside => high (first,any) inside)]
  cases lower with
  | nil => simp
  | cons item rest => simp [not_lt.mpr (low item rfl)]

private theorem hasAny_split : hasAny (upper ++ lower) upper.length = lower.head?.any fun item => item.2 := by
  unfold hasAny
  rw [List.getElem?_append_right (Nat.le_refl _),Nat.sub_self,List.head?_eq_getElem?]

private theorem insertIdx_split (item : Component × Bool) : (upper ++ lower).insertIdx upper.length item = upper ++ item :: lower := by
  induction upper with
  | nil => rfl
  | cons first upper ih => exact congrArg (first :: ·) ih

theorem insert_new (high : ∀ item ∈ upper, component < item.1) (low : ∀ item ∈ lower.head?, item.1 < component)
    (any : Bool) : insert (upper ++ lower) component any = (upper ++ (component,any) :: lower,upper.length,true) := by
  unfold insert
  rw [lowerBound_split high fun item inside => (low item inside).le,if_neg]
  · rw [insertIdx_split]
  · rw [List.getElem?_append_right (Nat.le_refl _),Nat.sub_self,← List.head?_eq_getElem?]
    cases head : lower.head? with
    | none => simp
    | some item => simpa using (low item head).ne

theorem insert_old (high : ∀ item ∈ upper, component < item.1) (flag any : Bool) :
    insert (upper ++ (component,flag) :: lower) component any =
      (upper ++ (component,flag) :: lower,upper.length,false) := by
  unfold insert
  rw [lowerBound_split high fun item inside => by cases inside; exact le_refl component,if_pos]
  simp

private theorem erase_split (middle : ExcludeMap) {last : Nat} (end_eq : last = upper.length + middle.length) :
    erase (upper ++ (middle ++ lower)) upper.length last = upper ++ lower := by
  unfold erase
  rw [List.take_left,end_eq,← List.drop_drop,List.drop_left,List.drop_left]

private theorem erase_behind (item : Component × Bool) (middle : ExcludeMap) {last : Nat}
    (end_eq : last = upper.length + 1 + middle.length) :
    erase (upper ++ item :: (middle ++ lower)) (upper.length + 1) last = upper ++ item :: lower := by
  have whole := @erase_split (upper ++ [item]) lower middle last
  simp only [List.length_append,List.length_singleton,List.append_assoc,List.singleton_append] at whole
  exact whole end_eq

private theorem newFrom_eq (exclude : ExcludeMap) (start : Component) :
    exclude.newFrom start = (above exclude start ++ started exclude start,(above exclude start).length) := by
  have high : ∀ item ∈ above exclude start, start < item.1 := fun item inside => lt_of_mem_above inside
  have low : ∀ item ∈ (upTo exclude start).head?, item.1 ≤ start := by
    intro item inside
    obtain ⟨rest,shape⟩ := List.head?_eq_some_iff.mp inside
    exact le_of_upTo shape
  conv_lhs => rw [← above_append_upTo exclude start]
  unfold newFrom started
  rw [lowerBound_split high low]
  dsimp only
  rw [hasAny_split]
  cases shape : upTo exclude start with
  | nil =>
    rw [insert_new high fun item inside => by cases inside]
    rfl
  | cons item below =>
    obtain ⟨bound,any⟩ := item
    rw [shape] at low
    cases any with
    | true => rfl
    | false =>
      rcases (low _ rfl).eq_or_lt with rfl | other
      · rw [insert_old high]
        simp
      · rw [insert_new high fun item inside => by cases inside; exact other]
        simp [other.ne]

private theorem excludeAfter_eq (exclude : ExcludeMap) (start : Component) : exclude.excludeAfter start = started exclude start := by
  unfold excludeAfter
  rw [newFrom_eq]
  change (if (above exclude start).length ≠ 0 then _ else _) = _
  split
  · simp [erase]
  · rename_i none
    rw [not_not,List.length_eq_zero_iff] at none
    rw [none]
    rfl

private theorem excludeRange_eq {exclude : ExcludeMap} (ordered : Descending exclude) {start stop : Component} (less : start < stop) :
    exclude.excludeRange start stop = coverRange exclude start stop := by
  obtain ⟨bound,rest,shape,low,-⟩ := started_eq exclude start
  have high : ∀ item ∈ above exclude stop, stop < item.1 := fun item inside => lt_of_mem_above inside
  have under : ∀ item ∈ (started exclude start).head?, item.1 < stop := by
    rw [shape]
    intro item inside
    cases inside
    exact low.trans_lt less
  have split : above exclude stop ++ (upTo (above exclude start) stop ++ started exclude start) =
      above exclude start ++ started exclude start := by
    rw [← List.append_assoc,← above_above ordered less,above_append_upTo]
  have length : (above exclude start).length = (above exclude stop).length + (upTo (above exclude start) stop).length := by
    rw [← List.length_append,← above_above ordered less,above_append_upTo]
  unfold excludeRange coverRange
  rw [newFrom_eq,← split,length]
  dsimp only
  cases middle : upTo (above exclude start) stop with
  | nil =>
    rw [List.nil_append,lowerBound_split high fun item inside => (under item inside).le,insert_new high under]
    simp only [List.length_nil,Nat.add_zero,true_or,if_true]
    exact erase_behind _ [] rfl
  | cons item others =>
    obtain ⟨key,any⟩ := item
    have here : key ≤ stop := le_of_upTo middle
    rw [List.cons_append,lowerBound_split high fun item inside => by cases inside; exact here,hasAny_split]
    cases any with
    | true =>
      simp only [List.length_cons,List.head?_cons,Option.any_some,Bool.true_eq_false,or_false,Nat.left_eq_add,
        Nat.succ_ne_zero,if_false]
      exact erase_split ((key,true) :: others) (by rw [List.length_cons])
    | false =>
      simp only [List.length_cons,List.head?_cons,Option.any_some,or_true,if_true]
      rcases here.eq_or_lt with rfl | here
      · rw [insert_old high]
        exact erase_behind _ others (by simp only [Bool.false_eq_true,if_false]; omega)
      · rw [insert_new high fun item inside => by cases inside; exact here]
        exact erase_behind _ ((key,false) :: others) (by simp only [List.length_cons,if_true]; omega)

end ExcludeMap

structure Exclude where
  entries : ExcludeMap
  ordered : Descending entries
  wire : Option Block

def Text.toString (text : Text) : String := String.ofList (text.map fun c => Char.ofNat c.toNat)

namespace Exclude

/-- `Exclude::Exclude()`, and what `clear` leaves. -/
def new : Exclude := ⟨[],List.Pairwise.nil,none⟩

def isExcluded (exclude : Exclude) (component : Component) : Bool :=
  match exclude.entries[exclude.entries.lowerBound component]? with
  | none => false
  | some (bound,any) => if any then true else bound.equals component

end Exclude

/-! What is looked up and what is inserted, on the marks. -/

theorem ExcludeMap.getElem?_lowerBound (exclude : ExcludeMap) (component : Component) :
    exclude[exclude.lowerBound component]? = floorMark exclude component := by
  have place : (above exclude component ++ upTo exclude component)[(above exclude component).length]? =
      (upTo exclude component).head? := by
    rw [List.getElem?_append_right (Nat.le_refl _),Nat.sub_self,List.head?_eq_getElem?]
  rw [above_append_upTo] at place
  exact place.trans (List.find?_not_eq_head?_dropWhile _ _).symm

theorem ExcludeMap.insert_eq {exclude : ExcludeMap} {component : Component} (fresh : ¬ Covers exclude component) :
    (exclude.insert component false).1 = coverOne exclude component := by
  have low : ∀ item ∈ (upTo exclude component).head?, item.1 < component := by
    intro item inside
    obtain ⟨rest,shape⟩ := List.head?_eq_some_iff.mp inside
    refine (le_of_upTo shape).lt_of_ne fun same => fresh ?_
    rw [← covers_upTo (le_refl component),shape]
    exact covers_cons.mpr (Or.inl ⟨same.le,Or.inr same⟩)
  conv_lhs => rw [← above_append_upTo exclude component]
  rw [insert_new (fun item inside => lt_of_mem_above inside) low]
  rfl

namespace Exclude

private theorem isExcluded_eq (exclude : Exclude) (component : Component) : exclude.isExcluded component =
    (floorMark exclude.entries component).any fun item => item.2 || item.1.equals component := by
  unfold isExcluded
  rw [ExcludeMap.getElem?_lowerBound]
  cases floorMark exclude.entries component with
  | none => rfl
  | some item =>
    obtain ⟨bound,any⟩ := item
    cases any <;> rfl

private theorem isExcluded_of_covers {exclude : Exclude} {component : Component} (covered : Covers exclude.entries component) :
    exclude.isExcluded component = true := by
  obtain ⟨item,found,covering⟩ := covered
  rw [isExcluded_eq,found,Option.any_some,Bool.or_eq_true]
  exact covering.imp_right fun same => by simp [Component.equals,same]

def excludeOne (exclude : Exclude) (component : Component) : Exclude :=
  if excluded : exclude.isExcluded component = true then exclude
  else
    have fresh : ¬ Covers exclude.entries component := mt isExcluded_of_covers excluded
    ⟨(exclude.entries.insert component false).1,
      ExcludeMap.insert_eq fresh ▸ descending_coverOne exclude.ordered fresh,none⟩

def excludeRange (exclude : Exclude) (start stop : Component) : Except String Exclude :=
  if less : start < stop then
    .ok ⟨exclude.entries.excludeRange start stop,
      ExcludeMap.excludeRange_eq exclude.ordered less ▸ descending_coverRange exclude.ordered less,none⟩
  else .error ("Invalid exclude range [" ++ start.toUri.toString ++ ", " ++ stop.toUri.toString ++ "] " ++
    "(for single name exclude use Exclude::excludeOne)")

def excludeBefore (exclude : Exclude) (stop : Component) : Except String Exclude :=
  exclude.excludeRange .empty stop

def excludeAfter (exclude : Exclude) (start : Component) : Exclude :=
  ⟨exclude.entries.excludeAfter start,
    ExcludeMap.excludeAfter_eq exclude.entries start ▸ descending_started exclude.ordered start,none⟩

def clear (_ : Exclude) : Exclude := new

inductive Operation where
  | excludeOne (component : Component)
  | excludeRange (start stop : Component)
  | excludeBefore (stop : Component)
  | excludeAfter (start : Component)
  | clear

/-- An operation that throws leaves the filter as it is. -/
def step (exclude : Exclude) : Operation → Exclude
  | .excludeOne component => exclude.excludeOne component
  | .excludeRange start stop => (exclude.excludeRange start stop).toOption.getD exclude
  | .excludeBefore stop => (exclude.excludeBefore stop).toOption.getD exclude
  | .excludeAfter start => exclude.excludeAfter start
  | .clear => exclude.clear

/-! What the operations are for. -/

def Operation.excludes : Operation → Component → Prop
  | .excludeOne component, other => other = component
  | .excludeRange start stop, other => start < stop ∧ start ≤ other ∧ other ≤ stop
  | .excludeBefore stop, other => Component.empty < stop ∧ Component.empty ≤ other ∧ other ≤ stop
  | .excludeAfter start, other => start ≤ other
  | .clear, _ => False

def meant (before : Component → Prop) : Operation → Component → Prop
  | .clear => fun _ => False
  | operation => fun component => operation.excludes component ∨ before component

def Operation.Generic : Operation → Prop
  | .excludeOne component => component.type = Tlv.NameComponent
  | .excludeRange start stop => start.type = Tlv.NameComponent ∧ stop.type = Tlv.NameComponent
  | .excludeBefore stop => stop.type = Tlv.NameComponent
  | .excludeAfter start => start.type = Tlv.NameComponent
  | .clear => True

/-- The operation is a range that begins and ends inside of one that is excluded already, which
goes on to components behind it. -/
def Shrinks (exclude : Exclude) : Operation → Prop
  | .excludeRange start stop => start < stop ∧ ∃ component, Cut exclude.entries start stop component ∧
      exclude.isExcluded component = true
  | .excludeBefore stop => Component.empty < stop ∧ ∃ component, Cut exclude.entries .empty stop component ∧
      exclude.isExcluded component = true
  | _ => False

def AllGeneric (exclude : Exclude) : Prop := ∀ item ∈ exclude.entries, item.1.type = Tlv.NameComponent

variable {exclude : Exclude}

/-- Among generic components equal octets are equal components. -/
theorem isExcluded_iff (generic : exclude.AllGeneric) (component : Component) :
    exclude.isExcluded component = true ↔ Covers exclude.entries component := by
  refine ⟨fun excluded => ?_,isExcluded_of_covers⟩
  rw [isExcluded_eq,Option.any_eq_true] at excluded
  obtain ⟨item,found,covering⟩ := excluded
  refine ⟨item,found,?_⟩
  rw [Bool.or_eq_true] at covering
  refine covering.imp_right fun same => Component.eq_of_equals ?_ same
  have low : item.1 ≤ component := by simpa using List.find?_some found
  have types := Component.type_le_of_le low
  have here := generic item (List.mem_of_find?_eq_some found)
  rw [here] at types ⊢
  rcases component.formed with general | ⟨digest,-⟩
  · exact general.symm
  · rw [digest] at types
    exact absurd types (by decide)

private theorem entries_excludeOne (component : Component) : (exclude.excludeOne component).entries =
    if exclude.isExcluded component = true then exclude.entries else coverOne exclude.entries component := by
  unfold excludeOne
  split
  · rfl
  · rename_i excluded
    exact ExcludeMap.insert_eq (mt isExcluded_of_covers excluded)

private theorem entries_excludeRange (start stop : Component) : ((exclude.excludeRange start stop).toOption.getD exclude).entries =
    if start < stop then coverRange exclude.entries start stop else exclude.entries := by
  unfold excludeRange
  split
  · rename_i less
    exact ExcludeMap.excludeRange_eq exclude.ordered less
  · rfl

private theorem entries_excludeAfter (start : Component) : (exclude.excludeAfter start).entries = started exclude.entries start :=
  ExcludeMap.excludeAfter_eq exclude.entries start

private theorem allGeneric_range {start stop : Component} (generic : exclude.AllGeneric) (first : start.type = Tlv.NameComponent)
    (last : stop.type = Tlv.NameComponent) : AllGeneric ((exclude.excludeRange start stop).toOption.getD exclude) := by
  unfold AllGeneric
  rw [entries_excludeRange]
  split
  · intro item inside
    rcases mem_coverRange inside with same | same | old
    · exact same ▸ first
    · exact same ▸ last
    · exact generic item old
  · exact generic

private theorem allGeneric_step {operation : Operation} (generic : exclude.AllGeneric) (named : operation.Generic) :
    (exclude.step operation).AllGeneric := by
  cases operation with
  | excludeOne component =>
    unfold AllGeneric
    change ∀ item ∈ (exclude.excludeOne component).entries, _
    rw [entries_excludeOne]
    split
    · exact generic
    · exact fun item inside => (mem_coverOne inside).elim (fun same => same ▸ named) (generic item)
  | excludeRange start stop => exact allGeneric_range generic named.1 named.2
  | excludeBefore stop => exact allGeneric_range generic rfl named
  | excludeAfter start =>
    unfold AllGeneric
    change ∀ item ∈ (exclude.excludeAfter start).entries, _
    rw [entries_excludeAfter]
    exact fun item inside => (mem_started inside).elim (fun same => same ▸ named) (generic item)
  | clear => exact fun item inside => absurd inside List.not_mem_nil

/-- A range excludes what it names and all that was excluded before, unless it shrinks that. -/
theorem range_exact {start stop : Component} (generic : exclude.AllGeneric) (first : start.type = Tlv.NameComponent)
    (last : stop.type = Tlv.NameComponent) :
    (∀ component, ((exclude.excludeRange start stop).toOption.getD exclude).isExcluded component = true ↔
        (start < stop ∧ start ≤ component ∧ component ≤ stop) ∨ exclude.isExcluded component = true) ↔
      ¬ (start < stop ∧ ∃ component, Cut exclude.entries start stop component ∧ exclude.isExcluded component = true) := by
  simp only [isExcluded_iff (allGeneric_range generic first last),isExcluded_iff generic,entries_excludeRange]
  by_cases less : start < stop
  · simp only [less,if_true,true_and,covers_coverRange exclude.ordered less]
    constructor
    · rintro same ⟨component,cut,covered⟩
      rcases (same component).mpr (Or.inr covered) with ⟨-,inside⟩ | ⟨-,whole⟩
      · exact not_lt.mpr inside cut.1
      · exact whole cut
    · intro whole component
      refine or_congr_right ⟨And.left,fun covered => ⟨covered,fun cut => whole ⟨component,cut,covered⟩⟩⟩
  · simp [less]

theorem step_exact {operation : Operation} (generic : exclude.AllGeneric) (named : operation.Generic) :
    (∀ component, (exclude.step operation).isExcluded component = true ↔
        meant (fun other => exclude.isExcluded other = true) operation component) ↔ ¬ exclude.Shrinks operation := by
  have after := allGeneric_step generic named
  cases operation with
  | excludeOne added =>
    refine iff_of_true (fun component => ?_) not_false
    rw [isExcluded_iff after]
    change Covers (exclude.excludeOne added).entries component ↔ component = added ∨ exclude.isExcluded component = true
    rw [entries_excludeOne,isExcluded_iff generic component]
    split
    · rename_i excluded
      rw [isExcluded_iff generic] at excluded
      exact ⟨Or.inr,fun either => either.elim (fun same => same ▸ excluded) id⟩
    · rename_i fresh
      rw [isExcluded_iff generic] at fresh
      exact covers_coverOne fresh
  | excludeRange start stop => exact range_exact generic named.1 named.2
  | excludeBefore stop => exact range_exact generic rfl named
  | excludeAfter start =>
    refine iff_of_true (fun component => ?_) not_false
    rw [isExcluded_iff after]
    change Covers (exclude.excludeAfter start).entries component ↔ start ≤ component ∨ exclude.isExcluded component = true
    rw [entries_excludeAfter,isExcluded_iff generic]
    exact covers_started
  | clear =>
    refine iff_of_true (fun component => iff_of_false ?_ not_false) not_false
    change ¬ new.isExcluded component = true
    exact Bool.false_ne_true

/-- After every operation of a run the filter excludes what the operations name together, exactly
when none of them is a range that shrinks what is excluded. -/
theorem isExcluded_run (operations : List Operation) (named : ∀ operation ∈ operations, operation.Generic) :
    (∀ before, before <+: operations → (fun component => (run step new before).isExcluded component = true) =
        run meant (fun _ => False) before) ↔
      Steps step (fun exclude operation => ¬ exclude.Shrinks operation) new operations := by
  have start : (fun _ => False) = fun component => new.isExcluded component = true := by
    funext component
    exact (eq_false Bool.false_ne_true).symm
  have generic : Steps step (fun _ operation => operation.Generic) new operations := by
    intro before operation inside
    exact named operation (inside.subset (List.mem_append_right _ (List.mem_singleton_self operation)))
  -- among generic entries each step is as meant exactly when it does not shrink
  have same : ∀ exclude operation, exclude.AllGeneric →
      (((fun component => (step exclude operation).isExcluded component = true) =
          meant (fun component => exclude.isExcluded component = true) operation ∧ operation.Generic) ↔
        (¬ exclude.Shrinks operation ∧ operation.Generic)) := by
    intro exclude operation every
    refine and_congr_left fun named => ?_
    rw [← step_exact every named,funext_iff]
    exact forall_congr' fun component => eq_iff_iff
  have start' : new.AllGeneric := fun item inside => absurd inside List.not_mem_nil
  have steps := @steps_congr _ _ step _ _ _ (fun exclude operation every holds => allGeneric_step every holds.2) same
    new operations start'
  rw [steps_and,steps_and,and_iff_left generic,and_iff_left generic] at steps
  rw [start,← steps]
  exact @agrees_iff_steps _ _ step _ (fun exclude component => exclude.isExcluded component = true) meant new operations

/-- Everything from the empty component on is excluded, then a range inside of that. -/
theorem isExcluded_run_inside :
    let operations := [Operation.excludeAfter .empty,.excludeRange (.generic [1]) (.generic [2])]
    (∀ before, before <+: operations → (fun component => (run step new before).isExcluded component = true) =
        run meant (fun _ => False) before) ↔
      Steps step (fun exclude operation => ¬ exclude.Shrinks operation) new operations :=
  isExcluded_run _ (by simp [Operation.Generic,Component.empty,Component.generic])

/-- The range has cut off what comes behind it. -/
example : (run step new [.excludeAfter .empty,.excludeRange (.generic [1]) (.generic [2])]).isExcluded (.generic [3]) =
    false := by decide

end Exclude

end Ncfcc.NdnCxx
