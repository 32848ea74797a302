import Mathlib.Data.Prod.Lex
import Ncfcc.Library.Ranked
import Ncfcc.Cs.HandedNodes

/-! Which Data a full store gives up for a new one, by the times at which the stored Data were
inserted and hit and by how often they were. -/
namespace Ncfcc.Cs
open Ncfcc.Library Ncfcc.Utils

/-! What an insertion into a store with a single policy does. -/

namespace ContentStoreImpl
section
variable {store : ContentStoreImpl} (call : Call) (layout : Trie.Layout Component Entry) (data : FreshData)

def entryFor (store : ContentStoreImpl) (data : FreshData) : Entry := ⟨data,store.created⟩

private theorem add_linked (sound : store.Sound) (free : store.trie.get data.name = none) {member : MemberPolicy}
    (single : store.policies = [member]) (accepts : member.rejects call = false) :
    (store.add call layout data).1 = true ∧
      (store.add call layout data).2.trie = ((store.entered layout data).makeRoom call.now member).trie ∧
      (store.add call layout data).2.policies =
        ((store.entered layout data).makeRoom call.now member).policies.modify 0 (MemberPolicy.link · call (store.entryFor data)) := by
  have taken := (asked_one call layout data single).2 accepts
  have answer : (store.asked call layout data).1 = true := by rw [taken]
  rw [add_accepted call layout data sound free answer,taken]
  exact ⟨rfl,rfl,rfl⟩

variable {member : MemberPolicy} (all : ∀ entry, member.traits.controls entry = true)
include all

private theorem link_controlled (entry : Entry) : member.link call entry =
    { member with items := member.traits.link (entry.data.name,member.traits.hook call entry) member.items } := by
  unfold MemberPolicy.link
  rw [if_pos (all entry)]

variable (single : store.policies = [member])
include single

private theorem add_roomy (sound : store.Sound) (free : store.trie.get data.name = none) (accepts : member.rejects call = false)
    (roomy : member.full = false) :
    (store.add call layout data).1 = true ∧
      (store.add call layout data).2.trie.get = Function.update store.trie.get data.name (some (store.entryFor data)) ∧
      (store.add call layout data).2.policies = [{ member with
        items := member.traits.link (data.name,member.traits.hook call (store.entryFor data)) member.items }] := by
  obtain ⟨taken,trie,policies⟩ := add_linked call layout data sound free single accepts
  rw [makeRoom_unlimited call.now (by rw [roomy,Bool.and_false])] at trie policies
  refine ⟨taken,?_,?_⟩
  · rw [trie]
    exact (entered_trie layout data sound free).2
  · rw [policies]
    change store.policies.modify 0 _ = _
    rw [single]
    exact congrArg (fun changed => [changed]) (link_controlled call all (store.entryFor data))

/-- The first node of a full container is given up. -/
theorem add_evicting (sound : store.Sound) (free : store.trie.get data.name = none) (accepts : member.rejects call = false)
    (limited : member.traits.limited = true) (filled : member.full = true) {victim : Item} {rest : List Item}
    (items : member.items = victim :: rest) :
    (store.add call layout data).1 = true ∧
      (store.add call layout data).2.trie.get = Function.update (Function.update store.trie.get victim.1 none) data.name
        (some (store.entryFor data)) ∧
      (store.add call layout data).2.policies = [{ member with
        items := member.traits.link (data.name,member.traits.hook call (store.entryFor data)) rest }] := by
  obtain ⟨taken,trie,policies⟩ := add_linked call layout data sound free single accepts
  obtain ⟨entry,-,named,apart,stored⟩ := entered_victim layout data sound free
    (by rw [single]; exact List.mem_cons_self) items
  have room := makeRoom_first (store.entered layout data) call.now (by rw [limited,filled]; rfl) items
  have whole := (entered_sound layout data sound free).wellFormed
  rw [room] at trie policies
  have erased : member.erase entry = { member with items := rest } := by
    have left := member.erase_first entry (all entry) items named
    unfold MemberPolicy.erase at left ⊢
    rw [if_pos (all entry)] at left ⊢
    exact congrArg (fun items => { member with items }) left
  refine ⟨taken,?_,?_⟩
  · rw [trie,erase_trie call.now victim.1 whole,(entered_trie layout data sound free).2,Function.update_comm apart]
    rfl
  · rw [policies,erase_policies,stored]
    change (store.policies.map _).modify 0 _ = _
    rw [single]
    change [(member.erase entry).link call (store.entryFor data)] = _
    rw [erased]
    apply congrArg fun changed => [changed]
    apply link_controlled
    exact all

end
end ContentStoreImpl

/-- The replacement policies that go by the history of the store. -/
inductive Discipline where
  | lru
  | fifo
  | lfu
  deriving DecidableEq

def Discipline.replacement : Discipline → Replacement
  | lru => .lru
  | fifo => .fifo
  | lfu => .lfu

inductive Request where
  | add (call : Call) (layout : Trie.Layout Component Entry) (data : FreshData)
  | lookup (interest : Interest)

/-- A store with its history: how many requests there were, and for each name the request that inserted it
last, the one that inserted or hit it last, and how often it was hit since it was inserted. -/
structure Recorded where
  store : ContentStoreImpl
  time : Nat
  inserted : Name → Nat
  lastUse : Name → Nat
  hits : Name → Nat

namespace Recorded

def new (discipline : Discipline) (maxSize : Nat) : Recorded where
  store := (ContentStoreImpl.new (StoreClass.impl.traits discipline.replacement)).setMaxSize maxSize
  time := 0
  inserted _ := 0
  lastUse _ := 0
  hits _ := 0

def added (recorded : Recorded) (name : Name) (result : Bool × ContentStoreImpl) : Recorded :=
  if result.1 then
    { store := result.2
      time := recorded.time + 1
      inserted := Function.update recorded.inserted name recorded.time
      lastUse := Function.update recorded.lastUse name recorded.time
      hits := Function.update recorded.hits name 0 }
  else { recorded with store := result.2, time := recorded.time + 1 }

def looked (recorded : Recorded) (result : Option Entry × ContentStoreImpl) : Recorded :=
  match result.1 with
  | none => { recorded with store := result.2, time := recorded.time + 1 }
  | some entry =>
    { recorded with
      store := result.2
      time := recorded.time + 1
      lastUse := Function.update recorded.lastUse entry.data.name recorded.time
      hits := Function.update recorded.hits entry.data.name (recorded.hits entry.data.name + 1) }

def step (recorded : Recorded) : Request → Option Recorded
  | .add call layout data => some (recorded.added data.name (recorded.store.add call layout data))
  | .lookup interest => (recorded.store.lookup interest).map recorded.looked

def Holds (recorded : Recorded) (name : Name) : Prop := recorded.store.trie.get name ≠ none

/-- The order in which stored Data are to be given up: by their last insertion or hit, by their
insertion, or by their hits and then by when they had so many. -/
def rank (recorded : Recorded) (discipline : Discipline) (name : Name) : Nat ×ₗ Nat :=
  match discipline with
  | .lru => toLex (0,recorded.lastUse name)
  | .fifo => toLex (0,recorded.inserted name)
  | .lfu => toLex (recorded.hits name,recorded.lastUse name)

/-- A new name is added, for the first of all stored Data if the store is full and for none if it is
not. A lookup is defined and removes nothing. -/
def Replaces (discipline : Discipline) (maxSize : Nat) (recorded : Recorded) : Request → Prop
  | .add call layout data =>
    let store := recorded.store
    let after := (store.add call layout data).2
    store.trie.get data.name = none → (store.add call layout data).1 = true ∧
      if store.getSize = maxSize then
        ∃ victim, recorded.Holds victim ∧
          (∀ other, recorded.Holds other → other ≠ victim → recorded.rank discipline victim < recorded.rank discipline other) ∧
          after.trie.get = Function.update (Function.update store.trie.get victim none) data.name (some ⟨data,store.created⟩)
      else after.trie.get = Function.update store.trie.get data.name (some ⟨data,store.created⟩)
  | .lookup interest => ∃ answer after, recorded.store.lookup interest = some (answer,after) ∧
    after.trie = recorded.store.trie

/-- Hits are counted exactly below `2^53`: a full store has a name with fewer of them, or one that has
the fewest and was also used before all others. A policy that dereferences its iterator is not given the end. -/
def Counts (discipline : Discipline) (maxSize : Nat) (recorded : Recorded) : Request → Prop
  | .add _ _ data => discipline = .lfu → recorded.store.trie.get data.name = none → recorded.store.getSize = maxSize →
    (∃ name, recorded.Holds name ∧ recorded.hits name < 2^53) ∨
      ∃ name, recorded.Holds name ∧ ∀ other, recorded.Holds other → other ≠ name →
        recorded.hits name ≤ recorded.hits other ∧ recorded.lastUse name < recorded.lastUse other
  | .lookup interest => discipline ≠ .fifo →
    ¬ (interest.exclude.empty = true ∧ interest.name = [] ∧ ∀ name, ¬ recorded.Holds name)

/-! What the containers are ordered by: the ranks, with hits counted up to `2^53`. -/

def counted (recorded : Recorded) (discipline : Discipline) (name : Name) : Nat ×ₗ Nat :=
  match discipline with
  | .lru => toLex (0,recorded.lastUse name)
  | .fifo => toLex (0,recorded.inserted name)
  | .lfu => toLex (min (recorded.hits name) (2^53),recorded.lastUse name)

/-- The items are in their order, those with a frequency have the right one, and all uses are past. -/
structure Tracked (discipline : Discipline) (recorded : Recorded) (items : List Item) : Prop where
  ascending : Ascending (recorded.counted discipline) (items.map Prod.fst)
  frequency : discipline = .lfu → ∀ item ∈ items, item.2 = ((min (recorded.hits item.1) (2^53) : Nat) : Int)
  past : ∀ item ∈ items, recorded.inserted item.1 < recorded.time ∧ recorded.lastUse item.1 < recorded.time

structure Uses (recorded after : Recorded) (name : Name) : Prop where
  time : after.time = recorded.time + 1
  lastUse : after.lastUse = Function.update recorded.lastUse name recorded.time
  inserted : ∀ other, other ≠ name → after.inserted other = recorded.inserted other
  hits : ∀ other, other ≠ name → after.hits other = recorded.hits other

section
variable {discipline : Discipline} {recorded after : Recorded} {name : Name} {items : List Item}

theorem Uses.counted (uses : Uses recorded after name) {other : Name} (apart : other ≠ name) :
    after.counted discipline other = recorded.counted discipline other := by
  have lastUse : after.lastUse other = recorded.lastUse other := by
    rw [uses.lastUse,Function.update_of_ne apart]
  unfold Recorded.counted
  rw [lastUse,uses.inserted other apart,uses.hits other apart]

theorem Tracked.sublist (tracked : Tracked discipline recorded items) {fewer : List Item} (part : fewer.Sublist items) :
    Tracked discipline recorded fewer :=
  ⟨tracked.ascending.sublist (part.map Prod.fst),fun lfu item inside => tracked.frequency lfu item (part.subset inside),
    fun item inside => tracked.past item (part.subset inside)⟩

theorem Tracked.others (tracked : Tracked discipline recorded items) (uses : Uses recorded after name)
    (absent : name ∉ items.map Prod.fst) : Tracked discipline after items := by
  have apart : ∀ item ∈ items, item.1 ≠ name := fun item inside same => absent (same ▸ List.mem_map_of_mem inside)
  refine ⟨?_,?_,?_⟩
  · apply tracked.ascending.congr
    intro other inside
    apply uses.counted
    exact fun same => absent (same ▸ inside)
  · intro lfu item inside
    rw [uses.hits item.1 (apart item inside)]
    exact tracked.frequency lfu item inside
  · intro item inside
    obtain ⟨inserted,used⟩ := tracked.past item inside
    rw [uses.time,uses.inserted item.1 (apart item inside),uses.lastUse,Function.update_of_ne (apart item inside)]
    exact ⟨Nat.lt_succ_of_lt inserted,Nat.lt_succ_of_lt used⟩

theorem Tracked.link (tracked : Tracked discipline recorded items) (uses : Uses recorded after name)
    (absent : name ∉ items.map Prod.fst) (moved : discipline = .fifo → after.inserted name = recorded.time)
    (entered : after.inserted name ≤ recorded.time) (frequency : Int)
    (count : discipline = .lfu → frequency = ((min (after.hits name) (2^53) : Nat) : Int)) :
    Tracked discipline after (discipline.replacement.traits.link (name,frequency) items) := by
  have others := tracked.others uses absent
  have linked := discipline.replacement.traits.link_perm (name,frequency) items
  have own : after.lastUse name = recorded.time := by rw [uses.lastUse,Function.update_self]
  have before : ∀ item ∈ items, after.inserted item.1 < recorded.time ∧ after.lastUse item.1 < recorded.time := by
    intro item inside
    have apart : item.1 ≠ name := fun same => absent (same ▸ List.mem_map_of_mem inside)
    rw [uses.inserted item.1 apart,uses.lastUse,Function.update_of_ne apart]
    exact tracked.past item inside
  have push : (∀ item ∈ items, after.counted discipline item.1 < after.counted discipline name) →
      Ascending (after.counted discipline) ((pushBack (name,frequency) items).map Prod.fst) := by
    intro greatest
    unfold pushBack
    rw [List.map_append]
    apply others.ascending.concat
    intro other inside
    obtain ⟨item,member,rfl⟩ := List.mem_map.mp inside
    exact greatest item member
  refine ⟨?_,?_,?_⟩
  · cases discipline with
    | lru =>
      apply push
      intro item inside
      refine Prod.Lex.toLex_lt_toLex.mpr (Or.inr ⟨rfl,?_⟩)
      dsimp only
      rw [own]
      exact (before item inside).2
    | fifo =>
      apply push
      intro item inside
      refine Prod.Lex.toLex_lt_toLex.mpr (Or.inr ⟨rfl,?_⟩)
      dsimp only
      rw [moved rfl]
      exact (before item inside).1
    | lfu =>
      apply Ascending.place others.ascending
      · intro item inside earlier
        refine Prod.Lex.toLex_lt_toLex.mpr (Or.inl ?_)
        rw [count rfl,others.frequency rfl item inside] at earlier
        exact Int.ofNat_lt.mp earlier
      · intro item inside later
        refine Prod.Lex.toLex_lt_toLex.mpr ?_
        rw [count rfl,others.frequency rfl item inside,Int.ofNat_lt,not_lt] at later
        dsimp only
        rw [own]
        exact (Nat.lt_or_eq_of_le later).imp id fun same => ⟨same,(before item inside).2⟩
  · intro lfu item inside
    rcases List.mem_cons.mp (linked.mem_iff.mp inside) with rfl | old
    · exact count lfu
    · exact others.frequency lfu item old
  · intro item inside
    rcases List.mem_cons.mp (linked.mem_iff.mp inside) with rfl | old
    · dsimp only
      rw [own,uses.time]
      exact ⟨Nat.lt_succ_of_le entered,Nat.lt_succ_self _⟩
    · exact others.past item old

private theorem find_of_mem (inside : name ∈ items.map Prod.fst) :
    ∃ frequency, (items.find? fun item => item.1 = name) = some (name,frequency) := by
  obtain ⟨other,member,same⟩ := List.mem_map.mp inside
  cases found : items.find? fun item => item.1 = name with
  | none => exact absurd (decide_eq_true same) (List.find?_eq_none.mp found other member)
  | some item =>
    have named := List.find?_some found
    exact ⟨item.2,by rw [← of_decide_eq_true named]⟩

/-- A hit moves the node to where it belongs now. -/
theorem Tracked.lookup (tracked : Tracked discipline recorded items) (uses : Uses recorded after name)
    (inside : name ∈ items.map Prod.fst) (inserted : after.inserted = recorded.inserted)
    (hit : after.hits name = recorded.hits name + 1) :
    Tracked discipline after (discipline.replacement.traits.lookup name items) := by
  obtain ⟨frequency,found⟩ := find_of_mem inside
  have member := List.mem_of_find?_eq_some found
  have rest : Tracked discipline recorded (unlink name items) := tracked.sublist List.eraseP_sublist
  have absent : name ∉ (unlink name items).map Prod.fst := by
    rw [unlink_names]
    exact tracked.ascending.nodup.not_mem_erase
  have entered : after.inserted name ≤ recorded.time := by
    rw [inserted]
    exact (tracked.past _ member).1.le
  cases discipline with
  | lru =>
    have linked := rest.link uses absent (by simp) entered frequency (by simp)
    change Tracked .lru after (splice name items)
    unfold splice
    rw [found]
    exact linked
  | fifo =>
    refine ⟨?_,by simp,?_⟩
    · apply tracked.ascending.congr
      intro other _
      unfold counted
      rw [inserted]
    · intro item there
      obtain ⟨before,used⟩ := tracked.past item there
      rw [inserted,uses.time,uses.lastUse,Function.update_apply]
      refine ⟨Nat.lt_succ_of_lt before,?_⟩
      split
      · exact Nat.lt_succ_self _
      · exact Nat.lt_succ_of_lt used
  | lfu =>
    have own := tracked.frequency rfl _ member
    dsimp only at own
    have linked := rest.link uses absent (by simp) entered (min (frequency + 1) (2^53)) (by
      intro _
      rw [hit,own]
      omega)
    change Tracked .lfu after (recount name items)
    unfold recount
    rw [found]
    exact linked

end

/-! The stores of a run. -/

/-- The store has one policy, within its limit, that tracks the history. -/
structure Kept (discipline : Discipline) (maxSize : Nat) (items : List Item) (recorded : Recorded) : Prop where
  sound : recorded.store.Sound
  single : recorded.store.policies = [⟨discipline.replacement.traits,maxSize,items⟩]
  tracked : Tracked discipline recorded items
  limited : items.length ≤ maxSize

private theorem controls_all (discipline : Discipline) (entry : Entry) : discipline.replacement.traits.controls entry = true := by
  cases discipline <;> rfl

private theorem accepts_all (discipline : Discipline) (maxSize : Nat) (items : List Item) (call : Call) :
    MemberPolicy.rejects ⟨discipline.replacement.traits,maxSize,items⟩ call = false := by
  cases discipline <;> rfl

private theorem limited_all (discipline : Discipline) : discipline.replacement.traits.limited = true := by
  cases discipline <;> rfl

section
variable {discipline : Discipline} {maxSize : Nat} {items : List Item} {recorded : Recorded}

theorem Kept.getSize (kept : Kept discipline maxSize items recorded) : recorded.store.getSize = items.length := by
  unfold ContentStoreImpl.getSize
  rw [kept.single]
  rfl

theorem Kept.mem_iff (kept : Kept discipline maxSize items recorded) (name : Name) :
    name ∈ items.map Prod.fst ↔ recorded.Holds name := by
  have holds := kept.sound.holds ⟨discipline.replacement.traits,maxSize,items⟩ (by rw [kept.single]; exact List.mem_cons_self)
  refine (holds.exactly name).trans ?_
  rw [Holds,Option.ne_none_iff_exists']
  simp [controls_all]

theorem Kept.full_iff (kept : Kept discipline maxSize items recorded) (positive : 0 < maxSize) :
    MemberPolicy.full ⟨discipline.replacement.traits,maxSize,items⟩ = true ↔ recorded.store.getSize = maxSize := by
  rw [ContentStoreImpl.full_iff _ positive.ne',kept.getSize]
  exact ⟨fun reached => le_antisymm kept.limited reached,fun same => same.ge⟩

/-- What new Data find in the store: room, or a first node to be given up. -/
theorem Kept.add_free (kept : Kept discipline maxSize items recorded) (positive : 0 < maxSize) (call : Call)
    (layout : Trie.Layout Component Entry) {data : FreshData} (free : recorded.store.trie.get data.name = none) :
    (recorded.store.add call layout data).1 = true ∧ ∃ rest,
      (recorded.store.add call layout data).2.policies = [⟨discipline.replacement.traits,maxSize,
        discipline.replacement.traits.link (data.name,discipline.replacement.traits.hook call (recorded.store.entryFor data)) rest⟩] ∧
      rest.length < maxSize ∧
      if recorded.store.getSize = maxSize then ∃ victim, items = victim :: rest ∧
        (recorded.store.add call layout data).2.trie.get = Function.update (Function.update recorded.store.trie.get victim.1 none)
          data.name (some (recorded.store.entryFor data))
      else items = rest ∧ (recorded.store.add call layout data).2.trie.get =
        Function.update recorded.store.trie.get data.name (some (recorded.store.entryFor data)) := by
  have full := kept.full_iff positive
  have all := controls_all discipline
  have accepts := accepts_all discipline maxSize items call
  by_cases filled : recorded.store.getSize = maxSize
  · have length := kept.getSize.symm.trans filled
    cases split : items with
    | nil =>
      rw [split,List.length_nil] at length
      omega
    | cons victim rest =>
      rw [split,List.length_cons] at length
      obtain ⟨taken,trie,policies⟩ := ContentStoreImpl.add_evicting call layout data all kept.single kept.sound free accepts
        (limited_all discipline) (full.mpr filled) split
      refine ⟨taken,rest,policies,by omega,?_⟩
      rw [if_pos filled]
      exact ⟨victim,rfl,trie⟩
  · obtain ⟨taken,trie,policies⟩ := ContentStoreImpl.add_roomy call layout data all kept.single kept.sound free accepts
      (Bool.eq_false_iff.mpr fun reached => filled (full.mp reached))
    have length := kept.getSize
    have limited := kept.limited
    refine ⟨taken,items,policies,by omega,?_⟩
    rw [if_neg filled]
    exact ⟨rfl,trie⟩

private theorem added_uses (recorded : Recorded) (name : Name) {result : Bool × ContentStoreImpl} (taken : result.1 = true) :
    Uses recorded (recorded.added name result) name ∧ (recorded.added name result).inserted name = recorded.time ∧
      (recorded.added name result).hits name = 0 ∧ (recorded.added name result).store = result.2 := by
  unfold added
  rw [if_pos taken]
  refine ⟨⟨rfl,rfl,?_,?_⟩,Function.update_self ..,Function.update_self ..,rfl⟩
  · exact fun other apart => Function.update_of_ne apart ..
  · exact fun other apart => Function.update_of_ne apart ..

theorem Kept.add (kept : Kept discipline maxSize items recorded) (positive : 0 < maxSize) (call : Call)
    (layout : Trie.Layout Component Entry) (data : FreshData) :
    ∃ after, Kept discipline maxSize after (recorded.added data.name (recorded.store.add call layout data)) := by
  have sound := kept.sound.add call layout data
  cases stored : recorded.store.trie.get data.name with
  | some old =>
    have same := ContentStoreImpl.add_occupied call layout data kept.sound stored
    unfold added
    rw [same] at sound ⊢
    refine ⟨items,sound,kept.single,⟨kept.tracked.ascending,kept.tracked.frequency,?_⟩,kept.limited⟩
    intro item inside
    obtain ⟨inserted,used⟩ := kept.tracked.past item inside
    exact ⟨Nat.lt_succ_of_lt inserted,Nat.lt_succ_of_lt used⟩
  | none =>
    obtain ⟨taken,rest,policies,room,outcome⟩ := kept.add_free positive call layout stored
    obtain ⟨uses,inserted,hits,store⟩ := added_uses recorded data.name taken
    have part : rest.Sublist items := by
      split at outcome
      · obtain ⟨victim,rfl,-⟩ := outcome
        exact List.sublist_cons_self victim rest
      · rw [outcome.1]
    have absent : data.name ∉ rest.map Prod.fst := fun inside =>
      (kept.mem_iff data.name).mp ((part.map Prod.fst).subset inside) stored
    have tracked := (kept.tracked.sublist part).link uses absent (fun _ => inserted) inserted.le
      (discipline.replacement.traits.hook call (recorded.store.entryFor data)) (by
        rintro rfl
        rw [hits]
        rfl)
    refine ⟨_,?_,?_,tracked,?_⟩
    · rw [store]
      exact sound
    · rw [store]
      exact policies
    · rw [(discipline.replacement.traits.link_perm _ rest).length_eq]
      exact room

private theorem looked_uses (recorded : Recorded) (entry : Entry) (after : ContentStoreImpl) :
    Uses recorded (recorded.looked (some entry,after)) entry.data.name :=
  ⟨rfl,rfl,fun _ _ => rfl,fun _ apart => Function.update_of_ne apart ..⟩

theorem Kept.lookup (kept : Kept discipline maxSize items recorded) {interest : Interest}
    {result : Option Entry × ContentStoreImpl} (taken : recorded.store.lookup interest = some result) :
    ∃ after, Kept discipline maxSize after (recorded.looked result) := by
  have later : Kept discipline maxSize items (recorded.looked (none,recorded.store)) := by
    refine ⟨kept.sound,kept.single,⟨kept.tracked.ascending,kept.tracked.frequency,?_⟩,kept.limited⟩
    intro item inside
    obtain ⟨inserted,used⟩ := kept.tracked.past item inside
    exact ⟨Nat.lt_succ_of_lt inserted,Nat.lt_succ_of_lt used⟩
  have sound := (kept.sound.lookup taken).1
  rw [ContentStoreImpl.lookup_eq] at taken
  cases handed : recorded.store.handed interest with
  | none =>
    rw [handed] at taken
    cases taken
    exact ⟨items,later⟩
  | some item =>
    rw [handed] at taken
    cases item with
    | none =>
      dsimp only at taken
      split at taken
      · cases taken
      · cases taken
        exact ⟨items,later⟩
    | some node =>
      obtain ⟨path,entry⟩ := node
      cases taken
      have stored := (ContentStoreImpl.handed_spec kept.sound interest).2 path entry handed
      have named := kept.sound.named path entry stored
      subst named
      have inside : entry.data.name ∈ items.map Prod.fst := by
        rw [kept.mem_iff,Holds,stored]
        exact Option.some_ne_none entry
      have tracked := kept.tracked.lookup (looked_uses recorded entry (recorded.store.touched entry.data.name)) inside rfl (Function.update_self ..)
      refine ⟨_,sound,?_,tracked,?_⟩
      · change recorded.store.policies.map _ = _
        rw [kept.single]
        rfl
      · have keys := discipline.replacement.traits.lookup_keys entry.data.name items
        have length := keys.length_eq
        rw [List.length_map,List.length_map] at length
        rw [length]
        exact kept.limited

theorem Kept.step (kept : Kept discipline maxSize items recorded) (positive : 0 < maxSize) {request : Request}
    {next : Recorded} (stepped : recorded.step request = some next) : ∃ after, Kept discipline maxSize after next := by
  cases request with
  | add call layout data =>
    cases stepped
    exact kept.add positive call layout data
  | lookup interest =>
    obtain ⟨result,taken,rfl⟩ := Option.map_eq_some_iff.mp stepped
    exact kept.lookup taken

/-- The first node of the container comes before all others in the order of the container. -/
theorem Kept.first (kept : Kept discipline maxSize items recorded) {victim : Item} {rest : List Item}
    (split : items = victim :: rest) : recorded.Holds victim.1 ∧ ∀ other, recorded.Holds other → other ≠ victim.1 →
      recorded.counted discipline victim.1 < recorded.counted discipline other := by
  subst split
  refine ⟨(kept.mem_iff victim.1).mp List.mem_cons_self,?_⟩
  intro other holds apart
  rcases List.mem_cons.mp ((kept.mem_iff other).mpr holds) with same | below
  · exact absurd same apart
  · exact List.rel_of_pairwise_cons kept.tracked.ascending below

/-- The counted order has the first of all Data first exactly if the frequencies tell them apart. -/
theorem least_iff {victim : Name} (holds : recorded.Holds victim)
    (least : ∀ other, recorded.Holds other → other ≠ victim →
      recorded.counted discipline victim < recorded.counted discipline other) :
    (∀ other, recorded.Holds other → other ≠ victim → recorded.rank discipline victim < recorded.rank discipline other) ↔
      (discipline = .lfu → (∃ name, recorded.Holds name ∧ recorded.hits name < 2^53) ∨
        ∃ name, recorded.Holds name ∧ ∀ other, recorded.Holds other → other ≠ name →
          recorded.hits name ≤ recorded.hits other ∧ recorded.lastUse name < recorded.lastUse other) := by
  cases discipline with
  | lru => exact iff_of_true least (by simp)
  | fifo => exact iff_of_true least (by simp)
  | lfu =>
    unfold counted at least
    unfold rank
    simp only [Prod.Lex.toLex_lt_toLex] at least ⊢
    constructor
    · intro fewest _
      by_cases uncapped : ∃ name, recorded.Holds name ∧ recorded.hits name < 2^53
      · exact Or.inl uncapped
      · refine Or.inr ⟨victim,holds,?_⟩
        intro other there apart
        have own : ¬ recorded.hits victim < 2^53 := fun less => uncapped ⟨victim,holds,less⟩
        have its : ¬ recorded.hits other < 2^53 := fun less => uncapped ⟨other,there,less⟩
        have ordered := least other there apart
        have fewer := fewest other there apart
        omega
    · intro counts other there apart
      have ordered := least other there apart
      rcases counts trivial with ⟨name,inside,less⟩ | ⟨name,inside,first⟩
      · have below : recorded.hits victim < 2^53 := by
          by_cases same : name = victim
          · exact same ▸ less
          · have before := least name inside same
            omega
        omega
      · have same : name = victim := by
          by_contra different
          have before := least name inside different
          have after := first victim holds (Ne.symm different)
          omega
        subst same
        have after := first other there apart
        omega

/-- A step does what it should exactly if the frequencies tell the stored Data apart. -/
theorem Kept.replaces_iff (kept : Kept discipline maxSize items recorded) (positive : 0 < maxSize) (request : Request) :
    recorded.Replaces discipline maxSize request ↔ recorded.Counts discipline maxSize request := by
  cases request with
  | add call layout data =>
    unfold Replaces Counts
    dsimp only
    cases free : recorded.store.trie.get data.name with
    | some old => simp
    | none =>
      obtain ⟨taken,rest,-,-,outcome⟩ := kept.add_free positive call layout free
      by_cases full : recorded.store.getSize = maxSize
      · rw [if_pos full] at outcome
        obtain ⟨victim,split,trie⟩ := outcome
        obtain ⟨holds,least⟩ := kept.first split
        have order := least_iff holds least
        constructor
        · intro replaces lfu _ _
          obtain ⟨-,removed⟩ := replaces rfl
          rw [if_pos full] at removed
          obtain ⟨other,there,fewest,same⟩ := removed
          -- the name that is gone is that of the first node
          have equal : other = victim.1 := by
            by_contra apart
            have fresh : other ≠ data.name := fun here => there (here ▸ free)
            have values := congrFun (trie.symm.trans same) other
            rw [Function.update_of_ne fresh,Function.update_of_ne apart,Function.update_of_ne fresh,Function.update_self] at values
            exact there values
          subst equal
          exact order.mp fewest lfu
        · intro counts _
          refine ⟨taken,?_⟩
          rw [if_pos full]
          exact ⟨victim.1,holds,order.mpr fun lfu => counts lfu rfl full,trie⟩
      · rw [if_neg full] at outcome ⊢
        exact iff_of_true (fun _ => ⟨taken,outcome.2⟩) (fun _ _ same => absurd same full)
  | lookup interest =>
    unfold Replaces Counts
    dsimp only
    obtain ⟨atEnd,-⟩ := ContentStoreImpl.handed_spec kept.sound interest
    have empty : (∀ name, ¬ recorded.Holds name) ↔ ∀ name, recorded.store.trie.get name = none :=
      forall_congr' fun name => not_not
    rw [empty,← atEnd,ContentStoreImpl.lookup_eq]
    cases handed : recorded.store.handed interest with
    | none => exact iff_of_true ⟨none,recorded.store,rfl,rfl⟩ (by simp)
    | some item =>
      cases item with
      | none =>
        rw [kept.single]
        cases discipline with
        | lru =>
          apply iff_of_false
          · rintro ⟨_,_,impossible,_⟩
            cases impossible
          · simp
        | fifo => exact iff_of_true ⟨none,recorded.store,rfl,rfl⟩ (by simp)
        | lfu =>
          apply iff_of_false
          · rintro ⟨_,_,impossible,_⟩
            cases impossible
          · simp
      | some node => exact iff_of_true ⟨some node.2,recorded.store.touched node.1,rfl,rfl⟩ (by simp)

theorem new_kept (discipline : Discipline) (maxSize : Nat) : Kept discipline maxSize [] (new discipline maxSize) := by
  refine ⟨(ContentStoreImpl.new_sound _).setMaxSize maxSize,rfl,⟨List.Pairwise.nil,?_,?_⟩,Nat.zero_le _⟩
  · exact fun _ item inside => absurd inside List.not_mem_nil
  · exact fun item inside => absurd inside List.not_mem_nil

end

private theorem run_kept {discipline : Discipline} {maxSize : Nat} (positive : 0 < maxSize) {requests : List Request} {recorded : Recorded}
    (reached : run (attempt step) (some (new discipline maxSize)) requests = some recorded) :
    ∃ items, Kept discipline maxSize items recorded := by
  refine attempt_invariant (P := fun recorded => ∃ items, Kept discipline maxSize items recorded) ?_
    ⟨[],new_kept discipline maxSize⟩ reached
  rintro before request after ⟨items,kept⟩ stepped
  exact kept.step positive stepped

theorem Kept.lastUse_lt {discipline : Discipline} {maxSize : Nat} {items : List Item} {recorded : Recorded}
    (kept : Kept discipline maxSize items recorded) {name : Name} (holds : recorded.Holds name) :
    recorded.lastUse name < recorded.time := by
  obtain ⟨item,inside,rfl⟩ := List.mem_map.mp ((kept.mem_iff name).mpr holds)
  exact (kept.tracked.past item inside).2

/-- In every run of a store with a limit new Data replace what the policy promises, and lookups remove nothing,
exactly if frequencies are told apart and no lookup is given the end. -/
theorem replaces_iff_counts (discipline : Discipline) (maxSize : Nat) (positive : 0 < maxSize) (requests : List Request) :
    Steps (attempt step) (fun state request => ∀ recorded, state = some recorded →
        recorded.Replaces discipline maxSize request) (some (new discipline maxSize)) requests ↔
      Steps (attempt step) (fun state request => ∀ recorded, state = some recorded →
        recorded.Counts discipline maxSize request) (some (new discipline maxSize)) requests := by
  refine steps_congr (P := fun state => ∀ recorded, state = some recorded →
    ∃ items, Kept discipline maxSize items recorded) ?_ ?_ ?_
  · intro state request good _ after reached
    obtain ⟨recorded,here,stepped⟩ := Option.bind_eq_some_iff.mp reached
    obtain ⟨items,kept⟩ := good recorded here
    exact kept.step positive stepped
  · intro state request good
    refine forall_congr' fun recorded => imp_congr_right fun here => ?_
    obtain ⟨items,kept⟩ := good recorded here
    exact kept.replaces_iff positive request
  · intro recorded here
    cases here
    exact ⟨[],new_kept discipline maxSize⟩

def addLetter (byte : UInt8) : Request := .add ⟨0,0,true⟩ ContentStoreImpl.inOrder (ContentStoreImpl.letter byte 0)

def hitLetter (byte : UInt8) : Request := .lookup ⟨[[byte]],noExclude⟩

theorem replaces_letters : 0 < 2 ∧ Steps (attempt step) (fun state request => ∀ recorded, state = some recorded →
    recorded.Replaces .lru 2 request) (some (new .lru 2)) [addLetter 97,addLetter 98,hitLetter 97,addLetter 99] := by
  refine ⟨by decide,(replaces_iff_counts .lru 2 (by decide) _).mpr ?_⟩
  have counts : ∀ recorded : Recorded, ∀ request ∈ [addLetter 97,addLetter 98,hitLetter 97,addLetter 99],
      recorded.Counts .lru 2 request := by
    intro recorded
    simp [addLetter,hitLetter,Counts]
  intro before request inside recorded _
  exact counts recorded request (inside.subset (List.mem_append_right before List.mem_cons_self))

private theorem run_hits (interest : Interest) {entry : Entry} (name : Name) (named : entry.data.name = name) (count : Nat)
    (recorded : Recorded) (handed : ∀ store : ContentStoreImpl, store.trie = recorded.store.trie →
      store.handed interest = some (some (name,entry))) :
    ∃ after, run (attempt step) (some recorded) (List.replicate count (.lookup interest)) = some after ∧
      after.store.trie = recorded.store.trie ∧ after.time = recorded.time + count ∧
      after.hits = Function.update recorded.hits name (recorded.hits name + count) ∧
      (∀ other, other ≠ name → after.lastUse other = recorded.lastUse other) ∧
      (count = 0 ∧ after.lastUse = recorded.lastUse ∨ recorded.time ≤ after.lastUse name) := by
  subst named
  induction count generalizing recorded with
  | zero => exact ⟨recorded,rfl,rfl,rfl,(Function.update_eq_self _ _).symm,fun _ _ => rfl,Or.inl ⟨rfl,rfl⟩⟩
  | succ count ih =>
    have stepped : recorded.step (.lookup interest) =
        some (recorded.looked (some entry,recorded.store.touched entry.data.name)) := by
      unfold step
      dsimp only
      rw [ContentStoreImpl.lookup_eq,handed recorded.store rfl]
      rfl
    obtain ⟨after,reached,trie,time,hits,others,own⟩ :=
      ih (recorded.looked (some entry,recorded.store.touched entry.data.name)) handed
    refine ⟨after,?_,trie,?_,?_,?_,?_⟩
    · rw [List.replicate_succ,run_cons]
      change run _ (recorded.step (.lookup interest)) _ = _
      rw [stepped]
      exact reached
    · rw [time]
      change recorded.time + 1 + count = _
      omega
    · rw [hits]
      unfold looked
      dsimp only
      rw [Function.update_idem,Function.update_self,Nat.add_right_comm,Nat.add_assoc]
    · intro other apart
      rw [others other apart]
      exact Function.update_of_ne apart ..
    · right
      rcases own with ⟨-,same⟩ | later
      · rw [same]
        exact (Function.update_self entry.data.name recorded.time recorded.lastUse).ge
      · exact (Nat.le_succ _).trans later

def pair : Recorded := (run (attempt step) (some (new .lfu 2)) [addLetter 97,addLetter 98]).getD (new .lfu 2)

private theorem pair_holds (name : Name) : pair.Holds name ↔ name = [[97]] ∨ name = [[98]] := by
  have trie : pair.store.trie = .node [] none [.node [98] (some ⟨ContentStoreImpl.letter 98 0,1⟩) [],
    .node [97] (some ⟨ContentStoreImpl.letter 97 0,0⟩) []] := rfl
  unfold Holds
  rw [trie]
  cases name with
  | nil => simp [Trie.get,Trie.descend,Trie.payload]
  | cons component rest =>
    rw [Trie.get_cons]
    by_cases second : component = [98]
    · subst second
      cases rest with
      | nil => exact iff_of_true (by simp [Trie.childOf,Trie.get,Trie.descend,Trie.payload,Trie.key]) (Or.inr rfl)
      | cons next rest => simp [Trie.childOf,Trie.get,Trie.descend,Trie.children,Trie.key]
    · by_cases first : component = [97]
      · subst first
        cases rest with
        | nil => exact iff_of_true (by simp [Trie.childOf,Trie.get,Trie.descend,Trie.payload,Trie.key]) (Or.inl rfl)
        | cons next rest => simp [Trie.childOf,Trie.get,Trie.descend,Trie.children,Trie.key]
      · simp [Trie.childOf,Trie.key,first,second,eq_comm]

def overcounted (count : Nat) : List Request :=
  [addLetter 97,addLetter 98] ++ List.replicate (count + 1) (hitLetter 97) ++ List.replicate count (hitLetter 98)

private theorem run_overcounted {count : Nat} (positive : 0 < count) :
    ∃ after, run (attempt step) (some (new .lfu 2)) (overcounted count) = some after ∧
      (∀ name, after.Holds name ↔ name = [[97]] ∨ name = [[98]]) ∧ after.hits [[97]] = count + 1 ∧
      after.hits [[98]] = count ∧ after.lastUse [[97]] < after.lastUse [[98]] := by
  have start : run (attempt step) (some (new .lfu 2)) [addLetter 97,addLetter 98] = some pair := rfl
  have handed : ∀ store : ContentStoreImpl, store.trie = pair.store.trie →
      store.handed ⟨[[97]],noExclude⟩ = some (some ([[97]],⟨ContentStoreImpl.letter 97 0,0⟩)) ∧
      store.handed ⟨[[98]],noExclude⟩ = some (some ([[98]],⟨ContentStoreImpl.letter 98 0,1⟩)) := by
    intro store same
    unfold ContentStoreImpl.handed
    rw [same]
    exact ⟨rfl,rfl⟩
  obtain ⟨middle,first,trie,-,hits,others,-⟩ := run_hits ⟨[[97]],noExclude⟩ [[97]] rfl (count + 1) pair
    (fun store same => (handed store same).1)
  obtain ⟨after,second,still,-,further,apart,own⟩ := run_hits ⟨[[98]],noExclude⟩ [[98]] rfl count middle
    (fun store same => (handed store (same.trans trie)).2)
  have reached : run (attempt step) (some (new .lfu 2)) ([addLetter 97,addLetter 98] ++ List.replicate (count + 1) (hitLetter 97)) =
      some middle := by
    rw [run_append,start]
    exact first
  obtain ⟨items,kept⟩ := run_kept (by decide) reached
  have holds : ∀ name, after.Holds name ↔ name = [[97]] ∨ name = [[98]] := by
    intro name
    rw [← pair_holds,Holds,still,trie]
    rfl
  have before : middle.lastUse [[97]] < middle.time := by
    apply kept.lastUse_lt
    have stored := (holds [[97]]).mpr (Or.inl rfl)
    rw [Holds,still] at stored
    exact stored
  refine ⟨after,?_,holds,?_,?_,?_⟩
  · unfold overcounted
    rw [run_append,reached]
    exact second
  · rw [further,Function.update_of_ne (by decide),hits,Function.update_self]
    exact Nat.zero_add _
  · rw [further,Function.update_self,hits,Function.update_of_ne (by decide)]
    exact Nat.zero_add _
  · rw [apart [[97]] (by decide)]
    rcases own with ⟨zero,-⟩ | later
    · omega
    · exact before.trans_le later

/-- The Data with more hits is given up, since they are not counted any more. -/
theorem overcounted_misreplaced :
    ¬ Steps (attempt step) (fun state request => ∀ recorded, state = some recorded → recorded.Replaces .lfu 2 request)
        (some (new .lfu 2)) (overcounted (2^53) ++ [addLetter 99]) ∧
      ¬ Steps (attempt step) (fun state request => ∀ recorded, state = some recorded → recorded.Replaces .lru 2 request)
        (some (new .lru 2)) [.lookup ContentStoreImpl.anything] := by
  constructor
  · intro always
    obtain ⟨after,reached,holds,more,fewer,order⟩ := run_overcounted (Nat.two_pow_pos 53)
    have replaces := always (overcounted (2^53)) (addLetter 99) List.prefix_rfl after reached
    obtain ⟨items,kept⟩ := run_kept (by decide) reached
    have counts := (kept.replaces_iff (by decide) _).mp replaces rfl
    have free : after.store.trie.get [[99]] = none := by
      by_contra stored
      exact absurd ((holds [[99]]).mp stored) (by decide)
    have names : (items.map Prod.fst).Perm [[[97]],[[98]]] := by
      refine (List.perm_ext_iff_of_nodup kept.tracked.ascending.nodup (by decide)).mpr ?_
      intro name
      rw [kept.mem_iff,holds]
      simp
    have size : after.store.getSize = 2 := by
      rw [kept.getSize,← List.length_map (f := Prod.fst),names.length_eq]
      rfl
    rcases counts free size with ⟨name,stored,low⟩ | ⟨name,stored,first⟩
    · rcases (holds name).mp stored with rfl | rfl
      · omega
      · omega
    · rcases (holds name).mp stored with rfl | rfl
      · have least := first [[98]] ((holds _).mpr (Or.inr rfl)) (by decide)
        omega
      · have least := first [[97]] ((holds _).mpr (Or.inl rfl)) (by decide)
        omega
  · intro always
    obtain ⟨answer,after,taken,-⟩ := always [] (.lookup ContentStoreImpl.anything) List.prefix_rfl (new .lru 2) rfl
    have lost : (new .lru 2).store.lookup ContentStoreImpl.anything = none := rfl
    rw [lost] at taken
    cases taken

end Recorded

end Ncfcc.Cs
