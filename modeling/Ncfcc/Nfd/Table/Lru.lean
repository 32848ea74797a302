import Mathlib.Data.List.TakeWhile
import Ncfcc.Library.Ranked
import Ncfcc.Nfd.Table.CsOrder
import Ncfcc.Nfd.Table.CsQueues

/-! The least-recently-used policy of the content store. Its queue has two indices: the sequence in
which entries were used, and an order that compares the entries that the iterators point to. -/
namespace Ncfcc.Nfd.Table
open Ncfcc.Library

/-! The table stays in the order of entries. -/

namespace Cs
variable {σ : Type} {cs : Cs σ}

def Sorted (cs : Cs σ) : Prop := cs.table.Pairwise fun first second => first.2.less second.2 = true

theorem Sorted.after_existing (sorted : cs.Sorted) {entry : CsEntry} (free : cs.existing entry = none) :
    ∀ node ∈ cs.table.dropWhile fun node => node.2.less entry, entry.less node.2 = true := by
  have rest : (cs.table.dropWhile fun node => node.2.less entry).Pairwise fun first second =>
      first.2.less second.2 = true := List.Pairwise.sublist (List.dropWhile_sublist _) sorted
  unfold existing at free
  rw [List.find?_not_eq_head?_dropWhile] at free
  cases later : cs.table.dropWhile fun node => node.2.less entry with
  | nil => exact fun _ member => absurd member List.not_mem_nil
  | cons head tail =>
    rw [later] at free rest
    have least : entry.less head.2 = true := by
      by_contra equal
      rw [List.head?_cons,Option.bind_some,if_neg equal] at free
      cases free
    intro node inside
    rcases List.mem_cons.mp inside with rfl | below
    · exact least
    · exact less_trans least (List.rel_of_pairwise_cons rest below)

theorem Sorted.enter (sorted : cs.Sorted) {entry : CsEntry} (free : cs.existing entry = none) : (cs.enter entry).Sorted := by
  have later := sorted.after_existing free
  refine List.pairwise_append.mpr ⟨List.Pairwise.sublist (List.takeWhile_sublist _) sorted,?_,?_⟩
  · exact List.pairwise_cons.mpr ⟨later,List.Pairwise.sublist (List.dropWhile_sublist _) sorted⟩
  · intro first here second there
    have before : first.2.less entry = true := List.mem_takeWhile_imp (p := fun node : Nat × CsEntry => node.2.less entry) here
    rcases List.mem_cons.mp there with rfl | after
    · exact before
    · exact less_trans before (later second after)

theorem Sorted.setEntry (sorted : cs.Sorted) (i : Nat) {change : CsEntry → CsEntry}
    (same : ∀ entry, (change entry).data = entry.data) : (cs.setEntry i change).Sorted := by
  have kept : ∀ node : Nat × CsEntry, (if node.1 = i then (i,change node.2) else node).2.data = node.2.data := by
    intro node
    split
    · exact same node.2
    · rfl
  apply List.Pairwise.map _ _ sorted
  intro first second less
  unfold CsEntry.less at less ⊢
  rw [kept,kept]
  exact less

theorem Sorted.beforeEvict (sorted : cs.Sorted) (i : Nat) : (cs.beforeEvict i).Sorted :=
  List.Pairwise.sublist List.eraseP_sublist sorted

def renew (now : Int) (isUnsolicited : Bool) (entry : CsEntry) : CsEntry :=
  let updated := entry.updateStaleTime now
  if updated.isUnsolicited && !isUnsolicited then updated.unsetUnsolicited now else updated

private theorem renew_data (now : Int) (isUnsolicited : Bool) (entry : CsEntry) : (renew now isUnsolicited entry).data = entry.data := by
  unfold renew
  dsimp only
  split <;> rfl

section
variable (policy : Policy σ) {data : DataPacket} {isUnsolicited : Bool} {next : Cs σ}
  (cached : ¬ data.cachingPolicy = some .noCache)
include cached

private theorem insert_existing {i : Nat} (found : cs.existing (CsEntry.setData cs.scheduler.now data isUnsolicited) = some i)
    (refreshed : policy.doAfterRefresh (cs.setEntry i (renew cs.scheduler.now isUnsolicited)) i = some next) :
    cs.insert policy data isUnsolicited = some (next,true) := by
  unfold Cs.insert
  rw [if_neg cached]
  dsimp only
  rw [found]
  change Option.map _ (policy.doAfterRefresh (cs.setEntry i (renew cs.scheduler.now isUnsolicited)) i) = _
  rw [refreshed]
  rfl

theorem insert_new (found : cs.existing (CsEntry.setData cs.scheduler.now data isUnsolicited) = none)
    (entered : policy.doAfterInsert (cs.enter (CsEntry.setData cs.scheduler.now data isUnsolicited)) cs.nextEntry = some next) :
    cs.insert policy data isUnsolicited = some (next,true) := by
  unfold Cs.insert
  rw [if_neg cached]
  dsimp only
  rw [found]
  change Option.map _ (policy.doAfterInsert (cs.enter (CsEntry.setData cs.scheduler.now data isUnsolicited)) cs.nextEntry) = _
  rw [entered]
  rfl

end

theorem Sorted.comparable (sorted : cs.Sorted) {first second : Nat × CsEntry} (here : first ∈ cs.table)
    (there : second ∈ cs.table) (apart : first ≠ second) :
    first.2.less second.2 = true ∨ second.2.less first.2 = true := by
  obtain ⟨i,below,rfl⟩ := List.mem_iff_getElem.mp here
  obtain ⟨j,bound,rfl⟩ := List.mem_iff_getElem.mp there
  have ordered := List.pairwise_iff_getElem.mp sorted
  rcases lt_trichotomy i j with less | rfl | greater
  · exact Or.inl (ordered i j below bound less)
  · exact absurd rfl apart
  · exact Or.inr (ordered j i bound below greater)

end Cs

structure Lru where
  queue : List Nat

namespace Lru
variable (cs : Cs Lru)

/-- Neither of two entries is less than the other. -/
def equivalent (first second : Nat) : Bool :=
  match cs.entry first,cs.entry second with
  | some one,some other => !one.less other && !other.less one
  | _,_ => false

/-- What `push_back` returns: the element with an equivalent key, or the new one at the end. There is no
result if an iterator that may be compared points to no entry. -/
def pushBack (i : Nat) : Option (List Nat × Nat × Bool) :=
  if ∀ other ∈ i :: cs.policy.queue, other ∈ cs.stored then
    match cs.policy.queue.find? fun other => equivalent cs other i with
    | some it => some (cs.policy.queue,it,false)
    | none => some (cs.policy.queue ++ [i],i,true)
  else none

/-- The entry is in the queue exactly if it is not new, which is asserted. -/
def insertToQueue (i : Nat) (isNewEntry : Bool) : Option (Cs Lru) :=
  (pushBack cs i).bind fun (queue,it,isNew) =>
    if isNew = isNewEntry then
      some {cs with policy := ⟨if isNewEntry then queue else queue.erase it ++ [it]⟩}
    else none

/-- `pop_front`, with what is left of the queue. -/
def popFront (rest : List Nat) : Cs Lru := {cs with policy := ⟨rest⟩}

/-- The loop of `evictEntries`: the queue is not empty, which is asserted. There is no result either
if it goes on after this many rounds. -/
def evictRounds : Nat → Cs Lru → Option (Cs Lru)
  | 0, cs => if cs.size > cs.limit then none else some cs
  | rounds + 1, cs =>
    if cs.size > cs.limit then
      match cs.policy.queue with
      | [] => none
      | i :: queue => evictRounds rounds ((popFront cs queue).beforeEvict i)
    else some cs

def policy : Policy Lru where
  doAfterInsert := fun cs i => (insertToQueue cs i true).bind fun cs => evictRounds cs.size cs
  doAfterRefresh := fun cs i => insertToQueue cs i false
  doBeforeUse := fun cs i => insertToQueue cs i false
  evictEntries := fun cs => evictRounds cs.size cs

inductive Event where
  | insert (data : DataPacket) (isUnsolicited : Bool)
  | find (interest : Interest)
  | setLimit (nMaxEntries : Nat)
  | advance (time : Int)

def empty (now : Int) : Cs Lru where
  table := []
  nextEntry := 0
  limit := 0
  scheduler := Scheduler.initial now 0
  policy := ⟨[]⟩

def new (nMaxPackets : Nat) (now : Int) : Option (Cs Lru) := (empty now).setLimit policy nMaxPackets

/-- A run ends with a failed assertion, or with a search that leaves the table. -/
def step (getSuccessor : Name → Name) (cs : Cs Lru) : Event → Option (Cs Lru)
  | .insert data isUnsolicited => (cs.insert policy data isUnsolicited).map Prod.fst
  | .find interest => (cs.find policy getSuccessor interest).map Prod.fst
  | .setLimit nMaxEntries => cs.setLimit policy nMaxEntries
  | .advance time => some {cs with scheduler := cs.scheduler.advance time}

/-! The time of the last use, counted in events. -/

def usedBy (getSuccessor : Name → Name) (cs : Cs Lru) : Event → Option Nat
  | .insert data isUnsolicited =>
    if data.cachingPolicy = some .noCache then none
    else some ((cs.existing (CsEntry.setData cs.scheduler.now data isUnsolicited)).getD cs.nextEntry)
  | .find interest => (cs.search getSuccessor interest).join
  | _ => none

/-- A store with the number of events so far, and that of the last event that inserted, refreshed or
hit an entry. -/
structure Recorded where
  cs : Cs Lru
  time : Nat
  lastUse : Nat → Nat

namespace Recorded

def lastUseAfter (getSuccessor : Name → Name) (recorded : Recorded) (event : Event) : Nat → Nat :=
  match usedBy getSuccessor recorded.cs event with
  | none => recorded.lastUse
  | some i => Function.update recorded.lastUse i recorded.time

def step (getSuccessor : Name → Name) (recorded : Recorded) (event : Event) : Option Recorded :=
  (Lru.step getSuccessor recorded.cs event).map fun cs =>
    ⟨cs,recorded.time + 1,recorded.lastUseAfter getSuccessor event⟩

def new (nMaxPackets : Nat) (now : Int) : Option Recorded :=
  (Lru.new nMaxPackets now).map fun cs => ⟨cs,0,fun _ => 0⟩

/-- The queue has every entry once, in the order of their last use. -/
structure InOrder (recorded : Recorded) : Prop where
  once : recorded.cs.policy.queue.Nodup
  perm : recorded.cs.policy.queue.Perm recorded.cs.stored
  ascending : Ascending recorded.lastUse recorded.cs.policy.queue
  limited : recorded.cs.size ≤ recorded.cs.limit

/-- No assertion fails, apart from the one that a limit is positive, and an insertion or a smaller limit
evicts the least recently used entries until the limit is met. -/
def Handles (getSuccessor : Name → Name) (recorded : Recorded) : Event → Prop
  | .insert data isUnsolicited =>
    let cs := recorded.cs
    if data.cachingPolicy = some .noCache then cs.insert policy data isUnsolicited = some (cs,false)
    else ∃ next, cs.insert policy data isUnsolicited = some (next,true) ∧ next.limit = cs.limit ∧
      if (cs.existing (CsEntry.setData cs.scheduler.now data isUnsolicited)).isSome then next.stored = cs.stored
      else DropsLeast (recorded.lastUseAfter getSuccessor (.insert data isUnsolicited)) cs.limit
        (cs.nextEntry :: cs.stored) next.stored
  | .find interest => ∀ found, recorded.cs.search getSuccessor interest = some found →
    ∃ next, recorded.cs.find policy getSuccessor interest = some (next,found) ∧ next.table = recorded.cs.table
  | .setLimit nMaxEntries => 0 < nMaxEntries → ∃ next, recorded.cs.setLimit policy nMaxEntries = some next ∧
    next.limit = nMaxEntries ∧ DropsLeast recorded.lastUse nMaxEntries recorded.cs.stored next.stored
  | .advance _ => True

end Recorded

/-! One operation. -/

structure Kept (lastUse : Nat → Nat) (time : Nat) (cs : Cs Lru) : Prop where
  distinct : cs.stored.Nodup
  given : ∀ i ∈ cs.stored, i < cs.nextEntry
  sorted : cs.Sorted
  perm : cs.policy.queue.Perm cs.stored
  ascending : Ascending lastUse cs.policy.queue
  past : ∀ i ∈ cs.policy.queue, lastUse i < time

section
variable {cs : Cs Lru} {lastUse : Nat → Nat} {time : Nat}

private theorem equivalent_iff (distinct : cs.stored.Nodup) (sorted : cs.Sorted) {first second : Nat} (here : first ∈ cs.stored)
    (there : second ∈ cs.stored) : equivalent cs first second = true ↔ first = second := by
  obtain ⟨one,entered⟩ := Cs.entry_of_stored distinct here
  obtain ⟨other,also⟩ := Cs.entry_of_stored distinct there
  unfold equivalent
  rw [entered,also]
  constructor
  · intro alike
    by_contra apart
    have comparable := sorted.comparable ((Cs.entry_eq_some_iff distinct first one).mp entered)
      ((Cs.entry_eq_some_iff distinct second other).mp also) (fun same => apart (congrArg Prod.fst same))
    rcases comparable with less | greater
    · simp [less] at alike
    · simp [greater] at alike
  · rintro rfl
    cases entered.symm.trans also
    simp [less_irrefl]

private theorem find_equivalent (distinct : cs.stored.Nodup) (sorted : cs.Sorted)
    (inside : ∀ other ∈ cs.policy.queue, other ∈ cs.stored) {i : Nat} (stored : i ∈ cs.stored) :
    (cs.policy.queue.find? fun other => equivalent cs other i) = if i ∈ cs.policy.queue then some i else none := by
  have alike : ∀ other ∈ cs.policy.queue, equivalent cs other i = true ↔ other = i :=
    fun other member => equivalent_iff distinct sorted (inside other member) stored
  split
  · rename_i member
    cases found : cs.policy.queue.find? fun other => equivalent cs other i with
    | none => exact absurd ((alike i member).mpr rfl) (List.find?_eq_none.mp found i member)
    | some other =>
      have passed := List.find?_some found
      rw [(alike other (List.mem_of_find?_eq_some found)).mp passed]
  · rename_i absent
    refine List.find?_eq_none.mpr ?_
    intro other member same
    exact absent ((alike other member).mp same ▸ member)

def touched (cs : Cs Lru) (i : Nat) : Cs Lru := {cs with policy := ⟨cs.policy.queue.erase i ++ [i]⟩}

theorem Kept.insertToQueue (kept : Kept lastUse time cs) {i : Nat} (stored : i ∈ cs.stored) :
    insertToQueue cs i false = some (touched cs i) := by
  have inside : ∀ other ∈ cs.policy.queue, other ∈ cs.stored := fun other => kept.perm.mem_iff.mp
  have pushed : pushBack cs i = some (cs.policy.queue,i,false) := by
    unfold pushBack
    rw [if_pos (List.forall_mem_cons.mpr ⟨stored,inside⟩),find_equivalent kept.distinct kept.sorted inside stored,
      if_pos (kept.perm.mem_iff.mpr stored)]
  unfold Lru.insertToQueue
  rw [pushed]
  rfl

theorem Kept.touch (kept : Kept lastUse time cs) {i : Nat} (stored : i ∈ cs.stored) :
    Kept (Function.update lastUse i time) (time + 1) (touched cs i) := by
  have moved : (cs.policy.queue.erase i ++ [i]).Perm cs.policy.queue :=
    (List.perm_append_singleton i _).trans (List.perm_cons_erase (kept.perm.mem_iff.mpr stored)).symm
  refine ⟨kept.distinct,kept.given,kept.sorted,moved.trans kept.perm,kept.ascending.touch kept.past i,?_⟩
  intro other inside
  rw [Function.update_apply]
  split
  · exact Nat.lt_succ_self time
  · exact Nat.lt_succ_of_lt (kept.past other (moved.mem_iff.mp inside))

theorem Kept.later (kept : Kept lastUse time cs) : Kept lastUse (time + 1) cs :=
  ⟨kept.distinct,kept.given,kept.sorted,kept.perm,kept.ascending,fun i inside => Nat.lt_succ_of_lt (kept.past i inside)⟩

/-- The limit and the time of the store are no part of it. -/
theorem Kept.congr (kept : Kept lastUse time cs) (limit : Nat) (scheduler : Scheduler Nat) :
    Kept lastUse time {cs with limit, scheduler} :=
  ⟨kept.distinct,kept.given,kept.sorted,kept.perm,kept.ascending,kept.past⟩

theorem Kept.setEntry (kept : Kept lastUse time cs) (i : Nat) {change : CsEntry → CsEntry}
    (same : ∀ entry, (change entry).data = entry.data) : Kept lastUse time (cs.setEntry i change) := by
  have stored := cs.stored_setEntry i change
  refine ⟨?_,?_,kept.sorted.setEntry i same,?_,kept.ascending,kept.past⟩
  · rw [stored]
    exact kept.distinct
  · rw [stored]
    exact kept.given
  · rw [stored]
    exact kept.perm

def joined (cs : Cs Lru) (entry : CsEntry) : Cs Lru :=
  {cs.enter entry with policy := ⟨cs.policy.queue ++ [cs.nextEntry]⟩}

private theorem stored_enter_perm (cs : Cs Lru) (entry : CsEntry) : (cs.enter entry).stored.Perm (cs.nextEntry :: cs.stored) :=
  (cs.enter_perm entry).map Prod.fst

theorem Kept.enter (kept : Kept lastUse time cs) {entry : CsEntry} (free : cs.existing entry = none) :
    Lru.insertToQueue (cs.enter entry) cs.nextEntry true = some (joined cs entry) ∧
      Kept (Function.update lastUse cs.nextEntry time) (time + 1) (joined cs entry) := by
  have perm := stored_enter_perm cs entry
  have new : cs.nextEntry ∉ cs.stored := fun inside => lt_irrefl _ (kept.given _ inside)
  have absent : cs.nextEntry ∉ (cs.enter entry).policy.queue := fun inside => new (kept.perm.mem_iff.mp inside)
  have distinct : (cs.enter entry).stored.Nodup := perm.nodup_iff.mpr (List.nodup_cons.mpr ⟨new,kept.distinct⟩)
  have sorted := kept.sorted.enter free
  have stored : cs.nextEntry ∈ (cs.enter entry).stored := perm.mem_iff.mpr List.mem_cons_self
  have inside : ∀ other ∈ (cs.enter entry).policy.queue, other ∈ (cs.enter entry).stored := fun other member =>
    perm.mem_iff.mpr (List.mem_cons_of_mem _ (kept.perm.mem_iff.mp member))
  have pushed : pushBack (cs.enter entry) cs.nextEntry = some (cs.policy.queue ++ [cs.nextEntry],cs.nextEntry,true) := by
    have found := find_equivalent distinct sorted inside stored
    rw [if_neg absent] at found
    unfold pushBack
    rw [if_pos (List.forall_mem_cons.mpr ⟨stored,inside⟩),found]
    rfl
  refine ⟨?_,distinct,?_,sorted,?_,kept.ascending.push kept.past absent,?_⟩
  · unfold Lru.insertToQueue
    rw [pushed]
    rfl
  · intro i member
    rcases List.mem_cons.mp (perm.mem_iff.mp member) with rfl | before
    · exact Nat.lt_succ_self _
    · exact Nat.lt_succ_of_lt (kept.given i before)
  · exact (List.perm_append_singleton _ _).trans ((kept.perm.cons _).trans perm.symm)
  · intro i member
    rw [Function.update_apply]
    split
    · exact Nat.lt_succ_self time
    · rename_i apart
      rcases List.mem_append.mp member with before | last
      · exact Nat.lt_succ_of_lt (kept.past i before)
      · exact absurd (List.mem_singleton.mp last) apart

theorem Kept.queue_length (kept : Kept lastUse time cs) : cs.policy.queue.length = cs.size :=
  kept.perm.length_eq.trans (List.length_map _)

theorem Kept.evict (kept : Kept lastUse time cs) {i : Nat} {queue : List Nat} (front : cs.policy.queue = i :: queue) :
    Kept lastUse time ((popFront cs queue).beforeEvict i) := by
  have stored : ((popFront cs queue).beforeEvict i).stored = cs.stored.filter fun other => other ≠ i := by
    apply Cs.stored_beforeEvict
    exact kept.distinct
  have ascending := kept.ascending
  have once := kept.ascending.nodup
  rw [front] at ascending once
  have apart := (List.nodup_cons.mp once).1
  have rest : (i :: queue).filter (fun other => other ≠ i) = queue := by
    rw [List.filter_cons_of_neg (by simp)]
    apply List.filter_eq_self.mpr
    intro other inside
    exact decide_eq_true fun same => apart (same ▸ inside)
  refine ⟨?_,?_,kept.sorted.beforeEvict i,?_,ascending.of_cons,?_⟩
  · rw [stored]
    exact kept.distinct.filter _
  · intro other inside
    rw [stored] at inside
    exact kept.given other (List.mem_filter.mp inside).1
  · rw [stored]
    have perm := kept.perm.filter fun other => other ≠ i
    rw [front,rest] at perm
    exact perm
  · intro other inside
    apply kept.past other
    rw [front]
    exact List.mem_cons_of_mem i inside

/-- The loop takes entries from the front of the queue until the limit is met. -/
theorem Kept.evictRounds (rounds : Nat) (kept : Kept lastUse time cs) (enough : cs.size ≤ cs.limit + rounds) :
    ∃ next, evictRounds rounds cs = some next ∧ Kept lastUse time next ∧ next.limit = cs.limit ∧
      next.policy.queue = cs.policy.queue.drop (cs.policy.queue.length - cs.limit) := by
  have length := kept.queue_length
  induction rounds generalizing cs with
  | zero =>
    refine ⟨cs,if_neg (by omega),kept,rfl,?_⟩
    rw [show cs.policy.queue.length - cs.limit = 0 by omega]
    rfl
  | succ rounds ih =>
    by_cases full : cs.size > cs.limit
    · cases front : cs.policy.queue with
      | nil =>
        rw [front] at length
        change 0 = cs.size at length
        omega
      | cons i queue =>
        rw [front] at length
        have after := kept.evict front
        have short := after.queue_length
        change queue.length = _ at short
        rw [List.length_cons] at length
        obtain ⟨next,taken,good,limit,dropped⟩ := ih after (by change _ ≤ cs.limit + rounds; omega) short
        refine ⟨next,?_,good,limit,?_⟩
        · unfold Lru.evictRounds
          rw [if_pos full,front]
          exact taken
        · rw [dropped]
          change queue.drop (queue.length - cs.limit) = _
          rw [List.length_cons,show queue.length + 1 - cs.limit = queue.length - cs.limit + 1 by omega,List.drop_succ_cons]
    · refine ⟨cs,if_neg full,kept,rfl,?_⟩
      rw [show cs.policy.queue.length - cs.limit = 0 by omega]
      rfl

/-- What the loop evicts is the least recently used. -/
theorem Kept.dropsLeast (kept : Kept lastUse time cs) {next : Cs Lru} (after : Kept lastUse time next) {before : List Nat}
    (same : before.Perm cs.stored) {room : Nat}
    (dropped : next.policy.queue = cs.policy.queue.drop (cs.policy.queue.length - room)) :
    DropsLeast lastUse room before next.stored := by
  apply kept.ascending.dropsLeast (same.trans kept.perm.symm)
  rw [← dropped]
  exact after.perm.symm

private theorem size_of_dropsLeast {next : Cs Lru} {before : List Nat} {room : Nat}
    (least : DropsLeast lastUse room before next.stored) : next.size ≤ room := by
  have size : next.stored.length = next.size := List.length_map _
  rw [← size,least.size]
  exact Nat.min_le_right _ _

theorem Kept.setLimit (kept : Kept lastUse time cs) {nMaxEntries : Nat} (positive : 0 < nMaxEntries) :
    ∃ next, cs.setLimit policy nMaxEntries = some next ∧ Kept lastUse time next ∧ next.limit = nMaxEntries ∧
      DropsLeast lastUse nMaxEntries cs.stored next.stored := by
  have limited := kept.congr nMaxEntries cs.scheduler
  obtain ⟨next,taken,after,limit,dropped⟩ := limited.evictRounds cs.size (Nat.le_add_left _ _)
  refine ⟨next,?_,after,limit,limited.dropsLeast after (List.Perm.refl _) dropped⟩
  unfold Cs.setLimit
  rw [if_pos positive]
  exact taken

theorem Kept.doAfterInsert (kept : Kept lastUse time cs) {entry : CsEntry} (free : cs.existing entry = none) :
    ∃ next, policy.doAfterInsert (cs.enter entry) cs.nextEntry = some next ∧
      Kept (Function.update lastUse cs.nextEntry time) (time + 1) next ∧ next.limit = cs.limit ∧
      DropsLeast (Function.update lastUse cs.nextEntry time) cs.limit (cs.nextEntry :: cs.stored) next.stored := by
  obtain ⟨pushed,entered⟩ := kept.enter free
  obtain ⟨next,taken,after,limit,dropped⟩ := entered.evictRounds (joined cs entry).size (Nat.le_add_left _ _)
  refine ⟨next,?_,after,limit,entered.dropsLeast after (stored_enter_perm cs entry).symm dropped⟩
  change (Lru.insertToQueue _ _ _).bind _ = _
  rw [pushed]
  exact taken

end

/-! Runs. -/

namespace Recorded

structure Good (recorded : Recorded) : Prop where
  kept : Kept recorded.lastUse recorded.time recorded.cs
  limited : recorded.cs.size ≤ recorded.cs.limit

section
variable {recorded next : Recorded} {getSuccessor : Name → Name}

private theorem lastUseAfter_some {event : Event} {i : Nat} (used : usedBy getSuccessor recorded.cs event = some i) :
    recorded.lastUseAfter getSuccessor event = Function.update recorded.lastUse i recorded.time := by
  unfold lastUseAfter
  rw [used]

private theorem lastUseAfter_none {event : Event} (unused : usedBy getSuccessor recorded.cs event = none) :
    recorded.lastUseAfter getSuccessor event = recorded.lastUse := by
  unfold lastUseAfter
  rw [unused]

def After (getSuccessor : Name → Name) (recorded : Recorded) (event : Event) (cs : Cs Lru) : Prop :=
  Kept (recorded.lastUseAfter getSuccessor event) (recorded.time + 1) cs ∧ cs.size ≤ cs.limit

theorem Good.insert (good : Good recorded) (data : DataPacket) (isUnsolicited : Bool) :
    recorded.Handles getSuccessor (.insert data isUnsolicited) ∧
      ∀ cs accepted, recorded.cs.insert policy data isUnsolicited = some (cs,accepted) →
        recorded.After getSuccessor (.insert data isUnsolicited) cs := by
  have unused : data.cachingPolicy = some .noCache → recorded.lastUseAfter getSuccessor (.insert data isUnsolicited) =
      recorded.lastUse := fun refused => lastUseAfter_none (if_pos refused)
  unfold Handles After
  dsimp only
  split
  · rename_i refused
    have same : recorded.cs.insert policy data isUnsolicited = some (recorded.cs,false) := if_pos refused
    refine ⟨same,?_⟩
    intro cs accepted inserted
    cases same.symm.trans inserted
    rw [unused refused]
    exact ⟨good.kept.later,good.limited⟩
  · rename_i cached
    cases found : recorded.cs.existing (CsEntry.setData recorded.cs.scheduler.now data isUnsolicited) with
    | some i =>
      have used : recorded.lastUseAfter getSuccessor (.insert data isUnsolicited) =
          Function.update recorded.lastUse i recorded.time := by
        apply lastUseAfter_some
        unfold usedBy
        dsimp only
        rw [if_neg cached,found]
        rfl
      have refreshed := good.kept.setEntry i (Cs.renew_data recorded.cs.scheduler.now isUnsolicited)
      have same := recorded.cs.stored_setEntry i (Cs.renew recorded.cs.scheduler.now isUnsolicited)
      have there : i ∈ (recorded.cs.setEntry i (Cs.renew recorded.cs.scheduler.now isUnsolicited)).stored := by
        rw [same]
        exact Cs.existing_stored found
      have inserted := Cs.insert_existing policy cached found (refreshed.insertToQueue there)
      refine ⟨⟨_,inserted,rfl,?_⟩,?_⟩
      · rw [if_pos Option.isSome_some]
        exact same
      · intro cs accepted again
        cases inserted.symm.trans again
        rw [used]
        refine ⟨refreshed.touch there,?_⟩
        change (List.map _ recorded.cs.table).length ≤ recorded.cs.limit
        rw [List.length_map]
        exact good.limited
    | none =>
      have used : recorded.lastUseAfter getSuccessor (.insert data isUnsolicited) =
          Function.update recorded.lastUse recorded.cs.nextEntry recorded.time := by
        apply lastUseAfter_some
        unfold usedBy
        dsimp only
        rw [if_neg cached,found]
        rfl
      obtain ⟨next,taken,after,limit,least⟩ := good.kept.doAfterInsert found
      have inserted := Cs.insert_new policy cached found taken
      refine ⟨⟨next,inserted,limit,?_⟩,?_⟩
      · rw [if_neg (by simp),used]
        exact least
      · intro cs accepted again
        cases inserted.symm.trans again
        rw [used]
        refine ⟨after,?_⟩
        rw [limit]
        exact size_of_dropsLeast least

theorem Good.find (good : Good recorded) (interest : Interest) {found : Option Nat}
    (searched : recorded.cs.search getSuccessor interest = some found) :
    ∃ cs, recorded.cs.find policy getSuccessor interest = some (cs,found) ∧ cs.table = recorded.cs.table ∧
      recorded.After getSuccessor (.find interest) cs := by
  have used : usedBy getSuccessor recorded.cs (.find interest) = found := by
    change (recorded.cs.search getSuccessor interest).join = found
    rw [searched]
    rfl
  cases found with
  | none =>
    refine ⟨recorded.cs,?_,rfl,?_,good.limited⟩
    · unfold Cs.find
      rw [searched]
      rfl
    · rw [lastUseAfter_none used]
      exact good.kept.later
  | some i =>
    have stored := Cs.search_stored searched
    refine ⟨touched recorded.cs i,?_,rfl,?_,good.limited⟩
    · unfold Cs.find
      rw [searched]
      change (Lru.insertToQueue recorded.cs i false).map _ = _
      rw [good.kept.insertToQueue stored]
      rfl
    · rw [lastUseAfter_some used]
      exact good.kept.touch stored

theorem Good.handles (good : Good recorded) (event : Event) : recorded.Handles getSuccessor event := by
  cases event with
  | insert data isUnsolicited => exact (good.insert data isUnsolicited).1
  | find interest =>
    intro found searched
    obtain ⟨cs,taken,same,-⟩ := good.find interest searched
    exact ⟨cs,taken,same⟩
  | setLimit nMaxEntries =>
    intro positive
    obtain ⟨cs,taken,-,limit,least⟩ := good.kept.setLimit positive
    exact ⟨cs,taken,limit,least⟩
  | advance time => trivial

theorem Good.after (good : Good recorded) {event : Event} {cs : Cs Lru}
    (stepped : Lru.step getSuccessor recorded.cs event = some cs) : recorded.After getSuccessor event cs := by
  cases event with
  | insert data isUnsolicited =>
    obtain ⟨⟨_,accepted⟩,inserted,rfl⟩ := Option.map_eq_some_iff.mp stepped
    exact (good.insert data isUnsolicited).2 _ accepted inserted
  | find interest =>
    obtain ⟨⟨_,answer⟩,taken,rfl⟩ := Option.map_eq_some_iff.mp stepped
    obtain ⟨found,searched,-⟩ := Option.bind_eq_some_iff.mp taken
    obtain ⟨cs,again,-,after⟩ := good.find interest searched
    cases again.symm.trans taken
    exact after
  | setLimit nMaxEntries =>
    by_cases positive : 0 < nMaxEntries
    · obtain ⟨next,taken,after,limit,least⟩ := good.kept.setLimit positive
      cases taken.symm.trans stepped
      refine ⟨after.later,?_⟩
      rw [limit]
      exact size_of_dropsLeast least
    · cases (if_neg positive).symm.trans stepped
  | advance time =>
    cases stepped
    exact ⟨good.kept.later.congr recorded.cs.limit (recorded.cs.scheduler.advance time),good.limited⟩

theorem Good.step (good : Good recorded) {event : Event} (stepped : recorded.step getSuccessor event = some next) :
    Good next := by
  obtain ⟨cs,taken,rfl⟩ := Option.map_eq_some_iff.mp stepped
  obtain ⟨kept,limited⟩ := good.after taken
  exact ⟨kept,limited⟩

private theorem new_good {nMaxPackets : Nat} {now : Int} (built : Recorded.new nMaxPackets now = some recorded) : Good recorded := by
  obtain ⟨cs,made,rfl⟩ := Option.map_eq_some_iff.mp built
  have kept : Kept (fun _ => 0) 0 (empty now) :=
    ⟨List.nodup_nil,fun _ inside => absurd inside List.not_mem_nil,List.Pairwise.nil,List.Perm.refl _,
      List.Pairwise.nil,fun _ inside => absurd inside List.not_mem_nil⟩
  by_cases positive : 0 < nMaxPackets
  · obtain ⟨next,taken,after,limit,least⟩ := kept.setLimit positive
    cases taken.symm.trans made
    refine ⟨after,?_⟩
    rw [limit]
    exact size_of_dropsLeast least
  · cases (if_neg positive).symm.trans made

theorem Good.inOrder (good : Good recorded) : recorded.InOrder :=
  ⟨good.kept.ascending.nodup,good.kept.perm,good.kept.ascending,good.limited⟩

end

/-- In every run the queue is the entries in the order of their last use, what is evicted is the least
recently used, and no assertion fails but that limits are positive. -/
theorem recency_maintained (getSuccessor : Name → Name) (nMaxPackets : Nat) (now : Int) (events : List Event) :
    ((Recorded.new nMaxPackets now).isSome ↔ 0 < nMaxPackets) ∧
      Along (attempt (Recorded.step getSuccessor)) (fun state => ∀ recorded, state = some recorded → recorded.InOrder)
        (Recorded.new nMaxPackets now) events ∧
      Steps (attempt (Recorded.step getSuccessor)) (fun state event => ∀ recorded, state = some recorded →
        recorded.Handles getSuccessor event) (Recorded.new nMaxPackets now) events := by
  have always : Along (attempt (Recorded.step getSuccessor)) (fun state => ∀ recorded, state = some recorded → Good recorded)
      (Recorded.new nMaxPackets now) events := by
    refine along_of_steps (Q := fun _ _ => True) ?_ (fun recorded built => new_good built) (fun _ _ _ => trivial)
    intro state event holds _ next reached
    obtain ⟨recorded,here,stepped⟩ := Option.bind_eq_some_iff.mp reached
    exact (holds recorded here).step stepped
  refine ⟨?_,?_,?_⟩
  · rw [Recorded.new,Option.isSome_map]
    constructor
    · intro built
      by_contra zero
      have refused : Lru.new nMaxPackets now = none := if_neg zero
      rw [refused] at built
      cases built
    · intro positive
      have built : Lru.new nMaxPackets now = some _ := if_pos positive
      rw [built]
      rfl
  · intro before inside recorded here
    exact (always before inside recorded here).inOrder
  · exact steps_of_along (fun state event good recorded here => (good recorded here).handles event) always

end Recorded

end Lru

end Ncfcc.Nfd.Table
