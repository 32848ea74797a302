import Ncfcc.Library.KeyedList
import Ncfcc.Library.Run
import Ncfcc.Nfd.Table.PriorityFifo

/-! The queues of the priority FIFO policy over runs of the content store: how the entries, the
queues, the info map and the stale events refer to each other, and what an eviction takes. -/
namespace Ncfcc.Nfd.Table
open Ncfcc.Library

namespace Cs

section
variable {σ : Type} {cs : Cs σ}

theorem entry_eq_some_iff (distinct : cs.stored.Nodup) (i : Nat) (entry : CsEntry) :
    cs.entry i = some entry ↔ (i,entry) ∈ cs.table := by
  unfold Cs.entry
  rw [Option.map_eq_some_iff]
  constructor
  · rintro ⟨node,found,rfl⟩
    obtain ⟨inside,rfl⟩ := (find_key_eq_some_iff distinct i node).mp found
    exact inside
  · intro inside
    exact ⟨(i,entry),(find_key_eq_some_iff distinct i (i,entry)).mpr ⟨inside,rfl⟩,rfl⟩

theorem entry_of_stored (distinct : cs.stored.Nodup) {i : Nat} (inside : i ∈ cs.stored) : ∃ entry, cs.entry i = some entry := by
  obtain ⟨⟨_,entry⟩,member,rfl⟩ := List.mem_map.mp inside
  exact ⟨entry,(entry_eq_some_iff distinct _ entry).mpr member⟩

private theorem stored_of_entry {i : Nat} {entry : CsEntry} (here : cs.entry i = some entry) : i ∈ cs.stored := by
  obtain ⟨node,found,rfl⟩ := Option.map_eq_some_iff.mp here
  have passed := List.find?_some found
  exact List.mem_map.mpr ⟨node,List.mem_of_find?_eq_some found,of_decide_eq_true passed⟩

theorem stored_setEntry (cs : Cs σ) (i : Nat) (change : CsEntry → CsEntry) : (cs.setEntry i change).stored = cs.stored := by
  unfold stored setEntry
  rw [List.map_map]
  refine List.map_congr_left fun node _ => ?_
  dsimp only [Function.comp_apply]
  split
  · exact Eq.symm ‹_›
  · rfl

private theorem entry_setEntry (cs : Cs σ) (i : Nat) (change : CsEntry → CsEntry) (other : Nat) :
    (cs.setEntry i change).entry other = if other = i then (cs.entry i).map change else cs.entry other := by
  unfold Cs.entry setEntry
  rw [List.find?_map,Option.map_map]
  have same : ((fun node : Nat × CsEntry => decide (node.1 = other)) ∘
      fun node => if node.1 = i then (i,change node.2) else node) = fun node => decide (node.1 = other) := by
    funext node
    dsimp only [Function.comp_apply]
    split
    · rename_i here
      rw [here]
    · rfl
  rw [same]
  split
  · rename_i here
    rw [here,Option.map_map]
    cases found : cs.table.find? fun node => node.1 = i with
    | none => rfl
    | some node =>
      have passed := List.find?_some found
      simp [of_decide_eq_true passed]
  · rename_i different
    cases found : cs.table.find? fun node => node.1 = other with
    | none => rfl
    | some node =>
      have passed := List.find?_some found
      simp [of_decide_eq_true passed,different]

theorem stored_beforeEvict (distinct : cs.stored.Nodup) (i : Nat) :
    (cs.beforeEvict i).stored = cs.stored.filter fun other => other ≠ i := by
  unfold stored beforeEvict
  rw [eraseP_key distinct i,List.filter_map]
  rfl

private theorem entry_beforeEvict (distinct : cs.stored.Nodup) (i other : Nat) (entry : CsEntry) :
    (cs.beforeEvict i).entry other = some entry ↔ cs.entry other = some entry ∧ other ≠ i := by
  have after : (cs.beforeEvict i).stored.Nodup := by
    rw [stored_beforeEvict distinct]
    exact distinct.filter _
  rw [entry_eq_some_iff distinct,entry_eq_some_iff after]
  unfold beforeEvict
  rw [eraseP_key distinct i,List.mem_filter,decide_eq_true_eq]

theorem enter_perm (cs : Cs σ) (entry : CsEntry) : (cs.enter entry).table.Perm ((cs.nextEntry,entry) :: cs.table) := by
  unfold enter
  refine List.perm_middle.trans ?_
  rw [List.takeWhile_append_dropWhile]

private theorem mem_stored_enter (cs : Cs σ) (entry : CsEntry) (i : Nat) :
    i ∈ (cs.enter entry).stored ↔ i = cs.nextEntry ∨ i ∈ cs.stored := by
  unfold stored
  rw [((cs.enter_perm entry).map Prod.fst).mem_iff,List.map_cons,List.mem_cons]

theorem existing_stored {new : CsEntry} {i : Nat} (found : cs.existing new = some i) : i ∈ cs.stored := by
  obtain ⟨node,met,same⟩ := Option.bind_eq_some_iff.mp found
  split at same
  · cases same
  · cases same
    exact List.mem_map_of_mem (List.mem_of_find?_eq_some met)

theorem search_stored {getSuccessor : Name → Name} {interest : Interest} {i : Nat}
    (hit : cs.search getSuccessor interest = some (some i)) : i ∈ cs.stored := by
  obtain ⟨index,-,here⟩ := Option.bind_eq_some_iff.mp hit
  rcases ite_eq_iff.mp here with ⟨-,miss⟩ | ⟨-,here⟩
  · cases miss
  · obtain ⟨node,there,same⟩ := Option.map_eq_some_iff.mp here
    cases same
    exact List.mem_map_of_mem (List.mem_of_getElem? there)

end

end Cs

/-! The queues and the info map. -/

namespace PriorityFifo

/-- An info stands for one node of the queue it names, and nothing else is in the queues. -/
structure Placed (policy : PriorityFifo) : Prop where
  mem : ∀ queueType node i, (node,i) ∈ policy.queues queueType ↔
    ∃ info, policy.entryInfoMap i = some info ∧ info.queueType = queueType ∧ info.queueIt = node
  given : ∀ i info, policy.entryInfoMap i = some info → info.queueIt < policy.nextNode
  once : ∀ queueType, ((policy.queues queueType).map Prod.fst).Nodup

def unlink (policy : PriorityFifo) (i : Nat) (info : EntryInfo) : PriorityFifo :=
  {policy with
    queues := Function.update policy.queues info.queueType
      ((policy.queues info.queueType).eraseP fun node => node.1 = info.queueIt)
    entryInfoMap := Function.update policy.entryInfoMap i none}

def link (policy : PriorityFifo) (i : Nat) (queueType : QueueType) (event : Option Nat) : PriorityFifo where
  queues := Function.update policy.queues queueType (policy.queues queueType ++ [(policy.nextNode,i)])
  nextNode := policy.nextNode + 1
  entryInfoMap := Function.update policy.entryInfoMap i (some ⟨queueType,policy.nextNode,event⟩)

section
variable {policy : PriorityFifo} {i : Nat} {info : EntryInfo}

theorem Placed.unlink_queues (placed : Placed policy) (known : policy.entryInfoMap i = some info) (queueType : QueueType) :
    (policy.unlink i info).queues queueType = (policy.queues queueType).filter fun node => node.2 ≠ i := by
  have here := (placed.mem info.queueType info.queueIt i).mpr ⟨info,known,rfl,rfl⟩
  have own : ∀ node ∈ policy.queues queueType, node.2 = i → queueType = info.queueType ∧ node.1 = info.queueIt := by
    rintro ⟨node,_⟩ inside rfl
    obtain ⟨found,there,rfl,rfl⟩ := (placed.mem queueType node _).mp inside
    cases known.symm.trans there
    exact ⟨rfl,rfl⟩
  change Function.update policy.queues info.queueType _ queueType = _
  by_cases same : queueType = info.queueType
  · rw [same,Function.update_self,eraseP_key (placed.once _)]
    refine List.filter_congr fun node inside => ?_
    rw [← same] at inside
    refine decide_eq_decide.mpr (not_congr ⟨?_,fun equal => (own node inside equal).2⟩)
    intro equal
    rw [← same] at here
    exact congrArg Prod.snd (List.inj_on_of_nodup_map (placed.once queueType) inside here equal)
  · rw [Function.update_of_ne same]
    refine (List.filter_eq_self.mpr ?_).symm
    intro node inside
    exact decide_eq_true fun equal => same (own node inside equal).1

theorem Placed.unlink (placed : Placed policy) (known : policy.entryInfoMap i = some info) :
    Placed (policy.unlink i info) := by
  have infos : ∀ other found, (policy.unlink i info).entryInfoMap other = some found ↔
      policy.entryInfoMap other = some found ∧ other ≠ i := by
    intro other found
    change Function.update policy.entryInfoMap i none other = some found ↔ _
    rw [Function.update_apply]
    split
    · rename_i same
      simp [same]
    · rename_i different
      simp [different]
  refine ⟨?_,?_,?_⟩
  · intro queueType node other
    rw [placed.unlink_queues known,List.mem_filter,decide_eq_true_eq,placed.mem]
    simp only [infos]
    constructor
    · rintro ⟨⟨found,here,place⟩,different⟩
      exact ⟨found,⟨here,different⟩,place⟩
    · rintro ⟨found,⟨here,different⟩,place⟩
      exact ⟨⟨found,here,place⟩,different⟩
  · intro other found here
    exact placed.given other found ((infos other found).mp here).1
  · intro queueType
    change ((Function.update policy.queues info.queueType _ queueType).map Prod.fst).Nodup
    rw [Function.update_apply]
    split
    · exact (placed.once _).sublist (List.eraseP_sublist.map _)
    · exact placed.once queueType

theorem Placed.link (placed : Placed policy) (unknown : policy.entryInfoMap i = none) (queueType : QueueType)
    (event : Option Nat) : Placed (policy.link i queueType event) := by
  have infos : ∀ other found, (policy.link i queueType event).entryInfoMap other = some found ↔
      policy.entryInfoMap other = some found ∨ other = i ∧ found = ⟨queueType,policy.nextNode,event⟩ := by
    intro other found
    change Function.update policy.entryInfoMap i _ other = some found ↔ _
    rw [Function.update_apply]
    split
    · rename_i same
      rw [same]
      simp [unknown,eq_comm]
    · rename_i different
      simp [different]
  have queues : ∀ other node j, (node,j) ∈ (policy.link i queueType event).queues other ↔
      (node,j) ∈ policy.queues other ∨ other = queueType ∧ node = policy.nextNode ∧ j = i := by
    intro other node j
    change (node,j) ∈ Function.update policy.queues queueType _ other ↔ _
    rw [Function.update_apply]
    split
    · rename_i same
      rw [same]
      simp
    · rename_i different
      simp [different]
  refine ⟨?_,?_,?_⟩
  · intro other node j
    rw [queues,placed.mem]
    simp only [infos]
    constructor
    · rintro (⟨found,here,place⟩ | ⟨rfl,rfl,rfl⟩)
      · exact ⟨found,Or.inl here,place⟩
      · exact ⟨_,Or.inr ⟨rfl,rfl⟩,rfl,rfl⟩
    · rintro ⟨found,here | ⟨rfl,rfl⟩,rfl,rfl⟩
      · exact Or.inl ⟨found,here,rfl,rfl⟩
      · exact Or.inr ⟨rfl,rfl,rfl⟩
  · intro other found here
    rcases (infos other found).mp here with before | ⟨-,rfl⟩
    · exact Nat.lt_succ_of_lt (placed.given other found before)
    · exact Nat.lt_succ_self _
  · intro other
    change ((Function.update policy.queues queueType _ other).map Prod.fst).Nodup
    rw [Function.update_apply]
    split
    · rw [List.map_append,List.nodup_append]
      refine ⟨placed.once _,List.nodup_singleton _,?_⟩
      intro node inside last single
      obtain ⟨⟨_,j⟩,member,rfl⟩ := List.mem_map.mp inside
      obtain ⟨found,known,-,rfl⟩ := (placed.mem queueType _ j).mp member
      rw [List.mem_singleton.mp single]
      exact Nat.ne_of_lt (placed.given j found known)
    · exact placed.once other

end

/-- Every entry has an info, but for one that is not in a queue; the pending events are those of
the infos in the FIFO queue. -/
structure Linked (but : Option Nat) (cs : Cs PriorityFifo) : Prop where
  distinct : cs.stored.Nodup
  fresh : ∀ i ∈ cs.stored, i < cs.nextEntry
  known : ∀ i, (cs.policy.entryInfoMap i).isSome ↔ i ∈ cs.stored ∧ some i ≠ but
  placed : Placed cs.policy
  event : ∀ event ∈ cs.scheduler.pending, ∃ info, cs.policy.entryInfoMap event.callback = some info ∧
    info.queueType = .fifo ∧ info.moveStaleEventId = some event.id
  scheduled : ∀ i info id, cs.policy.entryInfoMap i = some info → info.queueType = .fifo →
    info.moveStaleEventId = some id → ∃ event ∈ cs.scheduler.pending, event.id = id ∧ event.callback = i

section
variable {cs : Cs PriorityFifo} {but : Option Nat} {i : Nat} {info : EntryInfo}

theorem Linked.info_none (linked : Linked (some i) cs) : cs.policy.entryInfoMap i = none := by
  rw [← Option.not_isSome_iff_eq_none,linked.known]
  simp

private theorem update_eq_some_iff (infos : Nat → Option EntryInfo) (i other : Nat) (found : EntryInfo) :
    Function.update infos i none other = some found ↔ infos other = some found ∧ other ≠ i := by
  rw [Function.update_apply]
  split
  · rename_i same
    simp [same]
  · rename_i different
    simp [different]

def detached (cs : Cs PriorityFifo) (i : Nat) (info : EntryInfo) : Cs PriorityFifo :=
  {cs with
    scheduler := if info.queueType = .fifo then cs.scheduler.cancel info.moveStaleEventId else cs.scheduler
    policy := cs.policy.unlink i info}

private theorem detachQueue_eq (placed : Placed cs.policy) (known : cs.policy.entryInfoMap i = some info) :
    detachQueue cs i = some (detached cs i info) := by
  have inside := (placed.mem info.queueType info.queueIt i).mpr ⟨info,known,rfl,rfl⟩
  unfold detachQueue
  rw [known,Option.bind_some,if_pos (List.mem_map_of_mem inside)]
  rfl

theorem Linked.detach (linked : Linked none cs) (known : cs.policy.entryInfoMap i = some info) :
    Linked (some i) (detached cs i info) := by
  have infos := update_eq_some_iff cs.policy.entryInfoMap i
  have pending : ∀ event, event ∈ (detached cs i info).scheduler.pending ↔
      event ∈ cs.scheduler.pending ∧ event.callback ≠ i := by
    intro event
    have own : ∀ event ∈ cs.scheduler.pending, event.callback = i →
        info.queueType = .fifo ∧ info.moveStaleEventId = some event.id := by
      rintro event inside rfl
      obtain ⟨found,here,fifo,handle⟩ := linked.event event inside
      cases known.symm.trans here
      exact ⟨fifo,handle⟩
    change event ∈ (if info.queueType = .fifo then cs.scheduler.cancel info.moveStaleEventId else cs.scheduler).pending ↔ _
    split
    · rename_i fifo
      rw [Scheduler.mem_cancel]
      refine and_congr_right fun inside => not_congr ⟨?_,?_⟩
      · intro same
        obtain ⟨other,there,id,callback⟩ := linked.scheduled i info event.id known fifo same.symm
        rw [Scheduler.eq_of_id inside there id.symm]
        exact callback
      · intro same
        exact (own event inside same).2.symm
    · rename_i other
      refine (and_iff_left_of_imp ?_).symm
      intro inside same
      exact other (own event inside same).1
  refine ⟨linked.distinct,linked.fresh,?_,linked.placed.unlink known,?_,?_⟩
  · intro other
    rw [Option.isSome_iff_exists]
    change (∃ found, Function.update cs.policy.entryInfoMap i none other = some found) ↔ other ∈ cs.stored ∧ _
    simp only [infos]
    have before := linked.known other
    rw [Option.isSome_iff_exists] at before
    rw [exists_and_right,before]
    simp
  · intro event inside
    obtain ⟨before,different⟩ := (pending event).mp inside
    obtain ⟨found,here,place⟩ := linked.event event before
    exact ⟨found,(infos event.callback found).mpr ⟨here,different⟩,place⟩
  · intro other found id here fifo handle
    obtain ⟨before,different⟩ := (infos other found).mp here
    obtain ⟨event,inside,same,callback⟩ := linked.scheduled other found id before fifo handle
    exact ⟨event,(pending event).mpr ⟨inside,callback ▸ different⟩,same,callback⟩

def attached (cs : Cs PriorityFifo) (i : Nat) (entry : CsEntry) : Cs PriorityFifo :=
  let moves := queueOf cs entry = .fifo ∧ entry.canStale = true
  {cs with
    scheduler := if moves then cs.scheduler.schedule (CsEntry.freshness entry.data) i else cs.scheduler
    policy := cs.policy.link i (queueOf cs entry) (if moves then some cs.scheduler.nextId else none)}

private theorem attachQueue_eq {entry : CsEntry} (unknown : cs.policy.entryInfoMap i = none) (here : cs.entry i = some entry) :
    attachQueue cs i = some (attached cs i entry) := by
  unfold attachQueue
  rw [unknown,here]
  rfl

theorem Linked.attach (linked : Linked (some i) cs) {entry : CsEntry} (here : cs.entry i = some entry) :
    Linked none (attached cs i entry) := by
  have unknown := linked.info_none
  have infos : ∀ other, other ≠ i → (attached cs i entry).policy.entryInfoMap other = cs.policy.entryInfoMap other :=
    fun other different => Function.update_of_ne different ..
  have own : (attached cs i entry).policy.entryInfoMap i = some ⟨queueOf cs entry,cs.policy.nextNode,
      if queueOf cs entry = .fifo ∧ entry.canStale = true then some cs.scheduler.nextId else none⟩ :=
    Function.update_self ..
  have pending : ∀ event, event ∈ (attached cs i entry).scheduler.pending ↔ event ∈ cs.scheduler.pending ∨
      (queueOf cs entry = .fifo ∧ entry.canStale = true) ∧
        event = ⟨cs.scheduler.nextId,cs.scheduler.now + CsEntry.freshness entry.data,i⟩ := by
    intro event
    change event ∈ (if queueOf cs entry = .fifo ∧ entry.canStale = true then _ else cs.scheduler).pending ↔ _
    split
    · rename_i moves
      rw [Scheduler.mem_schedule,and_iff_right moves]
    · rename_i stays
      simp [stays]
  refine ⟨linked.distinct,linked.fresh,?_,linked.placed.link unknown _ _,?_,?_⟩
  · intro other
    by_cases same : other = i
    · rw [same,own]
      have inside : i ∈ (attached cs i entry).stored := Cs.stored_of_entry here
      simp [inside]
    · rw [infos other same,linked.known]
      refine and_congr_right fun _ => ?_
      simp [same]
  · intro event inside
    rcases (pending event).mp inside with before | ⟨moves,rfl⟩
    · obtain ⟨found,known,place⟩ := linked.event event before
      refine ⟨found,?_,place⟩
      rw [infos event.callback ?_]
      · exact known
      · intro same
        rw [same,unknown] at known
        cases known
    · refine ⟨_,own,moves.1,?_⟩
      rw [if_pos moves]
  · intro other found id known fifo handle
    by_cases same : other = i
    · rw [same,own] at known
      cases known
      rcases ite_eq_iff.mp handle with ⟨moves,equal⟩ | ⟨-,impossible⟩
      · cases equal
        exact ⟨_,(pending _).mpr (Or.inr ⟨moves,rfl⟩),rfl,same.symm⟩
      · cases impossible
    · rw [infos other same] at known
      obtain ⟨event,inside,id,callback⟩ := linked.scheduled other found id known fifo handle
      exact ⟨event,(pending event).mpr (Or.inl inside),id,callback⟩

/-! A stale event. -/

def moved (cs : Cs PriorityFifo) (event : Scheduled Nat) (info : EntryInfo) : Cs PriorityFifo :=
  {cs with
    scheduler := cs.scheduler.fire event
    policy := (cs.policy.unlink event.callback info).link event.callback .stale info.moveStaleEventId}

theorem Linked.fireNext {event : Scheduled Nat} (linked : Linked none cs) (next : cs.scheduler.next = some event) :
    ∃ info, cs.policy.entryInfoMap event.callback = some info ∧ info.queueType = .fifo ∧
      cs.fireNext = some (moved cs event info) ∧ Linked none (moved cs event info) := by
  have there := Scheduler.next_mem next
  obtain ⟨info,known,fifo,handle⟩ := linked.event event there
  have inside := (linked.placed.mem .fifo info.queueIt event.callback).mpr ⟨info,known,fifo,rfl⟩
  have policy : (moved cs event info).policy.entryInfoMap = Function.update cs.policy.entryInfoMap event.callback
      (some ⟨.stale,cs.policy.nextNode,info.moveStaleEventId⟩) := Function.update_idem ..
  refine ⟨info,known,fifo,?_,?_⟩
  · unfold Cs.fireNext
    rw [next]
    dsimp only
    unfold moveToStaleQueue
    dsimp only
    rw [known,Option.bind_some,if_pos ⟨fifo,List.mem_map_of_mem inside⟩]
    unfold moved PriorityFifo.link PriorityFifo.unlink
    dsimp only
    rw [fifo,Function.update_idem]
  · refine ⟨linked.distinct,linked.fresh,?_,?_,?_,?_⟩
    · intro other
      rw [policy,Function.update_apply]
      split
      · rename_i same
        have stored := (linked.known event.callback).mp (Option.isSome_of_eq_some known)
        rw [same]
        exact iff_of_true rfl stored
      · exact linked.known other
    · exact (linked.placed.unlink known).link (Function.update_self ..) .stale info.moveStaleEventId
    · intro other pending
      obtain ⟨before,apart⟩ := Scheduler.mem_fire.mp pending
      obtain ⟨found,here,place,its⟩ := linked.event other before
      refine ⟨found,?_,place,its⟩
      rw [policy,Function.update_of_ne]
      · exact here
      · intro same
        rw [same] at here
        cases known.symm.trans here
        exact apart (Option.some.inj (its.symm.trans handle))
    · intro other found id here place its
      rw [policy,Function.update_apply] at here
      split at here
      · cases here
        cases place
      · rename_i different
        obtain ⟨entry,before,same,callback⟩ := linked.scheduled other found id here place its
        refine ⟨entry,Scheduler.mem_fire.mpr ⟨before,?_⟩,same,callback⟩
        intro equal
        rw [Scheduler.eq_of_id before there equal] at callback
        exact different callback.symm

/-! Evictions. -/

def order (policy : PriorityFifo) : List (Nat × Nat) :=
  policy.queues .unsolicited ++ policy.queues .stale ++ policy.queues .fifo

theorem Placed.mem_order {policy : PriorityFifo} (placed : Placed policy) (i : Nat) :
    i ∈ (order policy).map Prod.snd ↔ (policy.entryInfoMap i).isSome := by
  rw [Option.isSome_iff_exists]
  constructor
  · intro inside
    obtain ⟨⟨node,_⟩,member,rfl⟩ := List.mem_map.mp inside
    unfold order at member
    simp only [List.mem_append,placed.mem] at member
    rcases member with (⟨info,known,-⟩ | ⟨info,known,-⟩) | ⟨info,known,-⟩
    · exact ⟨info,known⟩
    · exact ⟨info,known⟩
    · exact ⟨info,known⟩
  · rintro ⟨info,known⟩
    refine List.mem_map.mpr ⟨(info.queueIt,i),?_,rfl⟩
    have inside := (placed.mem info.queueType info.queueIt i).mpr ⟨info,known,rfl,rfl⟩
    unfold order
    cases type : info.queueType <;> rw [type] at inside <;> simp [inside]

theorem Placed.queue_unique {policy : PriorityFifo} (placed : Placed policy) {first second : QueueType} {i : Nat}
    (here : i ∈ (policy.queues first).map Prod.snd) (there : i ∈ (policy.queues second).map Prod.snd) : first = second := by
  obtain ⟨⟨node,_⟩,inside,rfl⟩ := List.mem_map.mp here
  obtain ⟨⟨other,_⟩,again,same⟩ := List.mem_map.mp there
  obtain ⟨info,known,rfl,-⟩ := (placed.mem first node _).mp inside
  obtain ⟨found,known',rfl,-⟩ := (placed.mem second other _).mp again
  dsimp only at same known known'
  rw [same] at known'
  cases known.symm.trans known'
  rfl

theorem Placed.queue_nodup {policy : PriorityFifo} (placed : Placed policy) (queueType : QueueType) :
    ((policy.queues queueType).map Prod.snd).Nodup := by
  refine List.Nodup.map_on ?_ ((placed.once queueType).of_map _)
  rintro ⟨node,i⟩ here ⟨other,_⟩ there rfl
  obtain ⟨info,known,-,rfl⟩ := (placed.mem queueType node i).mp here
  obtain ⟨found,known',-,rfl⟩ := (placed.mem queueType other i).mp there
  cases known.symm.trans known'
  rfl

theorem Placed.order_nodup {policy : PriorityFifo} (placed : Placed policy) : ((order policy).map Prod.snd).Nodup := by
  unfold order
  rw [List.map_append,List.map_append,List.nodup_append,List.nodup_append]
  refine ⟨⟨placed.queue_nodup _,placed.queue_nodup _,?_⟩,placed.queue_nodup _,?_⟩
  · rintro i here _ there rfl
    cases placed.queue_unique here there
  · rintro i here _ there rfl
    rcases List.mem_append.mp here with first | second
    · cases placed.queue_unique first there
    · cases placed.queue_unique second there

theorem Linked.order_perm (linked : Linked none cs) : ((order cs.policy).map Prod.snd).Perm cs.stored := by
  rw [List.perm_ext_iff_of_nodup linked.placed.order_nodup linked.distinct]
  intro i
  rw [linked.placed.mem_order,linked.known]
  simp

theorem Linked.order_length (linked : Linked none cs) : (order cs.policy).length = cs.size := by
  have same := linked.order_perm.length_eq
  rw [List.length_map] at same
  exact same.trans (List.length_map _)

structure Shrinks (cs next : Cs PriorityFifo) : Prop where
  limit : next.limit = cs.limit
  nextEntry : next.nextEntry = cs.nextEntry
  entry : ∀ i entry, next.entry i = some entry → cs.entry i = some entry
  info : ∀ i info, next.policy.entryInfoMap i = some info → cs.policy.entryInfoMap i = some info

theorem Shrinks.trans {first second third : Cs PriorityFifo} (one : Shrinks first second) (two : Shrinks second third) :
    Shrinks first third :=
  ⟨two.limit.trans one.limit,two.nextEntry.trans one.nextEntry,fun i entry here => one.entry i entry (two.entry i entry here),
    fun i info known => one.info i info (two.info i info known)⟩

/-- An entry that is in no queue leaves the store. -/
theorem Linked.evict (linked : Linked (some i) cs) : Linked none (cs.beforeEvict i) := by
  have stored := Cs.stored_beforeEvict linked.distinct i
  refine ⟨?_,?_,?_,linked.placed,linked.event,linked.scheduled⟩
  · rw [stored]
    exact linked.distinct.filter _
  · intro other inside
    rw [stored] at inside
    exact linked.fresh other (List.mem_filter.mp inside).1
  · intro other
    rw [stored,List.mem_filter,decide_eq_true_eq]
    refine (linked.known other).trans ?_
    simp

private theorem evictOne_eq (cs : Cs PriorityFifo) : evictOne cs = (order cs.policy).head?.bind fun node =>
    (detachQueue cs node.2).map fun cs => cs.beforeEvict node.2 := by
  unfold evictOne order
  dsimp only
  congr 1
  cases first : cs.policy.queues .unsolicited with
  | cons node rest => rfl
  | nil =>
    cases second : cs.policy.queues .stale with
    | cons node rest => rfl
    | nil => rfl

/-- An eviction takes the front of the first queue that is not empty. -/
theorem Linked.evictOne {node : Nat × Nat} {rest : List (Nat × Nat)} (linked : Linked none cs)
    (front : order cs.policy = node :: rest) : ∃ next, evictOne cs = some next ∧ Linked none next ∧
      order next.policy = rest ∧ Shrinks cs next := by
  have member : node.2 ∈ (order cs.policy).map Prod.snd := by
    rw [front]
    exact List.mem_cons_self
  obtain ⟨info,known⟩ := Option.isSome_iff_exists.mp ((linked.placed.mem_order node.2).mp member)
  have distinct := linked.placed.order_nodup
  rw [front,List.map_cons,List.nodup_cons] at distinct
  have others : rest.filter (fun other => other.2 ≠ node.2) = rest := by
    apply List.filter_eq_self.mpr
    intro other inside
    apply decide_eq_true
    intro same
    exact distinct.1 (same ▸ List.mem_map_of_mem inside)
  have after := (linked.detach known).evict
  refine ⟨_,?_,after,?_,?_⟩
  · rw [evictOne_eq,front,List.head?_cons,Option.bind_some,detachQueue_eq linked.placed known,Option.map_some]
  · change order (cs.policy.unlink node.2 info) = rest
    unfold order
    rw [linked.placed.unlink_queues known,linked.placed.unlink_queues known,linked.placed.unlink_queues known,
      ← List.filter_append,← List.filter_append]
    change (order cs.policy).filter _ = rest
    rw [front,List.filter_cons_of_neg (by simp)]
    exact others
  · refine ⟨rfl,rfl,?_,?_⟩
    · intro other entry here
      exact ((Cs.entry_beforeEvict (linked.detach known).distinct node.2 other entry).mp here).1
    · intro other found here
      exact ((update_eq_some_iff cs.policy.entryInfoMap node.2 other found).mp here).1

/-- The evictions take entries from the front until the limit is met. -/
theorem Linked.evictRounds (rounds : Nat) (linked : Linked none cs) (enough : cs.size ≤ cs.limit + rounds) :
    ∃ next, evictRounds rounds cs = some next ∧ Linked none next ∧
      order next.policy = (order cs.policy).drop (cs.size - cs.limit) ∧ Shrinks cs next := by
  induction rounds generalizing cs with
  | zero =>
    have enough : cs.size ≤ cs.limit := enough
    refine ⟨cs,if_neg (Nat.not_lt_of_le enough),linked,?_,rfl,rfl,fun _ _ here => here,fun _ _ known => known⟩
    rw [Nat.sub_eq_zero_of_le enough,List.drop_zero]
  | succ rounds ih =>
    by_cases full : cs.size > cs.limit
    · have length := linked.order_length
      cases front : order cs.policy with
      | nil =>
        rw [front,List.length_nil] at length
        omega
      | cons node rest =>
        obtain ⟨next,taken,after,left,shrinks⟩ := linked.evictOne front
        have smaller : next.size + 1 = cs.size := by
          rw [← after.order_length,left,← length,front,List.length_cons]
        obtain ⟨last,reached,good,dropped,more⟩ := ih after (by rw [shrinks.limit]; omega)
        refine ⟨last,?_,good,?_,shrinks.trans more⟩
        · rw [PriorityFifo.evictRounds,if_pos full,taken,Option.bind_some]
          exact reached
        · rw [dropped,left,shrinks.limit]
          have count : cs.size - cs.limit = next.size - cs.limit + 1 := by omega
          rw [count,List.drop_succ_cons]
    · refine ⟨cs,if_neg full,linked,?_,rfl,rfl,fun _ _ here => here,fun _ _ known => known⟩
      rw [Nat.sub_eq_zero_of_le (Nat.le_of_not_lt full),List.drop_zero]

theorem Linked.size_le_of_dropped {next : Cs PriorityFifo} (linked : Linked none cs) (after : Linked none next)
    (dropped : order next.policy = (order cs.policy).drop (cs.size - cs.limit)) (limit : next.limit = cs.limit) :
    next.size ≤ next.limit := by
  rw [← after.order_length,dropped,List.length_drop,linked.order_length,limit]
  omega

/-! The queues that entries belong to. -/

/-- Every entry is in its queue, and has a stale event exactly if it is in the FIFO queue and can
become stale. -/
def Filed (but : Option Nat) (fired : Nat → Bool) (cs : Cs PriorityFifo) : Prop :=
  ∀ i entry info, some i ≠ but → cs.entry i = some entry → cs.policy.entryInfoMap i = some info →
    info.queueType = (if entry.isUnsolicited then .unsolicited else if fired i then .stale else .fifo) ∧
      (info.queueType = .fifo → (info.moveStaleEventId.isSome ↔ entry.canStale = true))

variable {fired : Nat → Bool}

theorem Filed.shrinks {next : Cs PriorityFifo} (filed : Filed but fired cs) (shrinks : Shrinks cs next) :
    Filed but fired next :=
  fun i entry info other here known => filed i entry info other (shrinks.entry i entry here) (shrinks.info i info known)

theorem Filed.update (filed : Filed (some i) fired cs) (value : Bool) :
    Filed (some i) (Function.update fired i value) cs := by
  intro other entry found different here known
  have apart : other ≠ i := fun same => different (by rw [same])
  rw [Function.update_of_ne apart]
  exact filed other entry found different here known

theorem Filed.detach (filed : Filed (some i) fired cs) (info : EntryInfo) : Filed (some i) fired (detached cs i info) := by
  intro other entry found different here known
  have before := ((update_eq_some_iff cs.policy.entryInfoMap i other found).mp known).1
  exact filed other entry found different here before

private theorem isStale_updateStaleTime (now : Int) (entry : CsEntry) : (entry.updateStaleTime now).isStale now = false := by
  unfold CsEntry.updateStaleTime CsEntry.isStale CsEntry.freshness
  dsimp only
  split
  · simp only [Option.any_some,decide_eq_false_iff_not]
    omega
  · rfl

theorem Filed.attach {entry : CsEntry} (filed : Filed (some i) fired cs) (here : cs.entry i = some entry)
    (fresh : entry.isStale cs.scheduler.now = false) (quiet : fired i = false) : Filed none fired (attached cs i entry) := by
  intro other found info _ there known
  by_cases same : other = i
  · rw [same] at there known ⊢
    cases here.symm.trans there
    change Function.update cs.policy.entryInfoMap i _ i = some info at known
    rw [Function.update_self] at known
    cases known
    dsimp only
    unfold queueOf
    rw [fresh,quiet]
    cases entry.isUnsolicited <;> simp
  · have before : cs.policy.entryInfoMap other = some info := (Function.update_of_ne same ..).symm.trans known
    exact filed other found info (fun equal => same (Option.some.inj equal)) there before

theorem Filed.moved {event : Scheduled Nat} (filed : Filed none fired cs)
    (known : cs.policy.entryInfoMap event.callback = some info) (fifo : info.queueType = .fifo) :
    Filed none (Function.update fired event.callback true) (moved cs event info) := by
  have infos : (PriorityFifo.moved cs event info).policy.entryInfoMap = Function.update cs.policy.entryInfoMap event.callback
      (some ⟨.stale,cs.policy.nextNode,info.moveStaleEventId⟩) := Function.update_idem ..
  intro other entry found _ here there
  rw [infos] at there
  by_cases same : other = event.callback
  · rw [same] at here there ⊢
    rw [Function.update_self] at there ⊢
    cases there
    have solicited := (filed event.callback entry info (by simp) here known).1
    rw [fifo] at solicited
    refine ⟨?_,fun impossible => nomatch impossible⟩
    cases unsolicited : entry.isUnsolicited with
    | true =>
      rw [unsolicited,if_pos rfl] at solicited
      cases solicited
    | false => rfl
  · rw [Function.update_of_ne same] at there ⊢
    exact filed other entry found (by simp) here there

/-! The operations. -/

theorem Linked.setEntry (linked : Linked but cs) (i : Nat) (change : CsEntry → CsEntry) :
    Linked but (cs.setEntry i change) := by
  have stored := cs.stored_setEntry i change
  refine ⟨?_,?_,?_,linked.placed,linked.event,linked.scheduled⟩
  · rw [stored]
    exact linked.distinct
  · rw [stored]
    exact linked.fresh
  · rw [stored]
    exact linked.known

theorem Filed.setEntry (filed : Filed none fired cs) (i : Nat) (change : CsEntry → CsEntry) :
    Filed (some i) fired (cs.setEntry i change) := by
  intro other entry info different here known
  have apart : other ≠ i := fun same => different (by rw [same])
  rw [Cs.entry_setEntry,if_neg apart] at here
  exact filed other entry info (by simp) here known

theorem Linked.enter (linked : Linked none cs) (entry : CsEntry) : Linked (some cs.nextEntry) (cs.enter entry) := by
  have members := cs.mem_stored_enter entry
  have unknown : cs.nextEntry ∉ cs.stored := fun inside => Nat.lt_irrefl _ (linked.fresh _ inside)
  refine ⟨?_,?_,?_,linked.placed,linked.event,linked.scheduled⟩
  · have perm := (cs.enter_perm entry).map Prod.fst
    exact perm.nodup_iff.mpr (List.nodup_cons.mpr ⟨unknown,linked.distinct⟩)
  · intro i inside
    rcases (members i).mp inside with rfl | before
    · exact Nat.lt_succ_self _
    · exact Nat.lt_succ_of_lt (linked.fresh i before)
  · intro i
    rw [members]
    refine (linked.known i).trans ?_
    constructor
    · rintro ⟨inside,-⟩
      refine ⟨Or.inr inside,fun same => unknown ?_⟩
      rw [← Option.some.inj same]
      exact inside
    · rintro ⟨rfl | inside,different⟩
      · exact absurd rfl different
      · exact ⟨inside,by simp⟩

private theorem entry_enter (linked : Linked none cs) (new : CsEntry) (i : Nat) (entry : CsEntry) :
    (cs.enter new).entry i = some entry ↔ cs.entry i = some entry ∨ i = cs.nextEntry ∧ entry = new := by
  rw [Cs.entry_eq_some_iff linked.distinct,Cs.entry_eq_some_iff (linked.enter new).distinct,(cs.enter_perm new).mem_iff,
    List.mem_cons,Prod.mk.injEq,or_comm]

theorem Filed.enter (linked : Linked none cs) (filed : Filed none fired cs) (new : CsEntry) :
    Filed (some cs.nextEntry) fired (cs.enter new) := by
  intro i entry info different here known
  rcases (entry_enter linked new i entry).mp here with before | ⟨rfl,-⟩
  · exact filed i entry info (by simp) before known
  · exact absurd rfl different

end

end PriorityFifo

namespace Cs
open PriorityFifo

def queue (cs : Cs PriorityFifo) (queueType : QueueType) : List Nat := (cs.policy.queues queueType).map Prod.snd

/-- The entries in the order in which they would be evicted. -/
def evictionOrder (cs : Cs PriorityFifo) : List Nat := cs.queue .unsolicited ++ cs.queue .stale ++ cs.queue .fifo

def joinedOrder (cs : Cs PriorityFifo) (isUnsolicited : Bool) : List Nat :=
  if isUnsolicited then cs.queue .unsolicited ++ [cs.nextEntry] ++ cs.queue .stale ++ cs.queue .fifo
  else cs.queue .unsolicited ++ cs.queue .stale ++ cs.queue .fifo ++ [cs.nextEntry]

section
variable {cs : Cs PriorityFifo} {fired : Nat → Bool}

private theorem evictionOrder_eq (cs : Cs PriorityFifo) : cs.evictionOrder = (order cs.policy).map Prod.snd := by
  unfold evictionOrder queue order
  rw [List.map_append,List.map_append]

/-- A refreshed entry moves to the end of its queue, and nothing is evicted. -/
theorem refresh_spec (linked : Linked none cs) (filed : Filed none fired cs) {i : Nat} (stored : i ∈ cs.stored)
    {change : CsEntry → CsEntry} (fresh : ∀ entry, (change entry).isStale cs.scheduler.now = false) :
    ∃ next, PriorityFifo.policy.doAfterRefresh (cs.setEntry i change) i = some next ∧ Linked none next ∧
      Filed none (Function.update fired i false) next ∧ next.stored = cs.stored ∧ next.limit = cs.limit := by
  obtain ⟨entry,here⟩ := entry_of_stored linked.distinct stored
  have before := linked.setEntry i change
  obtain ⟨info,known⟩ := Option.isSome_iff_exists.mp ((linked.known i).mpr ⟨stored,by simp⟩)
  have changed : (detached (cs.setEntry i change) i info).entry i = some (change entry) := by
    change (cs.setEntry i change).entry i = _
    rw [entry_setEntry,if_pos rfl,here]
    rfl
  have middle := before.detach known
  have sorted := ((filed.setEntry i change).detach info).update false
  refine ⟨attached (detached (cs.setEntry i change) i info) i (change entry),?_,middle.attach changed,?_,
    cs.stored_setEntry i change,rfl⟩
  · change (detachQueue _ i).bind _ = _
    rw [detachQueue_eq before.placed known,Option.bind_some]
    exact attachQueue_eq middle.info_none changed
  · refine sorted.attach changed ?_ (Function.update_self ..)
    have now : (detached (cs.setEntry i change) i info).scheduler.now = cs.scheduler.now := by
      change (if _ then _ else _ : Scheduler Nat).now = _
      split <;> rfl
    rw [now]
    exact fresh entry

/-- A new entry joins its queue, and the first entries are evicted. -/
theorem enter_spec (linked : Linked none cs) (filed : Filed none fired cs) {new : CsEntry}
    (fresh : new.isStale cs.scheduler.now = false) :
    ∃ next, PriorityFifo.policy.doAfterInsert (cs.enter new) cs.nextEntry = some next ∧ Linked none next ∧
      Filed none (Function.update fired cs.nextEntry false) next ∧
      next.evictionOrder = (cs.joinedOrder new.isUnsolicited).drop (cs.size + 1 - cs.limit) ∧
      next.size ≤ next.limit ∧ next.limit = cs.limit := by
  have here : (cs.enter new).entry cs.nextEntry = some new := (entry_enter linked new _ _).mpr (Or.inr ⟨rfl,rfl⟩)
  have middle := linked.enter new
  have joined := middle.attach here
  have sorted := ((filed.enter linked new).update false).attach here fresh (Function.update_self ..)
  have size : (attached (cs.enter new) cs.nextEntry new).size = cs.size + 1 := (cs.enter_perm new).length_eq
  obtain ⟨next,taken,after,dropped,shrinks⟩ := joined.evictRounds _ (Nat.le_add_left _ _)
  refine ⟨next,?_,after,sorted.shrinks shrinks,?_,joined.size_le_of_dropped after dropped shrinks.limit,shrinks.limit⟩
  · change (attachQueue _ _).bind _ = _
    rw [attachQueue_eq middle.info_none here,Option.bind_some]
    exact taken
  · rw [evictionOrder_eq,dropped,List.map_drop,size]
    have order : (order (attached (cs.enter new) cs.nextEntry new).policy).map Prod.snd = cs.joinedOrder new.isUnsolicited := by
      have queues : ∀ queueType, (attached (cs.enter new) cs.nextEntry new).queue queueType =
          if queueType = queueOf (cs.enter new) new then cs.queue queueType ++ [cs.nextEntry] else cs.queue queueType := by
        intro queueType
        change (Function.update cs.policy.queues (queueOf (cs.enter new) new) _ queueType).map Prod.snd = _
        rw [Function.update_apply]
        split
        · rename_i same
          rw [same,List.map_append]
          rfl
        · rfl
      have place : queueOf (cs.enter new) new = if new.isUnsolicited then .unsolicited else .fifo := by
        unfold queueOf
        rw [show new.isStale (cs.enter new).scheduler.now = false from fresh]
        rfl
      rw [← evictionOrder_eq,evictionOrder,queues,queues,queues,place]
      unfold joinedOrder
      cases new.isUnsolicited <;> simp
    rw [order]
    rfl

private theorem setLimit_spec (linked : Linked none cs) (filed : Filed none fired cs) {nMaxEntries : Nat} (positive : 0 < nMaxEntries) :
    ∃ next, cs.setLimit PriorityFifo.policy nMaxEntries = some next ∧ Linked none next ∧ Filed none fired next ∧
      next.evictionOrder = cs.evictionOrder.drop (cs.size - nMaxEntries) ∧ next.size ≤ next.limit ∧
      next.limit = nMaxEntries := by
  have limited : Linked none {cs with limit := nMaxEntries} :=
    ⟨linked.distinct,linked.fresh,linked.known,linked.placed,linked.event,linked.scheduled⟩
  obtain ⟨next,taken,after,dropped,shrinks⟩ := limited.evictRounds _ (Nat.le_add_left _ _)
  have sorted : Filed none fired {cs with limit := nMaxEntries} := filed
  refine ⟨next,?_,after,sorted.shrinks shrinks,?_,limited.size_le_of_dropped after dropped shrinks.limit,shrinks.limit⟩
  · unfold setLimit
    rw [if_pos positive]
    exact taken
  · rw [evictionOrder_eq,evictionOrder_eq,dropped,List.map_drop]
    rfl

end

/-! Runs, with a record of the entries whose stale event fired. -/

/-- Whether the stale event of an entry fired since it was last inserted or refreshed. -/
structure Watched where
  cs : Cs PriorityFifo
  fired : Nat → Bool

def target (cs : Cs PriorityFifo) (data : DataPacket) (isUnsolicited : Bool) : Nat :=
  (cs.existing (CsEntry.setData cs.scheduler.now data isUnsolicited)).getD cs.nextEntry

namespace Watched

def firedAfter (watched : Watched) : Event → Nat → Bool
  | .insert data isUnsolicited =>
    if data.cachingPolicy = some .noCache then watched.fired
    else Function.update watched.fired (watched.cs.target data isUnsolicited) false
  | .moveToStaleQueue =>
    match watched.cs.scheduler.next with
    | none => watched.fired
    | some event => Function.update watched.fired event.callback true
  | _ => watched.fired

def step (getSuccessor : Name → Name) (watched : Watched) (event : Event) : Option Watched :=
  (watched.cs.step getSuccessor event).map fun cs => ⟨cs,watched.firedAfter event⟩

def new (nMaxPackets : Nat) (now : Int) : Option Watched := (Cs.new nMaxPackets now).map fun cs => ⟨cs,fun _ => false⟩

/-- Every entry is in one queue and once, nothing else is in the queues, and the queues are the right ones. -/
structure WellQueued (watched : Watched) : Prop where
  one : ∀ i ∈ watched.cs.stored, ∃! queueType, i ∈ watched.cs.queue queueType
  once : ∀ queueType, (watched.cs.queue queueType).Nodup
  stored : ∀ queueType, ∀ i ∈ watched.cs.queue queueType, i ∈ watched.cs.stored
  fifo : ∀ i entry, watched.cs.entry i = some entry →
    (i ∈ watched.cs.queue .fifo ↔ entry.isUnsolicited = false ∧ watched.fired i = false)
  pending : ∀ event ∈ watched.cs.scheduler.pending, event.callback ∈ watched.cs.queue .fifo ∧
    ∃ entry, watched.cs.entry event.callback = some entry ∧ entry.canStale = true
  limited : watched.cs.size ≤ watched.cs.limit

end Watched

/-- No assertion fails, apart from the one that a limit is positive, and evictions take the first
entries of the order in which the queues are emptied. -/
def Handles (getSuccessor : Name → Name) (cs : Cs PriorityFifo) : Event → Prop
  | .insert data isUnsolicited =>
    if data.cachingPolicy = some .noCache then cs.insert PriorityFifo.policy data isUnsolicited = some (cs,false)
    else ∃ next, cs.insert PriorityFifo.policy data isUnsolicited = some (next,true) ∧ next.limit = cs.limit ∧
      if (cs.existing (CsEntry.setData cs.scheduler.now data isUnsolicited)).isSome then next.stored = cs.stored
      else next.evictionOrder = (cs.joinedOrder isUnsolicited).drop (cs.size + 1 - cs.limit)
  | .find interest => ∀ found, cs.search getSuccessor interest = some found →
    cs.find PriorityFifo.policy getSuccessor interest = some (cs,found)
  | .setLimit nMaxEntries => 0 < nMaxEntries → ∃ next, cs.setLimit PriorityFifo.policy nMaxEntries = some next ∧
    next.limit = nMaxEntries ∧ next.evictionOrder = cs.evictionOrder.drop (cs.size - nMaxEntries)
  | .moveToStaleQueue => cs.fireNext.isSome
  | .advance _ => True

structure Kept (watched : Watched) : Prop where
  linked : Linked none watched.cs
  filed : Filed none watched.fired watched.cs
  limited : watched.cs.size ≤ watched.cs.limit

section
variable {watched next : Watched} {getSuccessor : Name → Name}

theorem Kept.insert (kept : Kept watched) (data : DataPacket) (isUnsolicited : Bool) :
    watched.cs.Handles getSuccessor (.insert data isUnsolicited) ∧
      ∀ next, watched.step getSuccessor (.insert data isUnsolicited) = some next → Kept next := by
  have taken : ∀ next accepted, watched.cs.insert PriorityFifo.policy data isUnsolicited = some (next,accepted) →
      watched.step getSuccessor (.insert data isUnsolicited) =
        some ⟨next,watched.firedAfter (.insert data isUnsolicited)⟩ := by
    intro next accepted inserted
    unfold Watched.step Cs.step
    dsimp only
    rw [inserted]
    rfl
  unfold Handles
  dsimp only
  split
  · rename_i refused
    have same : watched.cs.insert PriorityFifo.policy data isUnsolicited = some (watched.cs,false) := if_pos refused
    refine ⟨same,?_⟩
    intro next stepped
    rw [taken _ _ same] at stepped
    cases stepped
    unfold Watched.firedAfter
    dsimp only
    rw [if_pos refused]
    exact kept
  · rename_i cached
    have fires : watched.firedAfter (.insert data isUnsolicited) =
        Function.update watched.fired (watched.cs.target data isUnsolicited) false := if_neg cached
    cases found : watched.cs.existing (CsEntry.setData watched.cs.scheduler.now data isUnsolicited) with
    | some i =>
      have target : watched.cs.target data isUnsolicited = i := by
        unfold Cs.target
        rw [found]
        rfl
      have stays : ∀ entry : CsEntry, (let updated := entry.updateStaleTime watched.cs.scheduler.now
          if updated.isUnsolicited && !isUnsolicited then updated.unsetUnsolicited watched.cs.scheduler.now else updated).isStale
            watched.cs.scheduler.now = false := by
        intro entry
        dsimp only
        split
        · exact isStale_updateStaleTime ..
        · exact isStale_updateStaleTime ..
      obtain ⟨next,refreshed,linked,filed,stored,limit⟩ :=
        refresh_spec kept.linked kept.filed (existing_stored found) stays
      have inserted : watched.cs.insert PriorityFifo.policy data isUnsolicited = some (next,true) := by
        unfold Cs.insert
        rw [if_neg cached]
        dsimp only
        rw [found]
        dsimp only
        rw [refreshed]
        rfl
      refine ⟨⟨next,inserted,limit,?_⟩,?_⟩
      · rw [if_pos Option.isSome_some]
        exact stored
      · intro last stepped
        rw [taken _ _ inserted] at stepped
        cases stepped
        refine ⟨linked,?_,?_⟩
        · rw [fires,target]
          exact filed
        · have size : next.size = watched.cs.size := by
            have lengths := congrArg List.length stored
            unfold Cs.stored at lengths
            rwa [List.length_map,List.length_map] at lengths
          change next.size ≤ next.limit
          rw [size,limit]
          exact kept.limited
    | none =>
      have target : watched.cs.target data isUnsolicited = watched.cs.nextEntry := by
        unfold Cs.target
        rw [found]
        rfl
      obtain ⟨next,entered,linked,filed,order,limited,limit⟩ := enter_spec kept.linked kept.filed
        (isStale_updateStaleTime watched.cs.scheduler.now (CsEntry.setData watched.cs.scheduler.now data isUnsolicited))
      have inserted : watched.cs.insert PriorityFifo.policy data isUnsolicited = some (next,true) := by
        unfold Cs.insert
        rw [if_neg cached]
        dsimp only
        rw [found]
        dsimp only
        rw [entered]
        rfl
      refine ⟨⟨next,inserted,limit,?_⟩,?_⟩
      · rw [if_neg (by simp)]
        exact order
      · intro last stepped
        rw [taken _ _ inserted] at stepped
        cases stepped
        refine ⟨linked,?_,limited⟩
        rw [fires,target]
        exact filed

theorem Kept.handles (kept : Kept watched) (event : Event) : watched.cs.Handles getSuccessor event := by
  cases event with
  | insert data isUnsolicited => exact (kept.insert data isUnsolicited).1
  | find interest =>
    intro found searched
    unfold Cs.find
    rw [searched,Option.bind_some]
    cases found with
    | none => rfl
    | some i =>
      have known := (kept.linked.known i).mpr ⟨search_stored searched,by simp⟩
      change Option.map _ (if (watched.cs.policy.entryInfoMap i).isSome then some watched.cs else none) = _
      rw [if_pos known]
      rfl
  | setLimit nMaxEntries =>
    intro positive
    obtain ⟨next,taken,-,-,order,-,limit⟩ := setLimit_spec kept.linked kept.filed positive
    exact ⟨next,taken,limit,order⟩
  | moveToStaleQueue =>
    change watched.cs.fireNext.isSome
    cases first : watched.cs.scheduler.next with
    | none =>
      unfold fireNext
      rw [first]
      rfl
    | some event =>
      obtain ⟨info,-,-,moved,-⟩ := kept.linked.fireNext first
      rw [moved]
      rfl
  | advance time => trivial

theorem Kept.step (kept : Kept watched) {event : Event} (stepped : watched.step getSuccessor event = some next) : Kept next := by
  cases event with
  | insert data isUnsolicited => exact (kept.insert data isUnsolicited).2 next stepped
  | find interest =>
    obtain ⟨cs,taken,rfl⟩ := Option.map_eq_some_iff.mp stepped
    obtain ⟨⟨_,answer⟩,searched,rfl⟩ := Option.map_eq_some_iff.mp taken
    obtain ⟨found,met,-⟩ := Option.bind_eq_some_iff.mp searched
    rw [kept.handles (.find interest) found met] at searched
    cases searched
    exact kept
  | setLimit nMaxEntries =>
    obtain ⟨cs,taken,rfl⟩ := Option.map_eq_some_iff.mp stepped
    by_cases positive : 0 < nMaxEntries
    · obtain ⟨after,reached,linked,filed,-,limited,-⟩ := setLimit_spec kept.linked kept.filed positive
      cases reached.symm.trans taken
      exact ⟨linked,filed,limited⟩
    · cases (if_neg positive).symm.trans taken
  | moveToStaleQueue =>
    obtain ⟨cs,taken,rfl⟩ := Option.map_eq_some_iff.mp stepped
    change watched.cs.fireNext = some cs at taken
    unfold Watched.firedAfter
    dsimp only
    cases first : watched.cs.scheduler.next with
    | none =>
      unfold fireNext at taken
      rw [first] at taken
      cases taken
      exact kept
    | some event =>
      obtain ⟨info,known,fifo,moved,linked⟩ := kept.linked.fireNext first
      cases moved.symm.trans taken
      exact ⟨linked,kept.filed.moved known fifo,kept.limited⟩
  | advance time =>
    cases stepped
    have linked := kept.linked
    have pending := watched.cs.scheduler.advance_pending time
    refine ⟨⟨linked.distinct,linked.fresh,linked.known,linked.placed,?_,?_⟩,kept.filed,kept.limited⟩
    · rw [pending]
      exact linked.event
    · rw [pending]
      exact linked.scheduled

theorem Kept.wellQueued (kept : Kept watched) : watched.WellQueued := by
  have linked := kept.linked
  have placed := linked.placed
  have mem : ∀ queueType i, i ∈ watched.cs.queue queueType ↔
      ∃ info, watched.cs.policy.entryInfoMap i = some info ∧ info.queueType = queueType := by
    intro queueType i
    constructor
    · intro inside
      obtain ⟨⟨node,_⟩,member,rfl⟩ := List.mem_map.mp inside
      obtain ⟨info,known,type,-⟩ := (placed.mem queueType node _).mp member
      exact ⟨info,known,type⟩
    · rintro ⟨info,known,type⟩
      exact List.mem_map.mpr ⟨(info.queueIt,i),(placed.mem queueType info.queueIt i).mpr ⟨info,known,type,rfl⟩,rfl⟩
  refine ⟨?_,placed.queue_nodup,?_,?_,?_,kept.limited⟩
  · intro i stored
    obtain ⟨info,known⟩ := Option.isSome_iff_exists.mp ((linked.known i).mpr ⟨stored,by simp⟩)
    have here := (mem info.queueType i).mpr ⟨info,known,rfl⟩
    exact ⟨info.queueType,here,fun other there => placed.queue_unique there here⟩
  · intro queueType i inside
    obtain ⟨info,known,-⟩ := (mem queueType i).mp inside
    exact ((linked.known i).mp (Option.isSome_of_eq_some known)).1
  · intro i entry here
    obtain ⟨info,known⟩ := Option.isSome_iff_exists.mp ((linked.known i).mpr ⟨stored_of_entry here,by simp⟩)
    have type := (kept.filed i entry info (by simp) here known).1
    rw [mem]
    constructor
    · rintro ⟨found,again,fifo⟩
      cases known.symm.trans again
      rw [type] at fifo
      cases unsolicited : entry.isUnsolicited <;> cases fires : watched.fired i <;> simp [unsolicited,fires] at fifo ⊢
    · rintro ⟨solicited,quiet⟩
      refine ⟨info,known,?_⟩
      rw [type,solicited,quiet]
      rfl
  · intro event inside
    obtain ⟨info,known,fifo,handle⟩ := linked.event event inside
    have stored := ((linked.known event.callback).mp (Option.isSome_of_eq_some known)).1
    obtain ⟨entry,here⟩ := entry_of_stored linked.distinct stored
    refine ⟨(mem .fifo event.callback).mpr ⟨info,known,fifo⟩,entry,here,?_⟩
    refine ((kept.filed event.callback entry info (by simp) here known).2 fifo).mp ?_
    rw [handle]
    rfl

theorem new_kept {nMaxPackets : Nat} {now : Int} (built : Watched.new nMaxPackets now = some watched) : Kept watched := by
  obtain ⟨cs,made,rfl⟩ := Option.map_eq_some_iff.mp built
  have linked : Linked none (empty now) := by
    refine ⟨List.nodup_nil,fun _ inside => absurd inside List.not_mem_nil,?_,⟨?_,?_,fun _ => List.nodup_nil⟩,?_,?_⟩
    · simp [Cs.stored,empty]
    · simp [empty]
    · intro i info known
      cases known
    · intro event inside
      cases inside
    · intro i info id known
      cases known
  have filed : Filed none (fun _ => false) (empty now) := by
    intro i entry info _ here
    cases here
  by_cases positive : 0 < nMaxPackets
  · obtain ⟨after,reached,good,sorted,-,limited,-⟩ := setLimit_spec linked filed positive
    cases reached.symm.trans made
    exact ⟨good,sorted,limited⟩
  · cases (if_neg positive).symm.trans made

end

/-- In every run every entry is in the queue it belongs to, stale events are pending for fresh
entries only, the limit is kept, and no assertion fails but that limits are positive. -/
theorem queues_maintained (getSuccessor : Name → Name) (nMaxPackets : Nat) (now : Int) (events : List Event) :
    ((Watched.new nMaxPackets now).isSome ↔ 0 < nMaxPackets) ∧
      Along (attempt (Watched.step getSuccessor)) (fun state => ∀ watched, state = some watched → watched.WellQueued)
        (Watched.new nMaxPackets now) events ∧
      Steps (attempt (Watched.step getSuccessor)) (fun state event => ∀ watched, state = some watched →
        watched.cs.Handles getSuccessor event) (Watched.new nMaxPackets now) events := by
  have always : Along (attempt (Watched.step getSuccessor)) (fun state => ∀ watched, state = some watched → Kept watched)
      (Watched.new nMaxPackets now) events := by
    refine along_of_steps (Q := fun _ _ => True) ?_ (fun watched built => new_kept built) (fun _ _ _ => trivial)
    intro state event holds _ next reached
    obtain ⟨watched,here,stepped⟩ := Option.bind_eq_some_iff.mp reached
    exact (holds watched here).step stepped
  refine ⟨?_,?_,?_⟩
  · rw [Watched.new,Option.isSome_map]
    constructor
    · intro built
      by_contra zero
      have refused : Cs.new nMaxPackets now = none := if_neg zero
      rw [refused] at built
      cases built
    · intro positive
      have built : Cs.new nMaxPackets now = some _ := if_pos positive
      rw [built]
      rfl
  · intro before inside watched here
    exact (always before inside watched here).wellQueued
  · intro before event inside watched here
    exact (always before ((List.prefix_append _ _).trans inside) watched here).handles event

/-- A limit of zero fails the assertion of `setLimit`. -/
theorem setLimit_zero_fails : ¬ Along (attempt (Watched.step id)) (fun state => state.isSome = true)
    (Watched.new 10 0) [.setLimit 0] := by
  intro always
  have last := always [.setLimit 0] List.prefix_rfl
  cases last

end Cs

end Ncfcc.Nfd.Table
