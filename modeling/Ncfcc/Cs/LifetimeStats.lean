import Ncfcc.Cs.AddOutcomes

/-! The two traces of `ContentStoreWithStats`. The statistics policy is asked first, so
that it reports the removal of a node which the replacement policy then refuses. -/
namespace Ncfcc.Cs
open Ncfcc.Library Ncfcc.Utils

/-- The removal of an entry that was added before, at one time only, and not yet
removed, with the time it has been in the store. -/
structure Justified (before : List StoreTrace) (entry : Entry) (lifetime time : Time) : Prop where
  added : ∃ addition, .didAddEntry entry addition ∈ before ∧ lifetime = time - addition ∧
    ∀ other, .didAddEntry entry other ∈ before → other = addition
  first : ∀ earlier when, .willRemoveEntry entry earlier when ∉ before

/-- Every removal in the trace is justified by what stands before it. -/
def Matched (trace : List StoreTrace) : Prop :=
  ∀ before entry lifetime time, before ++ [.willRemoveEntry entry lifetime time] <+: trace →
    Justified before entry lifetime time

private theorem matched_nil : Matched [] := by
  intro before entry lifetime time inside
  simp at inside

private theorem matched_concat (trace : List StoreTrace) (last : StoreTrace) :
    Matched (trace ++ [last]) ↔ Matched trace ∧ ∀ entry lifetime time,
      last = .willRemoveEntry entry lifetime time → Justified trace entry lifetime time := by
  constructor
  · intro matched
    constructor
    · intro before entry lifetime time inside
      exact matched before entry lifetime time (inside.trans (List.prefix_append _ _))
    · rintro entry lifetime time rfl
      exact matched trace entry lifetime time List.prefix_rfl
  · rintro ⟨matched,justified⟩ before entry lifetime time inside
    rcases List.prefix_concat_iff.mp inside with whole | shorter
    · obtain ⟨rfl,same⟩ := List.append_inj' whole rfl
      exact justified entry lifetime time (List.singleton_inj.mp same).symm
    · exact matched before entry lifetime time shorter

namespace StoreEvent

def time : StoreEvent → Option Time
  | add call _ _ => some call.now
  | erase now _ => some now
  | cleanExpired now => some now
  | lookup _ => none
  | setMaxSize _ => none

end StoreEvent

namespace ContentStoreImpl

/-- Removals are reported in this step, at its time, for exactly the entries that leave
the store, and all removals so far are justified. -/
structure Accounts (store : ContentStoreImpl) (event : StoreEvent) (after : ContentStoreImpl) : Prop where
  leaves : ∃ fired, after.trace = store.trace ++ fired ∧
    (∀ entry, (∃ lifetime time, .willRemoveEntry entry lifetime time ∈ fired) ↔
      store.Stored entry ∧ ¬ after.Stored entry) ∧
    ∀ entry lifetime time, .willRemoveEntry entry lifetime time ∈ fired → event.time = some time
  matched : Matched after.trace

/-- No new Data is refused by a policy. -/
def Unrefused (store : ContentStoreImpl) : StoreEvent → Prop
  | .add call _ data => store.trie.get data.name = none → ∀ member ∈ store.policies, member.rejects call = false
  | _ => True

/-- What every store of a run without refusals satisfies: the hook of a stored node is
the time at which its entry was added. -/
structure Dated (replacement : Replacement) (store : ContentStoreImpl) : Prop where
  sound : store.Sound
  traits : store.traits = StoreClass.stats.traits replacement
  numbered : ∀ name entry, store.trie.get name = some entry → entry.number < store.created
  recorded : ∀ item ∈ store.trace, item.entry.number < store.created
  hooks : ∀ (member : MemberPolicy), store.policies[1]? = some member → ∀ item ∈ member.items, ∀ entry,
    store.trie.get item.1 = some entry → .didAddEntry entry item.2 ∈ store.trace
  once : ∀ entry first second, .didAddEntry entry first ∈ store.trace → .didAddEntry entry second ∈ store.trace →
    first = second
  gone : ∀ entry lifetime time, .willRemoveEntry entry lifetime time ∈ store.trace → ¬ store.Stored entry
  matched : Matched store.trace

section
variable {replacement : Replacement} {store : ContentStoreImpl}

private theorem replacement_reports (replacement : Replacement) : replacement.traits.reports = false := by
  cases replacement <;> rfl

private theorem erase_trace (sound : store.Sound) (traits : store.traits = StoreClass.stats.traits replacement)
    (now : Time) {name : Name} {entry : Entry} (stored : store.trie.get name = some entry) :
    ∃ (member : MemberPolicy) (item : Item), store.policies[1]? = some member ∧ item ∈ member.items ∧
      item.1 = name ∧
      (store.erase now name).trace = store.trace ++ [.willRemoveEntry entry (now - item.2) now] := by
  obtain ⟨first,second,both,silent,stats⟩ := policies_of_pair traits
  have named := sound.named name entry stored
  have held : name ∈ second.names := by
    rw [(sound.holds second (by rw [both]; simp)).exactly]
    exact ⟨entry,stored,by rw [stats]; rfl⟩
  obtain ⟨item,found⟩ : ∃ item, second.items.find? (fun item => item.1 = entry.data.name) = some item := by
    rw [← Option.isSome_iff_exists,List.find?_isSome]
    obtain ⟨item,inside,same⟩ := List.mem_map.mp held
    exact ⟨item,inside,decide_eq_true (same.trans named.symm)⟩
  have same : item.1 = entry.data.name := by simpa using List.find?_some found
  refine ⟨second,item,by rw [both]; rfl,List.mem_of_find?_eq_some found,same.trans named,?_⟩
  have quiet : first.removal now entry = [] := by
    rw [MemberPolicy.removal,silent,replacement_reports]
    rfl
  have loud : second.removal now entry = [.willRemoveEntry entry (now - item.2) now] := by
    rw [MemberPolicy.removal,stats,found]
    rfl
  unfold erase
  rw [stored,both]
  change store.trace ++ (second.removal now entry ++ (first.removal now entry ++ [])) = _
  rw [quiet,loud]
  rfl

private theorem not_stored_erase (sound : store.Sound) (now : Time) (name : Name) (entry : Entry) :
    (store.erase now name).Stored entry ↔ store.Stored entry ∧ entry.data.name ≠ name := by
  unfold Stored
  rw [erase_trie now name sound.wellFormed]
  by_cases same : entry.data.name = name
  · simp [same]
  · simp [same]

theorem Dated.justified (dated : store.Dated replacement) (now : Time) {name : Name} {entry : Entry}
    (stored : store.trie.get name = some entry) :
    ∃ lifetime, (store.erase now name).trace = store.trace ++ [.willRemoveEntry entry lifetime now] ∧
      Justified store.trace entry lifetime now := by
  obtain ⟨member,item,there,inside,rfl,trace⟩ := erase_trace dated.sound dated.traits now stored
  have addition := dated.hooks member there item inside entry stored
  have here : store.Stored entry := by
    unfold Stored
    rw [dated.sound.named _ _ stored]
    exact stored
  refine ⟨_,trace,⟨item.2,addition,rfl,?_⟩,?_⟩
  · intro other again
    exact dated.once entry other item.2 again addition
  · intro earlier when removed
    exact dated.gone entry earlier when removed here

private theorem erase_unstored (now : Time) {name : Name} (absent : store.trie.get name = none) :
    store.erase now name = store := by
  unfold erase
  rw [absent]

theorem Dated.erase (dated : store.Dated replacement) (now : Time) (name : Name) :
    (store.erase now name).Dated replacement := by
  cases stored : store.trie.get name with
  | none =>
    rw [erase_unstored now stored]
    exact dated
  | some entry =>
    obtain ⟨lifetime,trace,justified⟩ := dated.justified now stored
    have trie := erase_trie now name dated.sound.wellFormed
    have older : ∀ path other, (store.erase now name).trie.get path = some other →
        store.trie.get path = some other := by
      intro path other found
      rw [trie] at found
      by_cases same : path = name
      · rw [same,Function.update_self] at found
        cases found
      · rw [Function.update_of_ne same] at found
        exact found
    refine ⟨dated.sound.erase now name,(erase_store_traits now name store).trans dated.traits,?_,?_,?_,?_,?_,?_⟩
    · intro path other found
      rw [erase_created]
      exact dated.numbered path other (older path other found)
    · intro item inside
      rw [trace] at inside
      rw [erase_created]
      rcases List.mem_append.mp inside with before | last
      · exact dated.recorded item before
      · rw [List.mem_singleton.mp last]
        exact dated.numbered name entry stored
    · intro member there item inside other found
      rw [trace]
      refine List.mem_append_left _ ?_
      rw [erase_policies,stored,Option.elim_some,List.getElem?_map] at there
      obtain ⟨before,earlier,rfl⟩ := Option.map_eq_some_iff.mp there
      exact dated.hooks before earlier item (MemberPolicy.mem_of_mem_erase inside) other (older item.1 other found)
    · intro other first second left right
      rw [trace,List.mem_append,List.mem_singleton] at left right
      simp only [reduceCtorEq,or_false] at left right
      exact dated.once other first second left right
    · intro other when time removed
      rw [not_stored_erase dated.sound]
      rw [trace] at removed
      rcases List.mem_append.mp removed with before | last
      · exact fun both => dated.gone other when time before both.1
      · cases List.mem_singleton.mp last
        exact fun both => both.2 (dated.sound.named name entry stored)
    · rw [trace,matched_concat]
      refine ⟨dated.matched,?_⟩
      rintro other life time same
      cases same
      exact justified

end

def Leaving (store after : ContentStoreImpl) (now : Time) (fired : List StoreTrace) : Prop :=
  (∀ entry, (∃ lifetime time, .willRemoveEntry entry lifetime time ∈ fired) ↔
      store.Stored entry ∧ ¬ after.Stored entry) ∧
    ∀ entry lifetime time, .willRemoveEntry entry lifetime time ∈ fired → time = now

private theorem leaving_nil {store after : ContentStoreImpl} (now : Time)
    (kept : ∀ entry, store.Stored entry → after.Stored entry) : Leaving store after now [] := by
  constructor
  · intro entry
    constructor
    · rintro ⟨lifetime,time,inside⟩
      cases inside
    · rintro ⟨here,left⟩
      exact absurd (kept entry here) left
  · intro entry lifetime time inside
    cases inside

section
variable {replacement : Replacement} {store : ContentStoreImpl}

theorem Dated.erase_leaving (dated : store.Dated replacement) (now : Time) (name : Name) :
    ∃ fired, (store.erase now name).trace = store.trace ++ fired ∧
      Leaving store (store.erase now name) now fired := by
  cases stored : store.trie.get name with
  | none =>
    rw [erase_unstored now stored]
    exact ⟨[],(List.append_nil _).symm,leaving_nil now fun _ here => here⟩
  | some entry =>
    obtain ⟨lifetime,trace,-⟩ := dated.justified now stored
    have named := dated.sound.named name entry stored
    refine ⟨_,trace,?_,?_⟩
    · intro other
      rw [not_stored_erase dated.sound]
      constructor
      · rintro ⟨life,time,inside⟩
        cases List.mem_singleton.mp inside
        refine ⟨?_,fun both => both.2 named⟩
        unfold Stored
        rw [named]
        exact stored
      · rintro ⟨here,left⟩
        have same : other.data.name = name := by
          by_contra apart
          exact left ⟨here,apart⟩
        unfold Stored at here
        rw [same,stored] at here
        cases here
        exact ⟨lifetime,now,List.mem_singleton_self _⟩
    · intro other life time inside
      cases List.mem_singleton.mp inside
      rfl

theorem Dated.makeRoom (dated : store.Dated replacement) (now : Time) (member : MemberPolicy) :
    (store.makeRoom now member).Dated replacement ∧ ∃ fired,
      (store.makeRoom now member).trace = store.trace ++ fired ∧
      Leaving store (store.makeRoom now member) now fired := by
  unfold ContentStoreImpl.makeRoom
  split
  · cases member.items.head? with
    | none => exact ⟨dated,[],(List.append_nil _).symm,leaving_nil now fun _ here => here⟩
    | some victim => exact ⟨dated.erase now victim.1,dated.erase_leaving now victim.1⟩
  · exact ⟨dated,[],(List.append_nil _).symm,leaving_nil now fun _ here => here⟩

/-- The new node in the list of the statistics policy does not hide the one that is erased. -/
theorem removal_link (member : MemberPolicy) (stats : member.traits = .lifetimeStats) (call : Call)
    (entry victim : Entry) (held : victim.data.name ∈ member.names) (now : Time) :
    (member.link call entry).removal now victim = member.removal now victim := by
  have items : (member.link call entry).items =
      member.items ++ [(entry.data.name,member.traits.hook call entry)] := by
    unfold MemberPolicy.link
    rw [stats]
    rfl
  obtain ⟨item,inside,same⟩ := List.mem_map.mp held
  have found : (member.items.find? (fun item => item.1 = victim.data.name)).isSome :=
    List.find?_isSome.mpr ⟨item,inside,decide_eq_true same⟩
  unfold MemberPolicy.removal
  rw [MemberPolicy.link_traits,items,List.find?_append]
  obtain ⟨first,here⟩ := Option.isSome_iff_exists.mp found
  rw [here]
  rfl

end

section
variable {replacement : Replacement} {store : ContentStoreImpl} (call : Call)
  (layout : Trie.Layout Component Entry) (data : FreshData)

private theorem linked_makeRoom_trace (sound : store.Sound) (free : store.trie.get data.name = none)
    {first second : MemberPolicy} (both : store.policies = [first,second])
    (stats : second.traits = .lifetimeStats) :
    ((store.linked call layout data).makeRoom call.now first).trace =
      (store.makeRoom call.now first).trace := by
  cases filled : first.traits.limited && first.full with
  | false =>
    rw [makeRoom_unlimited call.now filled,makeRoom_unlimited call.now filled]
    rfl
  | true =>
    obtain ⟨victim,rest,items⟩ := items_of_full filled
    rw [makeRoom_first _ call.now filled items,makeRoom_first _ call.now filled items]
    obtain ⟨entry,stored,named,-,there⟩ := entered_victim layout data sound free
      (by rw [both]; exact List.mem_cons_self) items
    have known : (store.linked call layout data).trie.get victim.1 = some entry := there
    have held : entry.data.name ∈ second.names := by
      rw [(sound.holds second (by rw [both]; simp)).exactly,named]
      exact ⟨entry,stored,by rw [stats]; rfl⟩
    have same := removal_link second stats call ⟨data,store.created⟩ entry held call.now
    unfold erase
    rw [known,stored]
    dsimp only
    rw [linked_policies call layout data both,both]
    change store.trace ++ ((second.link call ⟨data,store.created⟩).removal call.now entry ++ _) = _
    rw [same]
    rfl

private theorem asked_stats {first second : MemberPolicy} (both : store.policies = [first,second])
    (stats : second.traits = .lifetimeStats) :
    (first.rejects call = true → store.asked call layout data =
        (false,(store.linked call layout data).eraseMember call.now ⟨data,store.created⟩ 1)) ∧
      (first.rejects call = false → store.asked call layout data =
        (true,(store.linked call layout data).taking call ⟨data,store.created⟩ 0 first)) := by
  apply asked_linked call layout data both
  · rw [stats]
    rfl
  · rw [MemberPolicy.rejects,stats]
    rfl

theorem Dated.extend {room after : ContentStoreImpl} (dated : room.Dated replacement) (entry : Entry) (now : Time)
    (sound : after.Sound) (traits : after.traits = StoreClass.stats.traits replacement)
    (trie : after.trie.get = Function.update room.trie.get entry.data.name (some entry))
    (number : entry.number = room.created) (created : after.created = room.created + 1)
    (trace : after.trace = room.trace ++ [.didAddEntry entry now])
    (hooks : ∀ (member : MemberPolicy), after.policies[1]? = some member → ∀ item ∈ member.items,
      ∀ other, room.trie.get item.1 = some other → item.1 ≠ entry.data.name →
        .didAddEntry other item.2 ∈ room.trace)
    (hook : ∀ (member : MemberPolicy), after.policies[1]? = some member → ∀ item ∈ member.items,
      item.1 = entry.data.name → item.2 = now) : after.Dated replacement := by
  have unknown : ∀ item ∈ room.trace, item.entry ≠ entry := by
    rintro item inside rfl
    exact absurd (dated.recorded item inside) (by omega)
  refine ⟨sound,traits,?_,?_,?_,?_,?_,?_⟩
  · intro path other found
    rw [trie] at found
    rw [created]
    by_cases same : path = entry.data.name
    · rw [same,Function.update_self] at found
      cases found
      omega
    · rw [Function.update_of_ne same] at found
      exact Nat.lt_succ_of_lt (dated.numbered path other found)
  · intro item inside
    rw [trace] at inside
    rw [created]
    rcases List.mem_append.mp inside with before | last
    · exact Nat.lt_succ_of_lt (dated.recorded item before)
    · rw [List.mem_singleton.mp last]
      change entry.number < _
      omega
  · intro member there item inside other found
    rw [trie] at found
    rw [trace]
    by_cases same : item.1 = entry.data.name
    · rw [same,Function.update_self] at found
      cases found
      rw [hook member there item inside same]
      exact List.mem_append_right _ (List.mem_singleton_self _)
    · rw [Function.update_of_ne same] at found
      exact List.mem_append_left _ (hooks member there item inside other found same)
  · intro other first second left right
    rw [trace,List.mem_append,List.mem_singleton] at left right
    rcases left with before | same
    · rcases right with again | same
      · exact dated.once other first second before again
      · cases same
        exact absurd rfl (unknown _ before)
    · cases same
      rcases right with again | same
      · exact absurd rfl (unknown _ again)
      · cases same
        rfl
  · intro other lifetime time removed here
    rw [trace,List.mem_append,List.mem_singleton] at removed
    rcases removed with before | same
    · unfold Stored at here
      rw [trie] at here
      by_cases same : other.data.name = entry.data.name
      · rw [same,Function.update_self] at here
        cases here
        exact absurd rfl (unknown _ before)
      · rw [Function.update_of_ne same] at here
        exact dated.gone other lifetime time before here
    · cases same
  · rw [trace,matched_concat]
    exact ⟨dated.matched,fun _ _ _ same => by cases same⟩

/-- An accepted Data: the removals reported are those of the eviction it causes. -/
theorem Dated.accepted (dated : store.Dated replacement) (free : store.trie.get data.name = none)
    {first second : MemberPolicy} (both : store.policies = [first,second])
    (stats : second.traits = .lifetimeStats) (accepts : first.rejects call = false) :
    (store.add call layout data).2.Dated replacement ∧ ∃ fired,
      (store.add call layout data).2.trace = store.trace ++ fired ∧
      Leaving store (store.add call layout data).2 call.now fired := by
  have asked := (asked_stats call layout data both stats).2 accepts
  have added := add_accepted call layout data dated.sound free (by rw [asked])
  have sound := dated.sound.add call layout data
  have traits := (add_traits call layout data dated.sound).trans dated.traits
  obtain ⟨room,fired,grown,leaving⟩ := dated.makeRoom call.now first
  obtain ⟨trie,items⟩ := linked_makeRoom call layout data dated.sound free both
  have trace := linked_makeRoom_trace call layout data dated.sound free both stats
  rw [asked] at added
  rw [added] at sound traits ⊢
  have unheld : data.name ∉ second.names := by
    exact (dated.sound.holds second (by rw [both]; simp)).absent free
  have there : store.policies[1]? = some second := by
    rw [both]
    rfl
  have second_items : ∀ (member : MemberPolicy),
      ((store.linked call layout data).taking call ⟨data,store.created⟩ 0 first).policies[1]? = some member →
        ∀ item ∈ member.items, item = (data.name,call.now) ∨ item ∈ second.items := by
    intro member found item inside
    rw [taking_other _ Nat.zero_ne_one] at found
    have known := (items member found).subset inside
    unfold MemberPolicy.link at known
    rw [stats] at known
    exact (List.mem_append.mp known).elim Or.inr fun last => Or.inl (List.mem_singleton.mp last)
  constructor
  · refine room.extend ⟨data,store.created⟩ call.now sound traits trie ?_ ?_ ?_ ?_ ?_
    · exact (makeRoom_created store call.now first).symm
    · change ((store.linked call layout data).makeRoom call.now first).created = _
      rw [makeRoom_created,makeRoom_created]
      rfl
    · change ((store.linked call layout data).makeRoom call.now first).trace ++ _ = _
      rw [trace]
    · intro member found item inside other known apart
      rcases second_items member found item inside with new | old
      · rw [new] at apart
        exact absurd rfl apart
      · rw [grown]
        refine List.mem_append_left _ ?_
        exact dated.hooks second there item old other (makeRoom_older dated.sound call.now first known)
    · intro member found item inside same
      rcases second_items member found item inside with new | old
      · rw [new]
      · exact absurd (same ▸ List.mem_map_of_mem old) unheld
  · refine ⟨fired ++ [.didAddEntry ⟨data,store.created⟩ call.now],?_,?_,?_⟩
    · change ((store.linked call layout data).makeRoom call.now first).trace ++ _ = _
      rw [trace,grown,List.append_assoc]
    · intro entry
      have same : (∃ lifetime time, StoreTrace.willRemoveEntry entry lifetime time ∈
          fired ++ [.didAddEntry ⟨data,store.created⟩ call.now]) ↔
            ∃ lifetime time, .willRemoveEntry entry lifetime time ∈ fired := by
        simp
      rw [same,leaving.1 entry]
      refine and_congr_right fun here => not_congr ?_
      have apart : entry.data.name ≠ data.name := by
        intro equal
        unfold Stored at here
        rw [equal,free] at here
        cases here
      change _ ↔ ((store.linked call layout data).makeRoom call.now first).trie.get entry.data.name = some entry
      rw [trie,Function.update_of_ne apart]
      rfl
    · intro entry lifetime time inside
      refine leaving.2 entry lifetime time ?_
      simpa using inside

/-- A refused Data is reported as removed although it was never reported as added. -/
theorem refused_trace (sound : store.Sound) (free : store.trie.get data.name = none)
    {first second : MemberPolicy} (both : store.policies = [first,second])
    (stats : second.traits = .lifetimeStats) (refuses : first.rejects call = true) :
    ∃ lifetime, (store.add call layout data).2.trace =
      store.trace ++ [.willRemoveEntry ⟨data,store.created⟩ lifetime call.now] := by
  have asked := (asked_stats call layout data both stats).1 refuses
  have policies : (store.linked call layout data).policies[1]? = some (second.link call ⟨data,store.created⟩) := by
    rw [linked_policies call layout data both]
    rfl
  have linked : (data.name,second.traits.hook call ⟨data,store.created⟩) ∈
      (second.link call ⟨data,store.created⟩).items := by
    unfold MemberPolicy.link
    rw [stats]
    exact List.mem_append_right _ (List.mem_singleton_self _)
  obtain ⟨item,found⟩ : ∃ item, (second.link call ⟨data,store.created⟩).items.find?
      (fun item => item.1 = data.name) = some item := by
    rw [← Option.isSome_iff_exists,List.find?_isSome]
    exact ⟨_,linked,decide_eq_true rfl⟩
  refine ⟨call.now - item.2,?_⟩
  rw [add_rejected call layout data sound free (by rw [asked]),asked]
  change store.trace ++ _ = _
  rw [policies]
  change store.trace ++ ((second.link call ⟨data,store.created⟩).removal call.now ⟨data,store.created⟩ ++ []) = _
  rw [MemberPolicy.removal,MemberPolicy.link_traits,stats,found]
  rfl

end

/-! Runs. -/

theorem Dated.lookup {replacement : Replacement} {store after : ContentStoreImpl}
    (dated : store.Dated replacement) {interest : Interest} {answer : Option Entry}
    (looked : store.lookup interest = some (answer,after)) :
    after.Dated replacement ∧ after.trace = store.trace ∧ after.trie = store.trie := by
  obtain ⟨sound,traits⟩ := dated.sound.lookup looked
  rcases lookup_cases looked with rfl | ⟨path,rfl⟩
  · exact ⟨dated,rfl,rfl⟩
  · refine ⟨⟨sound,traits.trans dated.traits,dated.numbered,dated.recorded,?_,dated.once,dated.gone,
      dated.matched⟩,rfl,rfl⟩
    intro member there item inside entry stored
    obtain ⟨first,second,both,-,stats⟩ := policies_of_pair dated.traits
    dsimp only at there
    rw [both] at there
    cases there
    refine dated.hooks second (by rw [both]; rfl) item ?_ entry stored
    change item ∈ second.traits.lookup path second.items at inside
    rw [stats] at inside
    exact inside

theorem Dated.setMaxSize {replacement : Replacement} {store : ContentStoreImpl} (dated : store.Dated replacement)
    (maxSize : Nat) : (store.setMaxSize maxSize).Dated replacement := by
  refine ⟨dated.sound.setMaxSize maxSize,?_,dated.numbered,dated.recorded,?_,dated.once,dated.gone,dated.matched⟩
  · exact (setMaxSize_traits store maxSize).trans dated.traits
  · intro member there item inside entry stored
    change (store.policies.map _)[1]? = _ at there
    rw [List.getElem?_map] at there
    obtain ⟨before,earlier,rfl⟩ := Option.map_eq_some_iff.mp there
    exact dated.hooks before earlier item inside entry stored

private theorem cleanExpired_stats {replacement : Replacement} {store : ContentStoreImpl}
    (traits : store.traits = StoreClass.stats.traits replacement) (now : Time) :
    store.cleanExpired now = store := by
  obtain ⟨first,second,both,replaced,stats⟩ := policies_of_pair traits
  have none : store.freshness = [] := by
    unfold freshness
    rw [both,List.find?_cons_of_neg (by rw [replaced]; cases replacement <;> exact Bool.false_ne_true),
      List.find?_cons_of_neg (by rw [stats]; exact Bool.false_ne_true)]
    rfl
  unfold cleanExpired
  rw [none]
  rfl

theorem Dated.add {replacement : Replacement} {store : ContentStoreImpl} (dated : store.Dated replacement)
    (call : Call) (layout : Trie.Layout Component Entry) (data : FreshData)
    (unrefused : store.Unrefused (.add call layout data)) :
    (store.add call layout data).2.Dated replacement ∧ ∃ fired,
      (store.add call layout data).2.trace = store.trace ++ fired ∧
      Leaving store (store.add call layout data).2 call.now fired := by
  cases stored : store.trie.get data.name with
  | some old =>
    rw [add_occupied call layout data dated.sound stored]
    refine ⟨⟨⟨dated.sound.wellFormed,dated.sound.named,dated.sound.holds⟩,dated.traits,?_,?_,dated.hooks,dated.once,
      dated.gone,dated.matched⟩,[],(List.append_nil _).symm,leaving_nil _ fun _ here => here⟩
    · intro name entry found
      exact Nat.lt_succ_of_lt (dated.numbered name entry found)
    · intro item inside
      exact Nat.lt_succ_of_lt (dated.recorded item inside)
  | none =>
    obtain ⟨first,second,both,-,stats⟩ := policies_of_pair dated.traits
    have accepts := unrefused stored first (by rw [both]; exact List.mem_cons_self)
    exact dated.accepted call layout data stored both stats accepts

theorem Dated.accounts {replacement : Replacement} {store after : ContentStoreImpl} (dated : after.Dated replacement)
    {event : StoreEvent} {now : Time} {fired : List StoreTrace} (grown : after.trace = store.trace ++ fired)
    (leaving : Leaving store after now fired) (timed : fired ≠ [] → event.time = some now) :
    store.Accounts event after := by
  refine ⟨⟨fired,grown,leaving.1,?_⟩,dated.matched⟩
  intro entry lifetime time inside
  rw [timed (List.ne_nil_of_mem inside),leaving.2 entry lifetime time inside]

theorem Dated.step {replacement : Replacement} {store after : ContentStoreImpl} (dated : store.Dated replacement)
    (event : StoreEvent) (unrefused : store.Unrefused event) (stepped : store.step event = some after) :
    after.Dated replacement ∧ store.Accounts event after := by
  cases event with
  | add call layout data =>
    cases stepped
    obtain ⟨good,fired,grown,leaving⟩ := dated.add call layout data unrefused
    exact ⟨good,good.accounts grown leaving fun _ => rfl⟩
  | lookup interest =>
    obtain ⟨⟨answer,looked⟩,found,rfl⟩ := Option.map_eq_some_iff.mp stepped
    obtain ⟨good,trace,trie⟩ := dated.lookup found
    have kept : ∀ entry, store.Stored entry → looked.Stored entry := by
      intro entry here
      unfold Stored
      rw [trie]
      exact here
    exact ⟨good,good.accounts (trace.trans (List.append_nil _).symm) (leaving_nil 0 kept) (absurd rfl)⟩
  | setMaxSize maxSize =>
    cases stepped
    have good := dated.setMaxSize maxSize
    exact ⟨good,good.accounts (List.append_nil _).symm (leaving_nil 0 fun _ here => here) (absurd rfl)⟩
  | erase now name =>
    cases stepped
    have good := dated.erase now name
    obtain ⟨fired,grown,leaving⟩ := dated.erase_leaving now name
    exact ⟨good,good.accounts grown leaving fun _ => rfl⟩
  | cleanExpired now =>
    cases stepped
    rw [cleanExpired_stats dated.traits]
    exact ⟨dated,dated.accounts (List.append_nil _).symm (leaving_nil now fun _ here => here) (absurd rfl)⟩

theorem Accounts.unrefused {replacement : Replacement} {store : ContentStoreImpl} (sound : store.Sound)
    (traits : store.traits = StoreClass.stats.traits replacement) {event : StoreEvent}
    (accounts : ∀ after, store.step event = some after → store.Accounts event after) : store.Unrefused event := by
  cases event with
  | add call layout data =>
    intro free member inside
    obtain ⟨first,second,both,-,stats⟩ := policies_of_pair traits
    rw [both,List.mem_pair] at inside
    rcases inside with rfl | rfl
    · by_contra refuses
      obtain ⟨lifetime,trace⟩ := refused_trace call layout data sound free both stats
        (Bool.not_eq_false _ ▸ refuses)
      obtain ⟨⟨fired,grown,leaves,-⟩,-⟩ := accounts _ rfl
      have reported : .willRemoveEntry ⟨data,store.created⟩ lifetime call.now ∈ fired := by
        rw [List.append_cancel_left (grown.symm.trans trace)]
        exact List.mem_singleton_self _
      have here : store.trie.get data.name = some ⟨data,store.created⟩ := ((leaves _).mp ⟨_,_,reported⟩).1
      rw [free] at here
      cases here
    · rw [MemberPolicy.rejects,stats]
      rfl
  | lookup interest => trivial
  | setMaxSize maxSize => trivial
  | erase now name => trivial
  | cleanExpired now => trivial

private theorem new_dated (replacement : Replacement) : (new (StoreClass.stats.traits replacement)).Dated replacement where
  sound := new_sound _
  traits := rfl
  numbered name entry stored := by
    rw [show (new (StoreClass.stats.traits replacement)).trie.get name = none from Trie.get_dead _ rfl name] at stored
    cases stored
  recorded item inside := absurd inside List.not_mem_nil
  hooks member there item inside := by
    cases there
    exact absurd inside List.not_mem_nil
  once entry first second inside := absurd inside List.not_mem_nil
  gone entry lifetime time inside := absurd inside List.not_mem_nil
  matched := matched_nil

/-- In a run of a store with statistics, every step reports the removal of exactly the
entries that leave the store, each added before, not removed before and with the
time since its addition, exactly if no new Data is refused by the replacement policy. -/
theorem accounts_iff_unrefused (replacement : Replacement) (events : List StoreEvent) :
    Steps next (fun state event => ∀ store after, state = some store → store.step event = some after →
          store.Accounts event after)
        (some (new (StoreClass.stats.traits replacement))) events ↔
      Steps next (fun state event => ∀ store, state = some store → store.Unrefused event)
        (some (new (StoreClass.stats.traits replacement))) events := by
  constructor
  · intro all before event inside store here
    have reachable : Reachable .stats replacement store := ⟨before,here⟩
    obtain ⟨sound,traits⟩ := reachable_sound reachable
    exact Accounts.unrefused sound traits fun after stepped => all before event inside store after here stepped
  · intro unrefused before event inside store after here stepped
    have dated : Along next (fun state => ∀ store, state = some store → store.Dated replacement)
        (some (new (StoreClass.stats.traits replacement))) events := by
      refine along_of_steps ?_ ?_ unrefused
      · intro state event good admitted last reached
        obtain ⟨current,now,taken⟩ := Option.bind_eq_some_iff.mp reached
        exact ((good current now).step event (admitted current now) taken).1
      · intro current same
        cases same
        exact new_dated replacement
    have good := dated before ((List.prefix_append _ _).trans inside) store here
    exact (good.step event (unrefused before event inside store here) stepped).2

def refusedByRandom : List StoreEvent :=
  [.setMaxSize 1,.add ⟨0,5,true⟩ inOrder (letter 97 0),.add ⟨0,3,true⟩ inOrder (letter 98 0)]

/-- Its removal is reported although it was never added. -/
theorem refusedByRandom_reported :
    ¬ Steps next (fun state event => ∀ store after, state = some store → store.step event = some after →
          store.Accounts event after)
        (some (new (StoreClass.stats.traits .random))) refusedByRandom := by
  intro all
  have last := all (refusedByRandom.take 2) (.add ⟨0,3,true⟩ inOrder (letter 98 0)) List.prefix_rfl _ _ rfl rfl
  obtain ⟨addition,added,-⟩ := (last.matched [.didAddEntry ⟨letter 97 0,0⟩ 0] ⟨letter 98 0,1⟩ 0 0
    (by decide)).added
  revert added
  simp

end ContentStoreImpl

end Ncfcc.Cs
