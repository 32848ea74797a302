import Ncfcc.Cs.AddOutcomes

/-! `ContentStoreWithFreshness`: the cleaning event, the time remembered for it and the
container ordered by expiry. The remembered time outlives the event when the last
Data with a freshness period is evicted. -/
namespace Ncfcc.Cs
open Ncfcc.Library Ncfcc.Utils

structure ContentStoreWithFreshness where
  super : ContentStoreImpl
  /-- When `m_cleanEvent` is due, while it is pending. -/
  cleanEvent : Option Time
  /-- Zero if nothing is scheduled yet. -/
  scheduledCleaningTime : Time
  /-- The time of the last event. -/
  now : Time

inductive FreshnessEvent where
  | add (call : Call) (layout : Trie.Layout Component Entry) (data : FreshData)
  | lookup (now : Time) (interest : Interest)
  | setMaxSize (now : Time) (maxSize : Nat)
  | cleanExpired (now : Time)

def FreshnessEvent.time : FreshnessEvent → Time
  | add call _ _ => call.now
  | lookup now _ => now
  | setMaxSize now _ => now
  | cleanExpired now => now

namespace ContentStoreWithFreshness

def new (replacement : Replacement) : ContentStoreWithFreshness where
  super := .new (StoreClass.freshness.traits replacement)
  cleanEvent := none
  scheduledCleaningTime := 0
  now := 0

def rescheduleCleaning (store : ContentStoreWithFreshness) : ContentStoreWithFreshness :=
  match store.super.freshness.head? with
  | some item =>
    if store.scheduledCleaningTime = 0 ∨ item.2 < store.scheduledCleaningTime then
      { store with cleanEvent := some item.2, scheduledCleaningTime := item.2 }
    else store
  | none => { store with cleanEvent := none }

def add (call : Call) (layout : Trie.Layout Component Entry) (data : FreshData)
    (store : ContentStoreWithFreshness) : Bool × ContentStoreWithFreshness :=
  let (ok,super) := store.super.add call layout data
  if ok then (true,rescheduleCleaning { store with super }) else (false,{ store with super })

/-- The event that runs is no longer pending. -/
def cleanExpired (now : Time) (store : ContentStoreWithFreshness) : ContentStoreWithFreshness :=
  rescheduleCleaning
    { store with super := store.super.cleanExpired now, cleanEvent := none, scheduledCleaningTime := 0 }

def step (store : ContentStoreWithFreshness) (event : FreshnessEvent) : Option ContentStoreWithFreshness :=
  let store := { store with now := event.time }
  match event with
  | .add call layout data => some (store.add call layout data).2
  | .lookup _ interest => (store.super.lookup interest).map fun answer => { store with super := answer.2 }
  | .setMaxSize _ maxSize => some { store with super := store.super.setMaxSize maxSize }
  | .cleanExpired now => some (store.cleanExpired now)

def next : Option ContentStoreWithFreshness → FreshnessEvent → Option ContentStoreWithFreshness := attempt step

/-- Time does not go back, and the simulator runs the cleaning event when it is due and
no later event before it. -/
structure Possible (store : ContentStoreWithFreshness) (event : FreshnessEvent) : Prop where
  forward : store.now ≤ event.time
  waiting : ∀ due, store.cleanEvent = some due → event.time ≤ due
  due : ∀ now, event = .cleanExpired now → store.cleanEvent = some now

end ContentStoreWithFreshness

namespace ContentStoreImpl

def expiry (store : ContentStoreImpl) (entry : Entry) : Option Time :=
  store.trace.findSome? fun
    | .didAddEntry added time => if added = entry then some (time + milliSeconds entry.data.freshnessPeriod) else none
    | .willRemoveEntry _ _ _ => none

/-- The freshness container is ordered, and the hook of a stored node is its expiry. -/
structure Aged (replacement : Replacement) (store : ContentStoreImpl) : Prop where
  sound : store.Sound
  traits : store.traits = StoreClass.freshness.traits replacement
  recorded : ∀ item ∈ store.trace, item.entry.number < store.created
  ordered : store.freshness.Pairwise (fun first second => first.2 ≤ second.2)
  hooks : ∀ item ∈ store.freshness, ∀ entry, store.trie.get item.1 = some entry → store.expiry entry = some item.2

section
variable {replacement : Replacement} {store after : ContentStoreImpl}

private theorem freshness_of_pair (traits : store.traits = StoreClass.freshness.traits replacement) :
    ∃ first second, store.policies = [first,second] ∧ first.traits = replacement.traits ∧
      second.traits = .freshness ∧ store.freshness = second.items := by
  obtain ⟨first,second,both,replaced,fresh⟩ := policies_of_pair traits
  refine ⟨first,second,both,replaced,fresh,?_⟩
  unfold freshness
  rw [both,List.find?_cons_of_neg (by rw [replaced]; cases replacement <;> exact Bool.false_ne_true),
    List.find?_cons_of_pos (by rw [fresh]; rfl)]
  rfl

private theorem mem_freshness (sound : store.Sound) (traits : store.traits = StoreClass.freshness.traits replacement)
    (name : Name) : (∃ item ∈ store.freshness, item.1 = name) ↔
      ∃ entry, store.trie.get name = some entry ∧ 0 < entry.data.freshnessPeriod := by
  obtain ⟨first,second,both,-,fresh,items⟩ := freshness_of_pair traits
  have holds := (sound.holds second (by rw [both]; simp)).exactly name
  rw [fresh] at holds
  rw [items,← List.mem_map]
  refine holds.trans ?_
  simp [PolicyTraits.freshness]

theorem Aged.shrink (aged : store.Aged replacement) (sound : after.Sound) (traits : after.traits = store.traits)
    (trace : after.trace = store.trace) (created : store.created ≤ after.created)
    (items : after.freshness.Sublist store.freshness)
    (older : ∀ path entry, after.trie.get path = some entry → store.trie.get path = some entry) :
    after.Aged replacement := by
  refine ⟨sound,traits.trans aged.traits,?_,aged.ordered.sublist items,?_⟩
  · intro item inside
    rw [trace] at inside
    exact lt_of_lt_of_le (aged.recorded item inside) created
  · intro item inside entry stored
    unfold expiry
    rw [trace]
    exact aged.hooks item (items.subset inside) entry (older item.1 entry stored)

private theorem removal_silent {member : MemberPolicy} (silent : member.traits.reports = false) (now : Time)
    (entry : Entry) : member.removal now entry = [] := by
  rw [MemberPolicy.removal,silent]
  rfl

private theorem policies_silent (traits : store.traits = StoreClass.freshness.traits replacement) :
    ∀ member ∈ store.policies, member.traits.reports = false := by
  obtain ⟨first,second,both,replaced,fresh,-⟩ := freshness_of_pair traits
  intro member inside
  rw [both,List.mem_pair] at inside
  rcases inside with rfl | rfl
  · rw [replaced]
    cases replacement <;> rfl
  · rw [fresh]
    rfl

private theorem erase_trace_silent (traits : store.traits = StoreClass.freshness.traits replacement) (now : Time)
    (name : Name) : (store.erase now name).trace = store.trace := by
  have silent := policies_silent traits
  unfold erase
  cases store.trie.get name with
  | none => rfl
  | some entry =>
    have nothing : store.policies.reverse.flatMap (MemberPolicy.removal · now entry) = [] := by
      rw [List.flatMap_eq_nil_iff]
      intro member inside
      exact removal_silent (silent member (List.mem_reverse.mp inside)) now entry
    change store.trace ++ _ = _
    rw [nothing,List.append_nil]

private theorem makeRoom_trace_silent (traits : store.traits = StoreClass.freshness.traits replacement) (now : Time)
    (member : MemberPolicy) : (store.makeRoom now member).trace = store.trace := by
  unfold makeRoom
  split
  · cases member.items.head? with
    | none => rfl
    | some victim => exact erase_trace_silent traits now victim.1
  · rfl

private theorem erase_freshness (sound : store.Sound) (traits : store.traits = StoreClass.freshness.traits replacement)
    (now : Time) {item : Item} {rest : List Item} (items : store.freshness = item :: rest) :
    (store.erase now item.1).freshness = rest := by
  obtain ⟨entry,stored,fresh⟩ := (mem_freshness sound traits item.1).mp
    ⟨item,by rw [items]; exact List.mem_cons_self,rfl⟩
  obtain ⟨first,second,both,-,kind,whole⟩ := freshness_of_pair traits
  obtain ⟨one,two,pair,-,-,after⟩ := freshness_of_pair ((erase_store_traits now item.1 store).trans traits)
  rw [erase_policies,stored,both] at pair
  cases pair
  rw [after]
  refine second.erase_first entry ?_ (whole.symm.trans items) (sound.named _ _ stored)
  rw [kind]
  exact decide_eq_true fresh

theorem Aged.erase_first (aged : store.Aged replacement) (now : Time) {item : Item} {rest : List Item}
    (items : store.freshness = item :: rest) : (store.erase now item.1).Aged replacement := by
  refine aged.shrink (aged.sound.erase now item.1) (erase_store_traits now item.1 store)
    (erase_trace_silent aged.traits now item.1) (erase_created now item.1).ge ?_ ?_
  · rw [erase_freshness aged.sound aged.traits now items,items]
    exact List.sublist_cons_self _ _
  · intro path entry found
    rw [erase_trie now item.1 aged.sound.wellFormed] at found
    by_cases same : path = item.1
    · rw [same,Function.update_self] at found
      cases found
    · rw [Function.update_of_ne same] at found
      exact found

/-- With enough rounds, cleaning leaves only nodes that expire later. -/
theorem Aged.cleanRounds (now : Time) (fuel : Nat) (store : ContentStoreImpl) (aged : store.Aged replacement)
    (enough : store.freshness.length ≤ fuel) :
    (store.cleanRounds now fuel).Aged replacement ∧ ∀ item ∈ (store.cleanRounds now fuel).freshness, now < item.2 := by
  induction fuel generalizing store with
  | zero =>
    refine ⟨aged,?_⟩
    intro item inside
    change item ∈ store.freshness at inside
    rw [List.length_eq_zero_iff.mp (Nat.le_zero.mp enough)] at inside
    cases inside
  | succ fuel ih =>
    unfold ContentStoreImpl.cleanRounds
    cases items : store.freshness with
    | nil =>
      refine ⟨aged,?_⟩
      rw [List.head?_nil]
      intro item inside
      dsimp only at inside
      rw [items] at inside
      cases inside
    | cons first rest =>
      rw [List.head?_cons]
      dsimp only
      split
      · refine ih _ (aged.erase_first now items) ?_
        rw [erase_freshness aged.sound aged.traits now items]
        rw [items,List.length_cons] at enough
        omega
      · rename_i late
        refine ⟨aged,?_⟩
        intro item inside
        exact lt_of_lt_of_le (not_le.mp late) (TimedSet.first_le aged.ordered items item inside)

private theorem expiry_concat (store : ContentStoreImpl) (entry added : Entry) (time : Time)
    (trace : after.trace = store.trace ++ [.didAddEntry added time]) :
    after.expiry entry = (store.expiry entry).or
      (if added = entry then some (time + milliSeconds entry.data.freshnessPeriod) else none) := by
  unfold expiry
  rw [trace,List.findSome?_append,List.findSome?_singleton]

private theorem expiry_unrecorded (recorded : ∀ item ∈ store.trace, item.entry.number < store.created) (entry : Entry)
    (new : store.created ≤ entry.number) : store.expiry entry = none := by
  unfold expiry
  rw [List.findSome?_eq_none_iff]
  intro item inside
  cases item with
  | didAddEntry added time =>
    have known : added.number < store.created := recorded _ inside
    refine if_neg ?_
    rintro rfl
    omega
  | willRemoveEntry removed lifetime time => rfl

section
variable (call : Call) (layout : Trie.Layout Component Entry) (data : FreshData)

private theorem link_freshness {member : MemberPolicy} (kind : member.traits = .freshness) (entry : Entry) :
    (member.link call entry).items = if 0 < entry.data.freshnessPeriod
      then TimedSet.place (entry.data.name,call.now + milliSeconds entry.data.freshnessPeriod) member.items
      else member.items := by
  unfold MemberPolicy.link
  rw [kind]
  by_cases fresh : 0 < entry.data.freshnessPeriod
  · rw [if_pos fresh,if_pos (show PolicyTraits.freshness.controls entry = true from decide_eq_true fresh)]
    rfl
  · rw [if_neg fresh,if_neg (show ¬ PolicyTraits.freshness.controls entry = true from
      fun controls => fresh (of_decide_eq_true controls))]

theorem Aged.accepted (aged : store.Aged replacement) (free : store.trie.get data.name = none)
    (accepts : ∀ member ∈ store.policies, member.rejects call = false) :
    (store.add call layout data).1 = true ∧ (store.add call layout data).2.Aged replacement ∧
      (store.add call layout data).2.trie.get data.name = some ⟨data,store.created⟩ ∧
      ∀ item ∈ (store.add call layout data).2.freshness, item ∈ store.freshness ∨
        (0 < data.freshnessPeriod ∧ item = (data.name,call.now + milliSeconds data.freshnessPeriod)) := by
  obtain ⟨first,second,both,replaced,kind,items⟩ := freshness_of_pair aged.traits
  have asked := (asked_linked call layout data both (by rw [kind]; rfl)
    (by rw [MemberPolicy.rejects,kind]; rfl)).2 (accepts first (by rw [both]; exact List.mem_cons_self))
  have added := add_accepted call layout data aged.sound free (by rw [asked])
  have sound := aged.sound.add call layout data
  have traits := (add_traits call layout data aged.sound).trans aged.traits
  obtain ⟨trie,rest⟩ := linked_makeRoom call layout data aged.sound free both
  rw [asked] at added
  rw [added] at sound traits ⊢
  have both_traits : (store.linked call layout data).traits = StoreClass.freshness.traits replacement := by
    unfold ContentStoreImpl.traits
    rw [linked_policies call layout data both,List.map_cons,List.map_singleton,MemberPolicy.link_traits,
      replaced,kind]
    rfl
  have trace := makeRoom_trace_silent both_traits call.now first
  obtain ⟨one,two,pair,-,-,final⟩ := freshness_of_pair traits
  -- The first policy's link does not touch the freshness container.
  have placed : two.items.Sublist (second.link call ⟨data,store.created⟩).items := by
    refine rest two ?_
    rw [← taking_other ⟨data,store.created⟩ Nat.zero_ne_one,pair]
    rfl
  rw [link_freshness call kind] at placed
  have members : ∀ item ∈ two.items, item ∈ store.freshness ∨
      (0 < data.freshnessPeriod ∧ item = (data.name,call.now + milliSeconds data.freshnessPeriod)) := by
    intro item inside
    have known := placed.subset inside
    rw [items]
    split at known
    · rename_i fresh
      rcases List.mem_cons.mp ((TimedSet.place_perm _ _).mem_iff.mp known) with new | old
      · exact Or.inr ⟨fresh,new⟩
      · exact Or.inl old
    · exact Or.inl known
  refine ⟨rfl,⟨sound,traits,?_,?_,?_⟩,?_,?_⟩
  · intro item inside
    change item ∈ ((store.linked call layout data).makeRoom call.now first).trace ++ _ at inside
    change _ < ((store.linked call layout data).makeRoom call.now first).created
    rw [makeRoom_created]
    rw [trace] at inside
    rcases List.mem_append.mp inside with before | last
    · exact Nat.lt_succ_of_lt (aged.recorded item before)
    · rw [List.mem_singleton.mp last]
      exact Nat.lt_succ_self _
  · rw [final]
    refine List.Pairwise.sublist placed ?_
    have ordered := aged.ordered
    rw [items] at ordered
    split
    · exact TimedSet.place_ordered _ _ ordered
    · exact ordered
  · intro item inside entry found
    rw [final] at inside
    change ((store.linked call layout data).makeRoom call.now first).trie.get item.1 = _ at found
    rw [trie] at found
    rw [expiry_concat store entry ⟨data,store.created⟩ call.now (by
      change ((store.linked call layout data).makeRoom call.now first).trace ++ _ = _
      rw [trace]
      rfl)]
    by_cases same : item.1 = data.name
    · rw [same,Function.update_self] at found
      cases found
      rw [expiry_unrecorded aged.recorded _ le_rfl,if_pos rfl]
      rcases members item inside with old | ⟨-,new⟩
      · have held := (mem_freshness aged.sound aged.traits data.name).mp ⟨item,old,same⟩
        obtain ⟨other,stored,-⟩ := held
        rw [free] at stored
        cases stored
      · rw [new]
        rfl
    · rw [Function.update_of_ne same] at found
      rcases members item inside with old | ⟨-,new⟩
      · rw [aged.hooks item old entry (makeRoom_older aged.sound call.now first found)]
        rfl
      · rw [new] at same
        exact absurd rfl same
  · change ((store.linked call layout data).makeRoom call.now first).trie.get data.name = _
    rw [trie,Function.update_self]
  · rw [final]
    exact members

theorem Aged.refused (aged : store.Aged replacement)
    (refused : ¬ (store.trie.get data.name = none ∧ ∀ member ∈ store.policies, member.rejects call = false)) :
    (store.add call layout data).1 = false ∧ (store.add call layout data).2.Aged replacement ∧
      (store.add call layout data).2.freshness = store.freshness := by
  have sound := aged.sound.add call layout data
  have traits := add_traits call layout data aged.sound
  cases stored : store.trie.get data.name with
  | some old =>
    rw [add_occupied call layout data aged.sound stored] at sound traits ⊢
    exact ⟨rfl,aged.shrink sound traits rfl (Nat.le_succ _) (List.Sublist.refl _) fun _ _ found => found,rfl⟩
  | none =>
    obtain ⟨first,second,both,replaced,kind,items⟩ := freshness_of_pair aged.traits
    have unlimited : second.traits.limited = false := by
      rw [kind]
      rfl
    have accepts : second.rejects call = false := by
      rw [MemberPolicy.rejects,kind]
      rfl
    have rejects : first.rejects call = true := by
      by_contra takes
      refine refused ⟨stored,?_⟩
      rw [both]
      simp only [List.mem_cons,List.not_mem_nil,or_false,forall_eq_or_imp,forall_eq]
      exact ⟨Bool.eq_false_of_not_eq_true takes,accepts⟩
    have asked := (asked_linked call layout data both unlimited accepts).1 rejects
    have failed := add_rejected call layout data aged.sound stored (by rw [asked])
    obtain ⟨trie,policies⟩ := unchanged_of_roomy call layout data aged.sound stored both accepts
      (by rw [unlimited]; rfl) (by rw [failed])
    have same : (store.add call layout data).2.freshness = store.freshness := by
      unfold freshness
      rw [policies]
    refine ⟨by rw [failed],aged.shrink sound traits ?_ ?_ (by rw [same]) ?_,same⟩
    · rw [failed,asked]
      change store.trace ++ _ = _
      rw [linked_policies call layout data both]
      change store.trace ++ ((second.link call ⟨data,store.created⟩).removal call.now ⟨data,store.created⟩ ++ []) = _
      rw [removal_silent (by rw [MemberPolicy.link_traits,kind]; rfl)]
      exact List.append_nil _
    · rw [failed,asked]
      exact Nat.le_succ _
    · intro path entry found
      rw [trie] at found
      exact found

end

theorem Aged.lookup (aged : store.Aged replacement) {interest : Interest} {answer : Option Entry}
    (looked : store.lookup interest = some (answer,after)) :
    after.Aged replacement ∧ after.freshness = store.freshness := by
  obtain ⟨sound,traits⟩ := aged.sound.lookup looked
  rcases lookup_cases looked with rfl | ⟨path,rfl⟩
  · exact ⟨aged,rfl⟩
  · obtain ⟨first,second,both,-,kind,items⟩ := freshness_of_pair aged.traits
    obtain ⟨one,two,pair,-,-,same⟩ := freshness_of_pair (traits.trans aged.traits)
    dsimp only at pair
    rw [both] at pair
    cases pair
    have kept : (second.lookup path).items = second.items := by
      unfold MemberPolicy.lookup
      rw [kind]
      rfl
    rw [kept,← items] at same
    exact ⟨aged.shrink sound traits rfl le_rfl (by rw [same]) fun _ _ found => found,same⟩

theorem Aged.setMaxSize (aged : store.Aged replacement) (maxSize : Nat) :
    (store.setMaxSize maxSize).Aged replacement ∧ (store.setMaxSize maxSize).freshness = store.freshness := by
  have sound := aged.sound.setMaxSize maxSize
  have traits := setMaxSize_traits store maxSize
  have same : (store.setMaxSize maxSize).freshness = store.freshness := by
    obtain ⟨first,second,both,-,-,items⟩ := freshness_of_pair aged.traits
    obtain ⟨one,two,pair,-,-,after⟩ := freshness_of_pair (traits.trans aged.traits)
    unfold ContentStoreImpl.setMaxSize at pair
    dsimp only at pair
    rw [both] at pair
    cases pair
    exact after.trans items.symm
  exact ⟨aged.shrink sound traits rfl le_rfl (by rw [same]) fun _ _ found => found,same⟩

end

end ContentStoreImpl

namespace ContentStoreWithFreshness

/-- A cleaning event is pending, no later than the expiry of any stored Data with a
FreshnessPeriod, and none of them has expired. -/
structure Timely (store : ContentStoreWithFreshness) : Prop where
  pending : ∀ entry, store.super.Stored entry → 0 < entry.data.freshnessPeriod → ∃ due expiry,
    store.cleanEvent = some due ∧ store.super.expiry entry = some expiry ∧ due ≤ expiry
  unexpired : ∀ entry, store.super.Stored entry → 0 < entry.data.freshnessPeriod → ∃ expiry,
    store.super.expiry entry = some expiry ∧ store.now ≤ expiry

/-- No Data with a FreshnessPeriod is accepted that expires only after the time
remembered for a cleaning event which is no longer pending. -/
def Unskipped (store : ContentStoreWithFreshness) : FreshnessEvent → Prop
  | .add call _ data => ¬ (store.super.trie.get data.name = none ∧
    (∀ member ∈ store.super.policies, member.rejects call = false) ∧ 0 < data.freshnessPeriod ∧
    store.cleanEvent = none ∧ store.scheduledCleaningTime ≠ 0 ∧
    store.scheduledCleaningTime ≤ call.now + milliSeconds data.freshnessPeriod)
  | _ => True

structure Kept (replacement : Replacement) (store : ContentStoreWithFreshness) : Prop where
  aged : store.super.Aged replacement
  clock : 0 ≤ store.now
  unsigned : 0 ≤ store.scheduledCleaningTime
  scheduled : ∀ item ∈ store.super.freshness,
    0 < store.scheduledCleaningTime ∧ store.scheduledCleaningTime ≤ item.2
  pending : ∀ due, store.cleanEvent = some due → due = store.scheduledCleaningTime

section
variable {replacement : Replacement} {store : ContentStoreWithFreshness}

theorem Kept.timely_iff (kept : store.Kept replacement) :
    store.Timely ↔ (store.super.freshness ≠ [] → store.cleanEvent ≠ none) ∧
      ∀ item ∈ store.super.freshness, store.now ≤ item.2 := by
  have listed : ∀ entry, store.super.Stored entry → 0 < entry.data.freshnessPeriod →
      ∃ item ∈ store.super.freshness, store.super.expiry entry = some item.2 := by
    intro entry stored fresh
    obtain ⟨item,inside,same⟩ := (ContentStoreImpl.mem_freshness kept.aged.sound kept.aged.traits
      entry.data.name).mpr ⟨entry,stored,fresh⟩
    exact ⟨item,inside,kept.aged.hooks item inside entry (by rw [same]; exact stored)⟩
  have known : ∀ item ∈ store.super.freshness, ∃ entry, store.super.Stored entry ∧
      0 < entry.data.freshnessPeriod ∧ store.super.expiry entry = some item.2 := by
    intro item inside
    obtain ⟨entry,stored,fresh⟩ := (ContentStoreImpl.mem_freshness kept.aged.sound kept.aged.traits
      item.1).mp ⟨item,inside,rfl⟩
    refine ⟨entry,?_,fresh,kept.aged.hooks item inside entry stored⟩
    unfold ContentStoreImpl.Stored
    rw [kept.aged.sound.named _ _ stored]
    exact stored
  constructor
  · rintro ⟨pending,unexpired⟩
    constructor
    · intro some_fresh
      obtain ⟨item,inside⟩ := List.exists_mem_of_ne_nil _ some_fresh
      obtain ⟨entry,stored,fresh,-⟩ := known item inside
      obtain ⟨due,-,waits,-⟩ := pending entry stored fresh
      simp [waits]
    · intro item inside
      obtain ⟨entry,stored,fresh,hook⟩ := known item inside
      obtain ⟨expiry,same,later⟩ := unexpired entry stored fresh
      rw [hook] at same
      cases same
      exact later
  · rintro ⟨pending,unexpired⟩
    constructor
    · intro entry stored fresh
      obtain ⟨item,inside,hook⟩ := listed entry stored fresh
      obtain ⟨due,waits⟩ := Option.ne_none_iff_exists'.mp (pending (List.ne_nil_of_mem inside))
      refine ⟨due,item.2,waits,hook,?_⟩
      rw [kept.pending due waits]
      exact (kept.scheduled item inside).2
    · intro entry stored fresh
      obtain ⟨item,inside,hook⟩ := listed entry stored fresh
      exact ⟨item.2,hook,unexpired item inside⟩

/-- Under the invariant all that is stored expires after the remembered time, so that
nothing has expired while an event is pending. -/
theorem Kept.later (kept : store.Kept replacement) (timely : store.Timely) {event : FreshnessEvent}
    (possible : store.Possible event) : ∀ item ∈ store.super.freshness, event.time ≤ item.2 := by
  intro item inside
  obtain ⟨due,waits⟩ := Option.ne_none_iff_exists'.mp ((kept.timely_iff.mp timely).1 (List.ne_nil_of_mem inside))
  have bound := possible.waiting due waits
  rw [kept.pending due waits] at bound
  exact le_trans bound (kept.scheduled item inside).2

theorem Kept.quiet (kept : store.Kept replacement) {event : FreshnessEvent} (possible : store.Possible event)
    {super : ContentStoreImpl} (aged : super.Aged replacement) (items : super.freshness = store.super.freshness) :
    ({ store with super, now := event.time } : ContentStoreWithFreshness).Kept replacement ∧
      (store.Timely → ({ store with super, now := event.time } : ContentStoreWithFreshness).Timely) := by
  have after : ({ store with super, now := event.time } : ContentStoreWithFreshness).Kept replacement := by
    refine ⟨aged,le_trans kept.clock possible.forward,kept.unsigned,?_,kept.pending⟩
    intro item inside
    dsimp only at inside
    rw [items] at inside
    exact kept.scheduled item inside
  refine ⟨after,?_⟩
  intro timely
  rw [after.timely_iff]
  dsimp only
  rw [items]
  exact ⟨(kept.timely_iff.mp timely).1,kept.later timely possible⟩

private theorem rescheduleCleaning_cases (store : ContentStoreWithFreshness) :
    (store.super.freshness = [] ∧ store.rescheduleCleaning = { store with cleanEvent := none }) ∨
      ∃ item rest, store.super.freshness = item :: rest ∧
        (((store.scheduledCleaningTime = 0 ∨ item.2 < store.scheduledCleaningTime) ∧
          store.rescheduleCleaning = { store with cleanEvent := some item.2, scheduledCleaningTime := item.2 }) ∨
        (store.scheduledCleaningTime ≠ 0 ∧ store.scheduledCleaningTime ≤ item.2 ∧
          store.rescheduleCleaning = store)) := by
  unfold rescheduleCleaning
  cases items : store.super.freshness with
  | nil => exact Or.inl ⟨rfl,rfl⟩
  | cons item rest =>
    refine Or.inr ⟨item,rest,rfl,?_⟩
    rw [List.head?_cons]
    dsimp only
    split
    · rename_i sooner
      exact Or.inl ⟨sooner,rfl⟩
    · rename_i neither
      rw [not_or,not_lt] at neither
      exact Or.inr ⟨neither.1,neither.2,rfl⟩

private theorem rescheduleCleaning_kept (aged : store.super.Aged replacement) (clock : 0 ≤ store.now)
    (unsigned : 0 ≤ store.scheduledCleaningTime) (positive : ∀ item ∈ store.super.freshness, 0 < item.2)
    (pending : ∀ due, store.cleanEvent = some due → due = store.scheduledCleaningTime) :
    store.rescheduleCleaning.Kept replacement := by
  rcases rescheduleCleaning_cases store with ⟨empty,same⟩ | ⟨first,rest,items,⟨-,same⟩ | ⟨set,below,same⟩⟩
  · rw [same]
    refine ⟨aged,clock,unsigned,?_,fun due waits => by cases waits⟩
    intro item inside
    dsimp only at inside
    rw [empty] at inside
    cases inside
  · rw [same]
    have above : 0 < first.2 := positive first (by rw [items]; exact List.mem_cons_self)
    refine ⟨aged,clock,above.le,?_,fun due waits => by cases waits; rfl⟩
    intro item inside
    refine ⟨above,?_⟩
    exact TimedSet.first_le aged.ordered items item inside
  · rw [same]
    refine ⟨aged,clock,unsigned,?_,pending⟩
    intro item inside
    exact ⟨lt_of_le_of_ne unsigned set.symm,le_trans below (TimedSet.first_le aged.ordered items item inside)⟩

/-- When nothing has expired, only an event that is not pending can be missed. -/
theorem rescheduleCleaning_timely (kept : store.rescheduleCleaning.Kept replacement)
    (unexpired : ∀ item ∈ store.super.freshness, store.now ≤ item.2) :
    store.rescheduleCleaning.Timely ↔ ¬ ∃ item rest, store.super.freshness = item :: rest ∧
      store.scheduledCleaningTime ≠ 0 ∧ store.scheduledCleaningTime ≤ item.2 ∧ store.cleanEvent = none := by
  rw [kept.timely_iff]
  rcases rescheduleCleaning_cases store with ⟨empty,same⟩ | ⟨first,rest,items,⟨sooner,same⟩ | ⟨set,below,same⟩⟩
  · rw [same,empty]
    simp
  · rw [same]
    refine iff_of_true ⟨fun _ => by simp,unexpired⟩ ?_
    rintro ⟨item,others,again,set,below,-⟩
    rw [items] at again
    cases again
    rcases sooner with unset | earlier
    · exact set unset
    · exact absurd earlier (not_lt.mpr below)
  · rw [same]
    constructor
    · rintro ⟨waits,-⟩ ⟨-,-,-,-,-,missed⟩
      exact waits (by rw [items]; exact List.cons_ne_nil _ _) missed
    · intro pending
      refine ⟨fun _ missed => ?_,unexpired⟩
      exact pending ⟨first,rest,items,set,below,missed⟩

private theorem milliSeconds_pos {count : Int} (positive : 0 < count) : 0 < milliSeconds count := by
  change (0 : Int) < count * 1000000
  omega

/-- An accepted Data is scheduled for unless the remembered time of an event that is not
pending comes before its expiry. -/
theorem Kept.accepted (kept : store.Kept replacement) {call : Call} (layout : Trie.Layout Component Entry)
    (data : FreshData) (possible : store.Possible (.add call layout data))
    (free : store.super.trie.get data.name = none)
    (accepts : ∀ member ∈ store.super.policies, member.rejects call = false) :
    (({ store with now := call.now } : ContentStoreWithFreshness).add call layout data).2.Kept replacement ∧
      (store.Timely → ((({ store with now := call.now } : ContentStoreWithFreshness).add call layout data).2.Timely ↔
        store.Unskipped (.add call layout data))) := by
  obtain ⟨ok,aged,stored,members⟩ := kept.aged.accepted call layout data free accepts
  have clock : 0 ≤ call.now := le_trans kept.clock possible.forward
  have added : (({ store with now := call.now } : ContentStoreWithFreshness).add call layout data).2 =
      rescheduleCleaning { store with super := (store.super.add call layout data).2, now := call.now } := by
    unfold add
    simp only [ok,↓reduceIte]
  rw [added]
  have positive : ∀ item ∈ (store.super.add call layout data).2.freshness, 0 < item.2 := by
    intro item inside
    rcases members item inside with old | ⟨fresh,rfl⟩
    · exact lt_of_lt_of_le (kept.scheduled item old).1 (kept.scheduled item old).2
    · exact add_pos_of_nonneg_of_pos clock (milliSeconds_pos fresh)
  have after : (rescheduleCleaning
      { store with super := (store.super.add call layout data).2, now := call.now }).Kept replacement :=
    rescheduleCleaning_kept aged clock kept.unsigned positive kept.pending
  refine ⟨after,?_⟩
  intro timely
  have later := kept.later timely possible
  rw [rescheduleCleaning_timely after]
  · refine not_congr ⟨?_,?_⟩
    · rintro ⟨item,rest,items,set,below,missed⟩
      -- Nothing was pending, so that the container was empty and this is the new node.
      have empty : store.super.freshness = [] := by
        by_contra some_fresh
        exact (kept.timely_iff.mp timely).1 some_fresh missed
      rcases members item (by rw [items]; exact List.mem_cons_self) with old | ⟨fresh,rfl⟩
      · rw [empty] at old
        cases old
      · exact ⟨free,accepts,fresh,missed,set,below⟩
    · rintro ⟨-,-,fresh,missed,set,below⟩
      obtain ⟨item,inside,-⟩ := (ContentStoreImpl.mem_freshness aged.sound aged.traits data.name).mpr
        ⟨_,stored,fresh⟩
      obtain ⟨first,rest,items⟩ := List.exists_cons_of_ne_nil (List.ne_nil_of_mem inside)
      refine ⟨first,rest,items,set,?_,missed⟩
      rcases members first (by rw [items]; exact List.mem_cons_self) with old | ⟨-,rfl⟩
      · exact (kept.scheduled first old).2
      · exact below
  · intro item inside
    rcases members item inside with old | ⟨fresh,rfl⟩
    · exact later item old
    · exact le_add_of_nonneg_right (milliSeconds_pos fresh).le

theorem Kept.step (kept : store.Kept replacement) (event : FreshnessEvent) (possible : store.Possible event)
    {after : ContentStoreWithFreshness} (stepped : store.step event = some after) :
    after.Kept replacement ∧ (store.Timely → (after.Timely ↔ store.Unskipped event)) := by
  cases event with
  | add call layout data =>
    cases stepped
    by_cases taken : store.super.trie.get data.name = none ∧
        ∀ member ∈ store.super.policies, member.rejects call = false
    · exact kept.accepted layout data possible taken.1 taken.2
    · obtain ⟨failed,aged,items⟩ := kept.aged.refused call layout data taken
      obtain ⟨good,still⟩ := kept.quiet possible aged items
      have added : (({ store with now := call.now } : ContentStoreWithFreshness).add call layout data).2 =
          { store with super := (store.super.add call layout data).2, now := call.now } := by
        unfold add
        simp only [failed,Bool.false_eq_true,↓reduceIte]
      change (({ store with now := call.now } : ContentStoreWithFreshness).add call layout data).2.Kept replacement ∧
        (_ → ((({ store with now := call.now } : ContentStoreWithFreshness).add call layout data).2.Timely ↔ _))
      rw [added]
      exact ⟨good,fun timely => iff_of_true (still timely) fun skipped => taken ⟨skipped.1,skipped.2.1⟩⟩
  | lookup now interest =>
    obtain ⟨⟨answer,looked⟩,found,rfl⟩ := Option.map_eq_some_iff.mp stepped
    obtain ⟨aged,items⟩ := kept.aged.lookup found
    obtain ⟨good,still⟩ := kept.quiet possible aged items
    exact ⟨good,fun timely => iff_of_true (still timely) trivial⟩
  | setMaxSize now maxSize =>
    cases stepped
    obtain ⟨aged,items⟩ := kept.aged.setMaxSize maxSize
    obtain ⟨good,still⟩ := kept.quiet possible aged items
    exact ⟨good,fun timely => iff_of_true (still timely) trivial⟩
  | cleanExpired now =>
    cases stepped
    obtain ⟨aged,later⟩ := ContentStoreImpl.Aged.cleanRounds now _ store.super kept.aged le_rfl
    have clock : 0 ≤ now := le_trans kept.clock possible.forward
    have after : (rescheduleCleaning ⟨store.super.cleanExpired now,none,0,now⟩).Kept replacement :=
      rescheduleCleaning_kept aged clock le_rfl (fun item inside => lt_of_le_of_lt clock (later item inside))
        (fun due waits => by cases waits)
    refine ⟨after,fun _ => iff_of_true ?_ trivial⟩
    refine (rescheduleCleaning_timely after fun item inside => (later item inside).le).mpr ?_
    rintro ⟨-,-,-,set,-⟩
    exact set rfl

end

private theorem new_freshness (replacement : Replacement) : (new replacement).super.freshness = [] := by
  cases replacement <;> rfl

theorem new_kept (replacement : Replacement) : (new replacement).Kept replacement := by
  refine ⟨⟨ContentStoreImpl.new_sound _,rfl,?_,?_,?_⟩,le_rfl,le_rfl,?_,fun _ waits => by cases waits⟩
  · exact fun _ inside => absurd inside List.not_mem_nil
  · rw [new_freshness]
    exact List.Pairwise.nil
  · rw [new_freshness]
    exact fun _ inside => absurd inside List.not_mem_nil
  · rw [new_freshness]
    exact fun _ inside => absurd inside List.not_mem_nil

/-- In every possible run of a store with freshness, a cleaning event is pending in time
for all stored Data with a FreshnessPeriod, and none of it has expired, in every
state exactly if no step adds such Data behind the remembered time of an event
that is not pending. -/
theorem timely_iff_unskipped (replacement : Replacement) (events : List FreshnessEvent)
    (possible : Steps next (fun state event => ∀ store, state = some store → store.Possible event)
      (some (new replacement)) events) :
    Along next (fun state => ∀ store, state = some store → store.Timely) (some (new replacement)) events ↔
      Steps next (fun state event => ∀ store, state = some store → store.Unskipped event)
        (some (new replacement)) events := by
  refine attempt_along_iff_steps (I := (Kept replacement ·)) ?_ ?_ (new_kept replacement) ?_ possible
  · intro store event after kept admitted stepped
    exact kept.step event admitted stepped
  · intro store event undefined
    cases event with
    | add call layout data => cases undefined
    | lookup now interest => trivial
    | setMaxSize now maxSize => trivial
    | cleanExpired now => trivial
  · rw [(new_kept replacement).timely_iff,new_freshness]
    exact ⟨fun some_fresh => absurd rfl some_fresh,fun _ inside => absurd inside List.not_mem_nil⟩

def cleanedInTime : List FreshnessEvent :=
  [.add ⟨0,0,true⟩ ContentStoreImpl.inOrder (ContentStoreImpl.letter 97 5),.cleanExpired (milliSeconds 5)]

theorem timely_iff_unskipped_cleanedInTime :
    Steps next (fun state event => ∀ store, state = some store → store.Possible event)
        (some (new .lru)) cleanedInTime ∧
      (Along next (fun state => ∀ store, state = some store → store.Timely) (some (new .lru)) cleanedInTime ↔
        Steps next (fun state event => ∀ store, state = some store → store.Unskipped event)
          (some (new .lru)) cleanedInTime) := by
  have possible : Steps next (fun state event => ∀ store, state = some store → store.Possible event)
      (some (new .lru)) cleanedInTime := by
    refine steps_cons.mpr ⟨?_,steps_cons.mpr ⟨?_,steps_nil⟩⟩
    · intro store here
      cases here
      exact ⟨le_rfl,fun _ waits => (by cases waits),fun _ same => (by cases same)⟩
    · intro store here
      cases here
      refine ⟨by decide,?_,?_⟩
      · intro due waits
        cases waits
        decide
      · intro now same
        cases same
        rfl
  exact ⟨possible,timely_iff_unskipped .lru cleanedInTime possible⟩

def refilled : List FreshnessEvent :=
  [.setMaxSize 0 1,.add ⟨0,0,true⟩ ContentStoreImpl.inOrder (ContentStoreImpl.letter 97 5),
    .add ⟨milliSeconds 1,0,true⟩ ContentStoreImpl.inOrder (ContentStoreImpl.letter 98 0),
    .add ⟨milliSeconds 2,0,true⟩ ContentStoreImpl.inOrder (ContentStoreImpl.letter 99 10)]

/-- The last Data is stored and no cleaning event is pending. -/
theorem refilled_forgotten :
    Steps next (fun state event => ∀ store, state = some store → store.Possible event)
        (some (new .lru)) refilled ∧
      ¬ Along next (fun state => ∀ store, state = some store → store.Timely) (some (new .lru)) refilled := by
  constructor
  · refine steps_cons.mpr ⟨?_,steps_cons.mpr ⟨?_,steps_cons.mpr ⟨?_,steps_cons.mpr ⟨?_,steps_nil⟩⟩⟩⟩
    · intro store here
      cases here
      exact ⟨le_rfl,fun _ waits => (by cases waits),fun _ same => (by cases same)⟩
    · intro store here
      cases here
      exact ⟨le_rfl,fun _ waits => (by cases waits),fun _ same => (by cases same)⟩
    · intro store here
      cases here
      refine ⟨by decide,?_,fun _ same => (by cases same)⟩
      intro due waits
      cases waits
      decide
    · intro store here
      cases here
      exact ⟨by decide,fun _ waits => (by cases waits),fun _ same => (by cases same)⟩
  · intro timely
    obtain ⟨due,-,waits,-⟩ := (timely refilled List.prefix_rfl _ rfl).pending ⟨ContentStoreImpl.letter 99 10,2⟩
      (by unfold ContentStoreImpl.Stored; decide) (by decide)
    cases waits

end ContentStoreWithFreshness

end Ncfcc.Cs
