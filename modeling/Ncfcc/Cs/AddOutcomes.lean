import Ncfcc.Cs.PolicyContainers

/-! What `Add` leaves behind: how many nodes an accepted Data leaves under the limit, and
what a refused one leaves changed. A full policy evicts one node for a new one,
however far above its limit it is and whatever the other policies say. -/
namespace Ncfcc.Cs
open Ncfcc.Library Ncfcc.Utils

namespace MemberPolicy

private theorem link_items (member : MemberPolicy) (call : Call) (entry : Entry)
    (controlled : member.traits.controls entry = true) :
    (member.link call entry).items.length = member.items.length + 1 := by
  unfold link
  rw [if_pos controlled]
  exact (member.traits.link_perm _ _).length_eq

theorem erase_first (member : MemberPolicy) (entry : Entry) (controlled : member.traits.controls entry = true)
    {victim : Item} {rest : List Item} (items : member.items = victim :: rest)
    (named : entry.data.name = victim.1) : (member.erase entry).items = rest := by
  unfold erase unlink
  rw [if_pos controlled,items,named]
  exact List.eraseP_cons_of_pos (p := fun (item : Item) => decide (item.1 = victim.1)) (decide_eq_true rfl)

theorem erase_sublist (member : MemberPolicy) (entry : Entry) : (member.erase entry).items.Sublist member.items := by
  unfold erase
  split
  · exact List.eraseP_sublist
  · exact List.Sublist.refl _

private theorem erase_link (member : MemberPolicy) (call : Call) (entry : Entry)
    (absent : entry.data.name ∉ member.names) : (member.link call entry).erase entry = member := by
  unfold erase
  rw [link_traits]
  unfold link
  split
  · have restored := member.traits.link_unlink (entry.data.name,member.traits.hook call entry) member.items absent
    dsimp only at restored ⊢
    rw [restored]
  · rfl

@[simp] theorem link_maxSize (member : MemberPolicy) (call : Call) (entry : Entry) :
    (member.link call entry).maxSize = member.maxSize := by
  unfold link
  split <;> rfl

@[simp] theorem erase_maxSize (member : MemberPolicy) (entry : Entry) :
    (member.erase entry).maxSize = member.maxSize := by
  unfold erase
  split <;> rfl

end MemberPolicy

namespace ContentStoreImpl

def taking (store : ContentStoreImpl) (call : Call) (entry : Entry) (index : Nat) (member : MemberPolicy) :
    ContentStoreImpl :=
  { store.makeRoom call.now member with
    policies := (store.makeRoom call.now member).policies.modify index (MemberPolicy.link · call entry) }

section
variable {store : ContentStoreImpl} {call : Call} {index : Nat} {member : MemberPolicy}

/-- Only the policy that takes the node is touched by the linking. -/
theorem taking_other (entry : Entry) {other : Nat} (different : index ≠ other) :
    (store.taking call entry index member).policies[other]? = (store.makeRoom call.now member).policies[other]? := by
  unfold taking
  dsimp only
  rw [List.getElem?_modify]
  simp [different]

private theorem insertMember_rejected (entry : Entry) (found : store.policies[index]? = some member)
    (rejects : member.rejects call = true) : store.insertMember call entry index = (false,store) := by
  unfold insertMember
  simp only [found,rejects,↓reduceIte]

private theorem insertMember_accepted (entry : Entry) (found : store.policies[index]? = some member)
    (accepts : member.rejects call = false) :
    store.insertMember call entry index = (true,store.taking call entry index member) := by
  unfold insertMember taking
  simp only [found,accepts,Bool.false_eq_true,↓reduceIte]

theorem makeRoom_unlimited (now : Time) (roomy : (member.traits.limited && member.full) = false) :
    store.makeRoom now member = store := by
  unfold makeRoom
  rw [roomy]
  rfl

theorem makeRoom_first (store : ContentStoreImpl) (now : Time)
    (filled : (member.traits.limited && member.full) = true) {victim : Item} {rest : List Item}
    (items : member.items = victim :: rest) : store.makeRoom now member = store.erase now victim.1 := by
  unfold makeRoom
  simp only [filled,items,List.head?_cons,↓reduceIte]

theorem makeRoom_created (store : ContentStoreImpl) (now : Time) (member : MemberPolicy) :
    (store.makeRoom now member).created = store.created := by
  unfold makeRoom
  split
  · cases member.items.head? with
    | none => rfl
    | some victim => exact erase_created now victim.1
  · rfl

theorem makeRoom_older (sound : store.Sound) (now : Time) (member : MemberPolicy) {path : Name} {entry : Entry}
    (found : (store.makeRoom now member).trie.get path = some entry) : store.trie.get path = some entry := by
  unfold makeRoom at found
  split at found
  · cases first : member.items.head? with
    | none =>
      rw [first] at found
      exact found
    | some victim =>
      rw [first] at found
      dsimp only at found
      rw [erase_trie now victim.1 sound.wellFormed] at found
      by_cases same : path = victim.1
      · rw [same,Function.update_self] at found
        cases found
      · rw [Function.update_of_ne same] at found
        exact found
  · exact found

theorem items_of_full (filled : (member.traits.limited && member.full) = true) :
    ∃ victim rest, member.items = victim :: rest := by
  have full : member.full = true := (Bool.and_eq_true_iff.mp filled).2
  unfold MemberPolicy.full at full
  simp only [ne_eq,decide_not,Bool.and_eq_true,Bool.not_eq_true',decide_eq_false_iff_not,
    decide_eq_true_eq] at full
  cases items : member.items with
  | nil =>
    rw [items,List.length_nil] at full
    omega
  | cons victim rest => exact ⟨victim,rest,rfl⟩

end

section
variable {store : ContentStoreImpl} (call : Call) (layout : Trie.Layout Component Entry) (data : FreshData)

/-- The victim of an eviction is stored, and it is not the new node. -/
theorem entered_victim (sound : store.Sound) (free : store.trie.get data.name = none) {member : MemberPolicy}
    (inside : member ∈ store.policies) {victim : Item} {rest : List Item}
    (items : member.items = victim :: rest) :
    ∃ entry, store.trie.get victim.1 = some entry ∧ entry.data.name = victim.1 ∧
      victim.1 ≠ data.name ∧ (store.entered layout data).trie.get victim.1 = some entry := by
  have held : victim.1 ∈ member.names := by
    rw [MemberPolicy.names,items]
    exact List.mem_cons_self
  obtain ⟨entry,stored,-⟩ := ((sound.holds member inside).exactly victim.1).mp held
  have apart : victim.1 ≠ data.name := by
    intro same
    rw [same,free] at stored
    cases stored
  refine ⟨entry,stored,sound.named _ _ stored,apart,?_⟩
  rw [(entered_trie layout data sound free).2,Function.update_of_ne apart]
  exact stored

theorem asked_one {member : MemberPolicy} (single : store.policies = [member]) :
    (member.rejects call = true → store.asked call layout data = (false,store.entered layout data)) ∧
      (member.rejects call = false → store.asked call layout data =
        (true,(store.entered layout data).taking call ⟨data,store.created⟩ 0 member)) := by
  have found : (store.entered layout data).policies[0]? = some member := by
    change store.policies[0]? = _
    rw [single]
    rfl
  unfold asked
  rw [show store.policies.length = 0 + 1 by rw [single]; rfl]
  constructor
  · intro rejects
    have refused := insertMember_rejected ⟨data,store.created⟩ found rejects
    rw [insertPolicies_refused call (by rw [refused]),refused]
  · intro accepts
    have taken := insertMember_accepted ⟨data,store.created⟩ found accepts
    rw [insertPolicies_taken call (by rw [taken]) rfl,taken]
    rfl

private theorem asked_single (sound : store.Sound) (free : store.trie.get data.name = none) {member : MemberPolicy}
    (single : store.policies = [member]) (limited : member.traits.limited = true)
    (all : ∀ entry, member.traits.controls entry = true) (accepts : member.rejects call = false) :
    (store.asked call layout data).2.getMaxSize = member.maxSize ∧
      (store.asked call layout data).2.getSize =
        if member.full then member.items.length else member.items.length + 1 := by
  rw [(asked_one call layout data single).2 accepts]
  unfold taking
  cases filled : member.full with
  | false =>
    rw [makeRoom_unlimited call.now (by rw [filled,Bool.and_false])]
    change ((store.policies.modify 0 _).head?.map _).getD 0 = _ ∧
      ((store.policies.modify 0 _).head?.map _).getD 0 = _
    rw [single]
    exact ⟨member.link_maxSize _ _,member.link_items _ _ (all _)⟩
  | true =>
    have evicts : (member.traits.limited && member.full) = true := by rw [limited,filled]; rfl
    obtain ⟨victim,rest,items⟩ := items_of_full evicts
    have room := makeRoom_first (store.entered layout data) call.now evicts items
    obtain ⟨entry,-,named,-,stored⟩ := entered_victim layout data sound free
      (by rw [single]; exact List.mem_cons_self) items
    have policies : ((store.entered layout data).erase call.now victim.1).policies = [member.erase entry] := by
      rw [erase_policies,stored]
      change store.policies.map _ = _
      rw [single]
      rfl
    rw [room,policies]
    have left := member.erase_first entry (all entry) items named
    have controlled : (member.erase entry).traits.controls ⟨data,store.created⟩ = true := by
      rw [MemberPolicy.erase_traits]
      exact all _
    refine ⟨((member.erase entry).link_maxSize _ _).trans (member.erase_maxSize entry),?_⟩
    refine ((member.erase entry).link_items call _ controlled).trans ?_
    rw [left,items]
    rfl

private theorem link_alike (replacement : Replacement) (member : MemberPolicy)
    (traits : member.traits = replacement.traits) (first second : Entry)
    (alike : first.data.name = second.data.name) : member.link call first = member.link call second := by
  unfold MemberPolicy.link
  rw [traits,alike]
  cases replacement <;> rfl

/-- The insertion into a store with one replacement policy is that of the general store: the
policy answers the same, and its victims leave the trie. -/
theorem asked_ofTraits (sound : store.Sound) (free : store.trie.get data.name = none) (replacement : Replacement)
    {member : MemberPolicy} (single : store.policies = [member]) (traits : member.traits = replacement.traits) :
    let answer := (Policy.ofTraits replacement.traits member.maxSize call).insert member data.toData
    (store.asked call layout data).1 = answer.1 ∧ (store.asked call layout data).2.policies = [answer.2.2] ∧
      (store.asked call layout data).2.trie.get =
        answer.2.1.foldl (fun contents victim => Function.update contents victim none)
          (store.entered layout data).trie.get := by
  have controlled : ∀ entry, member.traits.controls entry = true := by
    intro entry
    rw [traits]
    cases replacement <;> rfl
  dsimp only [Policy.ofTraits]
  cases rejects : member.rejects call with
  | true =>
    rw [(asked_one call layout data single).1 rejects]
    exact ⟨rfl,single,rfl⟩
  | false =>
    rw [(asked_one call layout data single).2 rejects]
    unfold taking
    simp only [Bool.false_eq_true,↓reduceIte]
    cases filled : member.traits.limited && member.full with
    | false =>
      rw [makeRoom_unlimited call.now filled]
      refine ⟨trivial,?_,rfl⟩
      change store.policies.modify 0 _ = _
      rw [single]
      exact congrArg (fun member => [member]) (link_alike call replacement _ traits _ _ rfl)
    | true =>
      obtain ⟨victim,rest,items⟩ := items_of_full filled
      have room := makeRoom_first (store.entered layout data) call.now filled items
      obtain ⟨entry,-,named,-,stored⟩ := entered_victim layout data sound free
        (by rw [single]; exact List.mem_cons_self) items
      have left : member.erase entry = { member with items := unlink victim.1 member.items } := by
        unfold MemberPolicy.erase
        rw [if_pos (controlled entry),named]
      have names : member.names.take 1 = [victim.1] := by
        unfold MemberPolicy.names
        rw [items]
        rfl
      rw [room,erase_policies,stored,names]
      refine ⟨trivial,?_,erase_trie call.now victim.1 (entered_sound layout data sound free).wellFormed⟩
      change (store.policies.map _).modify 0 _ = _
      rw [single]
      change [(member.erase entry).link call _] = _
      rw [left]
      exact congrArg (fun member => [member])
        (link_alike call replacement { member with items := unlink victim.1 member.items } traits _ _ rfl)

end

private theorem policies_of_single {store : ContentStoreImpl} {first : PolicyTraits} (traits : store.traits = [first]) :
    ∃ member, store.policies = [member] ∧ member.traits = first := by
  obtain ⟨member,rest,policies,same,none⟩ := List.map_eq_cons_iff.mp traits
  rw [List.map_eq_nil_iff.mp none] at policies
  exact ⟨member,policies,same⟩

theorem policies_of_pair {store : ContentStoreImpl} {first second : PolicyTraits}
    (traits : store.traits = [first,second]) :
    ∃ one two, store.policies = [one,two] ∧ one.traits = first ∧ two.traits = second := by
  obtain ⟨one,rest,policies,same,more⟩ := List.map_eq_cons_iff.mp traits
  obtain ⟨two,none,tail,last,empty⟩ := List.map_eq_cons_iff.mp more
  rw [tail,List.map_eq_nil_iff.mp empty] at policies
  exact ⟨one,two,policies,same,last⟩

/-! The limit of a store with a single policy. -/

/-- An accepted Data leaves the store within its limit, if it has one. -/
def WithinLimit (store : ContentStoreImpl) : StoreEvent → Prop
  | .add call layout data => (store.add call layout data).1 = true →
    (store.add call layout data).2.getMaxSize ≠ 0 →
    (store.add call layout data).2.getSize ≤ (store.add call layout data).2.getMaxSize
  | _ => True

/-- The store is within its limit already when a new Data comes that no policy refuses. -/
def Unexceeded (store : ContentStoreImpl) : StoreEvent → Prop
  | .add call _ data => store.trie.get data.name = none →
    (∀ member ∈ store.policies, member.rejects call = false) →
    store.getMaxSize ≠ 0 → store.getSize ≤ store.getMaxSize
  | _ => True

theorem full_iff (member : MemberPolicy) (limit : member.maxSize ≠ 0) :
    member.full = true ↔ member.maxSize ≤ member.items.length := by
  simp [MemberPolicy.full,limit]

private theorem withinLimit_iff {store : ContentStoreImpl} (sound : store.Sound) (replacement : Replacement)
    (traits : store.traits = [replacement.traits]) (event : StoreEvent) :
    store.WithinLimit event ↔ store.Unexceeded event := by
  cases event with
  | lookup interest => exact Iff.rfl
  | setMaxSize maxSize => exact Iff.rfl
  | erase now name => exact Iff.rfl
  | cleanExpired now => exact Iff.rfl
  | add call layout data =>
    obtain ⟨member,single,same⟩ := policies_of_single traits
    have limited : member.traits.limited = true := by
      rw [same]
      cases replacement <;> rfl
    have all : ∀ entry, member.traits.controls entry = true := by
      rw [same]
      cases replacement <;> exact fun _ => rfl
    have limit : store.getMaxSize = member.maxSize := by
      rw [getMaxSize,single]
      rfl
    have size : store.getSize = member.items.length := by
      rw [getSize,single]
      rfl
    unfold WithinLimit Unexceeded
    dsimp only
    rw [limit,size,single]
    simp only [List.mem_singleton,forall_eq]
    cases stored : store.trie.get data.name with
    | some old => simp [add_occupied call layout data sound stored]
    | none =>
      obtain ⟨rejected,accepted⟩ := asked_one call layout data single
      cases refused : member.rejects call with
      | true =>
        simp [add_rejected call layout data sound stored (by rw [rejected refused])]
      | false =>
        have answer : (store.asked call layout data).1 = true := by rw [accepted refused]
        obtain ⟨sameLimit,sizeAfter⟩ := asked_single call layout data sound stored single limited all refused
        rw [add_accepted call layout data sound stored answer]
        change (true = true → (store.asked call layout data).2.getMaxSize ≠ 0 →
          (store.asked call layout data).2.getSize ≤ (store.asked call layout data).2.getMaxSize) ↔ _
        rw [sameLimit,sizeAfter]
        simp only [forall_const]
        constructor
        · intro within positive
          have bound := within positive
          split at bound
          · exact bound
          · omega
        · intro within positive
          have bound := within positive
          split
          · exact bound
          · rename_i room
            rw [full_iff member positive] at room
            omega

/-- In a run of a store with a single policy every accepted Data leaves at most
`MaxSize` of them exactly if no new Data comes to a store that is above it. -/
theorem withinLimit_along_iff (replacement : Replacement) (events : List StoreEvent) :
    Steps next (fun state event => ∀ store, state = some store → store.WithinLimit event)
        (some (new (StoreClass.impl.traits replacement))) events ↔
      Steps next (fun state event => ∀ store, state = some store → store.Unexceeded event)
        (some (new (StoreClass.impl.traits replacement))) events := by
  refine steps_congr (P := fun state => ∀ store, state = some store →
    store.Sound ∧ store.traits = [replacement.traits]) ?_ ?_ ?_
  · intro state event good _ after reached
    obtain ⟨store,here,stepped⟩ := Option.bind_eq_some_iff.mp reached
    obtain ⟨sound,traits⟩ := good store here
    obtain ⟨soundAfter,kept⟩ := sound.step event stepped
    exact ⟨soundAfter,kept.trans traits⟩
  · intro state event good
    refine forall_congr' fun store => imp_congr_right fun here => ?_
    obtain ⟨sound,traits⟩ := good store here
    exact withinLimit_iff sound replacement traits event
  · intro store here
    cases here
    refine ⟨new_sound _,rfl⟩

def loweredLimit : List StoreEvent :=
  [.add ⟨0,0,true⟩ inOrder (letter 97 0),.add ⟨0,0,true⟩ inOrder (letter 98 0),.setMaxSize 1,
    .add ⟨0,0,true⟩ inOrder (letter 99 0)]

/-- The accepted Data replaces one of two. -/
theorem loweredLimit_exceeded :
    ¬ Steps next (fun state event => ∀ store, state = some store → store.WithinLimit event)
      (some (new (StoreClass.impl.traits .lru))) loweredLimit := by
  intro always
  have last := always (loweredLimit.take 3) (.add ⟨0,0,true⟩ inOrder (letter 99 0)) List.prefix_rfl _ rfl
  revert last
  unfold WithinLimit
  decide

/-! What a refused Data changes. -/

/-- The same stored Data, and all policies with the same nodes in the same order. -/
def Unchanged (before after : ContentStoreImpl) : Prop :=
  after.trie.get = before.trie.get ∧ after.policies = before.policies

/-- A new Data is taken by a full replacement policy and then refused by the
probability policy. -/
def Overrun (kind : StoreClass) (store : ContentStoreImpl) (call : Call) (data : FreshData) : Prop :=
  kind = .probability ∧ store.trie.get data.name = none ∧ call.admitted = false ∧
    ∃ member, store.policies[1]? = some member ∧ member.full = true ∧ member.rejects call = false

section
variable {store : ContentStoreImpl} (call : Call) (layout : Trie.Layout Component Entry) (data : FreshData)

private theorem unchanged_of_policies (sound : store.Sound) (free : store.trie.get data.name = none)
    (rejected : (store.asked call layout data).1 = false)
    (trie : (store.asked call layout data).2.trie = (store.entered layout data).trie)
    (policies : (store.asked call layout data).2.policies = store.policies) :
    store.Unchanged (store.add call layout data).2 := by
  have whole := store.trie.insert_wellFormed layout sound.wellFormed data.name ⟨data,store.created⟩
  rw [add_rejected call layout data sound free rejected]
  refine ⟨?_,policies⟩
  change ((store.asked call layout data).2.trie.erase data.name).get = _
  rw [trie,Trie.get_erase_update (store.entered layout data).trie whole]
  rw [(entered_trie layout data sound free).2,Function.update_idem,← free,Function.update_eq_self]

/-- Of two policies the second is asked first; the first then sees the store as the
second has left it. -/
theorem asked_two {first second : MemberPolicy} (both : store.policies = [first,second]) :
    (second.rejects call = true → store.asked call layout data = (false,store.entered layout data)) ∧
      ∀ taken member, second.rejects call = false →
        taken = (store.entered layout data).taking call ⟨data,store.created⟩ 1 second →
        taken.policies[0]? = some member →
          (member.rejects call = true →
            store.asked call layout data = (false,taken.eraseMember call.now ⟨data,store.created⟩ 1)) ∧
          (member.rejects call = false →
            store.asked call layout data = (true,taken.taking call ⟨data,store.created⟩ 0 member)) := by
  have found : (store.entered layout data).policies[1]? = some second := by
    change store.policies[1]? = _
    rw [both]
    rfl
  unfold asked
  rw [show store.policies.length = 1 + 1 by rw [both]; rfl]
  constructor
  · intro rejects
    have refused := insertMember_rejected ⟨data,store.created⟩ found rejects
    rw [insertPolicies_refused call (by rw [refused]),refused]
  · rintro taken member accepts rfl next
    have linked := insertMember_accepted ⟨data,store.created⟩ found accepts
    have after := congrArg Prod.snd linked
    dsimp only at after
    rw [← after] at next ⊢
    constructor
    · intro rejects
      have refused := insertMember_rejected ⟨data,store.created⟩ next rejects
      have rest := insertPolicies_refused call (congrArg Prod.fst refused)
      rw [insertPolicies_rolledBack call (congrArg Prod.fst linked) (congrArg Prod.fst rest),rest,refused]
    · intro admits
      have admitted := insertMember_accepted ⟨data,store.created⟩ next admits
      have rest := insertPolicies_taken call (congrArg Prod.fst admitted) rfl
      rw [insertPolicies_taken call (congrArg Prod.fst linked) (congrArg Prod.fst rest),rest,admitted]
      rfl

def linked (store : ContentStoreImpl) (call : Call) (layout : Trie.Layout Component Entry) (data : FreshData) :
    ContentStoreImpl :=
  { store.entered layout data with
    policies := store.policies.modify 1 (MemberPolicy.link · call ⟨data,store.created⟩) }

theorem linked_policies {first second : MemberPolicy} (both : store.policies = [first,second]) :
    (store.linked call layout data).policies = [first,second.link call ⟨data,store.created⟩] := by
  change store.policies.modify 1 _ = _
  rw [both]
  rfl

theorem asked_linked {first second : MemberPolicy} (both : store.policies = [first,second])
    (unlimited : second.traits.limited = false) (accepts : second.rejects call = false) :
    (first.rejects call = true → store.asked call layout data =
        (false,(store.linked call layout data).eraseMember call.now ⟨data,store.created⟩ 1)) ∧
      (first.rejects call = false → store.asked call layout data =
        (true,(store.linked call layout data).taking call ⟨data,store.created⟩ 0 first)) := by
  refine (asked_two call layout data both).2 _ first accepts ?_ ?_
  · unfold taking linked
    rw [makeRoom_unlimited call.now (by rw [unlimited]; rfl)]
    rfl
  · rw [linked_policies call layout data both]
    rfl

/-- The eviction for the first policy finds the same victim whether or not the new node
is already in the trie and in the second policy. -/
theorem linked_makeRoom (sound : store.Sound) (free : store.trie.get data.name = none)
    {first second : MemberPolicy} (both : store.policies = [first,second]) :
    ((store.linked call layout data).makeRoom call.now first).trie.get =
        Function.update (store.makeRoom call.now first).trie.get data.name (some ⟨data,store.created⟩) ∧
      ∀ member, ((store.linked call layout data).makeRoom call.now first).policies[1]? = some member →
        member.items.Sublist (second.link call ⟨data,store.created⟩).items := by
  have trie := (entered_trie layout data sound free).2
  have policies := linked_policies call layout data both
  cases filled : first.traits.limited && first.full with
  | false =>
    rw [makeRoom_unlimited call.now filled,makeRoom_unlimited call.now filled]
    refine ⟨trie,?_⟩
    rw [policies]
    rintro member same
    cases same
    exact List.Sublist.refl _
  | true =>
    obtain ⟨victim,rest,items⟩ := items_of_full filled
    rw [makeRoom_first _ call.now filled items,makeRoom_first _ call.now filled items]
    obtain ⟨entry,-,-,apart,there⟩ := entered_victim layout data sound free
      (by rw [both]; exact List.mem_cons_self) items
    have whole := store.trie.insert_wellFormed layout sound.wellFormed data.name ⟨data,store.created⟩
    have known : (store.linked call layout data).trie.get victim.1 = some entry := there
    constructor
    · rw [erase_trie call.now victim.1 whole,erase_trie call.now victim.1 sound.wellFormed]
      change Function.update (store.entered layout data).trie.get victim.1 none = _
      rw [trie,Function.update_comm apart.symm]
    · intro member found
      rw [erase_policies,known,Option.elim_some,policies] at found
      cases found
      exact MemberPolicy.erase_sublist _ _

private theorem asked_roomy {first second : MemberPolicy} (both : store.policies = [first,second])
    (absent : data.name ∉ second.names) (accepts : second.rejects call = false)
    (roomy : (second.traits.limited && second.full) = false) :
    (store.asked call layout data).1 = !first.rejects call ∧
      (first.rejects call = true →
        (store.asked call layout data).2.trie = (store.entered layout data).trie ∧
        (store.asked call layout data).2.policies = store.policies) := by
  have room : (store.entered layout data).makeRoom call.now second = store.entered layout data :=
    makeRoom_unlimited call.now roomy
  have policies : ((store.entered layout data).taking call ⟨data,store.created⟩ 1 second).policies =
      [first,second.link call ⟨data,store.created⟩] := by
    unfold taking
    rw [room]
    change store.policies.modify 1 _ = _
    rw [both]
    rfl
  obtain ⟨refused,admitted⟩ := (asked_two call layout data both).2 _ first accepts rfl (by rw [policies]; rfl)
  cases answer : first.rejects call with
  | true =>
    rw [refused answer]
    have trie : ((store.entered layout data).taking call ⟨data,store.created⟩ 1 second).trie =
        (store.entered layout data).trie := by
      unfold taking
      rw [room]
    refine ⟨rfl,fun _ => ⟨trie,?_⟩⟩
    change List.modify ((store.entered layout data).taking call ⟨data,store.created⟩ 1 second).policies 1 _ = _
    rw [policies,both]
    change [first,(second.link call ⟨data,store.created⟩).erase ⟨data,store.created⟩] = _
    rw [MemberPolicy.erase_link second call ⟨data,store.created⟩ absent]
  | false => exact ⟨congrArg Prod.fst (admitted answer),fun rejects => by cases rejects⟩

/-- A full second policy has evicted a stored node before the first one is asked. -/
theorem asked_evicting (sound : store.Sound) (free : store.trie.get data.name = none)
    {first second : MemberPolicy} (both : store.policies = [first,second])
    (accepts : second.rejects call = false) (filled : (second.traits.limited && second.full) = true) :
    ∃ (member : MemberPolicy) (victim : Name), member.traits = first.traits ∧ store.trie.get victim ≠ none ∧
      victim ≠ data.name ∧ (member.rejects call = false → (store.asked call layout data).1 = true) ∧
      (member.rejects call = true → (store.asked call layout data).1 = false ∧
        (store.asked call layout data).2.trie.get victim = none) := by
  obtain ⟨victim,rest,items⟩ := items_of_full filled
  have room := makeRoom_first (store.entered layout data) call.now filled items
  obtain ⟨entry,stored,-,apart,there⟩ := entered_victim layout data sound free
    (by rw [both]; exact List.mem_cons_of_mem _ List.mem_cons_self) items
  have policies : ((store.entered layout data).taking call ⟨data,store.created⟩ 1 second).policies =
      [first.erase entry,(second.erase entry).link call ⟨data,store.created⟩] := by
    unfold taking
    rw [room,erase_policies,there]
    change (store.policies.map _).modify 1 _ = _
    rw [both]
    rfl
  obtain ⟨refused,admitted⟩ := (asked_two call layout data both).2 _ (first.erase entry) accepts rfl
    (by rw [policies]; rfl)
  refine ⟨first.erase entry,victim.1,first.erase_traits entry,by simp [stored],apart,?_,?_⟩
  · intro admits
    rw [admitted admits]
  · intro rejects
    rw [refused rejects]
    refine ⟨rfl,?_⟩
    have whole := store.trie.insert_wellFormed layout sound.wellFormed data.name ⟨data,store.created⟩
    change ((store.entered layout data).makeRoom call.now second).trie.get victim.1 = none
    rw [room,erase_trie call.now victim.1 whole,Function.update_self]

theorem unchanged_of_roomy (sound : store.Sound) (free : store.trie.get data.name = none)
    {first second : MemberPolicy} (both : store.policies = [first,second])
    (accepts : second.rejects call = false) (roomy : (second.traits.limited && second.full) = false)
    (failed : (store.add call layout data).1 = false) : store.Unchanged (store.add call layout data).2 := by
  have absent : data.name ∉ second.names := by
    exact (sound.holds second (by rw [both]; simp)).absent free
  obtain ⟨answer,restored⟩ := asked_roomy call layout data both absent accepts roomy
  cases refused : first.rejects call with
  | true =>
    rw [refused] at answer
    obtain ⟨trie,policies⟩ := restored refused
    exact unchanged_of_policies call layout data sound free answer trie policies
  | false =>
    rw [refused] at answer
    rw [add_accepted call layout data sound free answer] at failed
    cases failed

private theorem unchanged_iff_probability (sound : store.Sound) (free : store.trie.get data.name = none)
    {first second : MemberPolicy} (both : store.policies = [first,second])
    (probability : first.traits = .probability) (limited : second.traits.limited = true)
    (failed : (store.add call layout data).1 = false) :
    store.Unchanged (store.add call layout data).2 ↔
      ¬ (call.admitted = false ∧ second.full = true ∧ second.rejects call = false) := by
  cases answer : second.rejects call with
  | true =>
    have asked := (asked_two call layout data both).1 answer
    simp only [Bool.true_eq_false,and_false,not_false_eq_true,iff_true]
    exact unchanged_of_policies call layout data sound free (by rw [asked]) (by rw [asked]) (by rw [asked]; rfl)
  | false =>
    cases filled : second.full with
    | false =>
      simp only [Bool.false_eq_true,false_and,and_false,not_false_eq_true,iff_true]
      exact unchanged_of_roomy call layout data sound free both answer (by rw [filled,Bool.and_false]) failed
    | true =>
      obtain ⟨member,victim,same,stored,apart,admitted,refused⟩ :=
        asked_evicting call layout data sound free both answer (by rw [limited,filled]; rfl)
      have draw : member.rejects call = !call.admitted := by
        unfold MemberPolicy.rejects
        rw [same,probability]
        rfl
      cases admission : call.admitted with
      | true =>
        rw [admission] at draw
        rw [add_accepted call layout data sound free (admitted draw)] at failed
        cases failed
      | false =>
        rw [admission] at draw
        obtain ⟨rejected,gone⟩ := refused draw
        simp only [and_self,not_true_eq_false,iff_false]
        rintro ⟨trie,-⟩
        rw [add_rejected call layout data sound free rejected] at trie
        have after := asked_sound call layout data sound free
        have kept := congrFun trie victim
        change ((store.asked call layout data).2.trie.erase data.name).get victim = _ at kept
        rw [Trie.get_erase_update _ after.2.wellFormed,Function.update_of_ne apart,gone] at kept
        exact stored kept.symm

end

/-- In every store that a run reaches, of whatever class and replacement policy, a Data
that is not added leaves the stored Data and all policies as they were exactly if it
is not refused by the probability policy after a full replacement policy took it. -/
theorem unchanged_iff_not_overrun (kind : StoreClass) (replacement : Replacement) (store : ContentStoreImpl)
    (reachable : Reachable kind replacement store) (call : Call) (layout : Trie.Layout Component Entry)
    (data : FreshData) (failed : (store.add call layout data).1 = false) :
    store.Unchanged (store.add call layout data).2 ↔ ¬ Overrun kind store call data := by
  obtain ⟨sound,traits⟩ := reachable_sound reachable
  cases stored : store.trie.get data.name with
  | some old =>
    rw [add_occupied call layout data sound stored]
    refine iff_of_true ⟨rfl,rfl⟩ ?_
    rintro ⟨-,free,-⟩
    rw [stored] at free
    cases free
  | none =>
    cases kind with
    | impl =>
      obtain ⟨member,single,-⟩ := policies_of_single traits
      refine iff_of_true ?_ (fun overrun => by cases overrun.1)
      obtain ⟨refused,admitted⟩ := asked_one call layout data single
      cases answer : member.rejects call with
      | true =>
        have asked := refused answer
        exact unchanged_of_policies call layout data sound stored (by rw [asked]) (by rw [asked]) (by rw [asked]; rfl)
      | false =>
        rw [add_accepted call layout data sound stored (by rw [admitted answer])] at failed
        cases failed
    | stats =>
      obtain ⟨first,second,both,-,kept⟩ := policies_of_pair traits
      refine iff_of_true ?_ (fun overrun => by cases overrun.1)
      exact unchanged_of_roomy call layout data sound stored both (by rw [MemberPolicy.rejects,kept]; rfl)
        (by rw [kept]; rfl) failed
    | freshness =>
      obtain ⟨first,second,both,-,kept⟩ := policies_of_pair traits
      refine iff_of_true ?_ (fun overrun => by cases overrun.1)
      exact unchanged_of_roomy call layout data sound stored both (by rw [MemberPolicy.rejects,kept]; rfl)
        (by rw [kept]; rfl) failed
    | probability =>
      obtain ⟨first,second,both,chance,kept⟩ := policies_of_pair traits
      have limited : second.traits.limited = true := by
        rw [kept]
        cases replacement <;> rfl
      rw [unchanged_iff_probability call layout data sound stored both chance limited failed]
      have there : store.policies[1]? = some second := by
        rw [both]
        rfl
      apply not_congr
      constructor
      · rintro ⟨refused,full,accepts⟩
        exact ⟨rfl,stored,refused,second,there,full,accepts⟩
      · rintro ⟨-,-,refused,member,found,full,accepts⟩
        rw [there] at found
        cases found
        exact ⟨refused,full,accepts⟩

def oneStored : List StoreEvent :=
  [.setMaxSize 1,.add ⟨0,0,true⟩ inOrder (letter 97 0)]

def holdingOne (kind : StoreClass) : ContentStoreImpl :=
  (run next (some (new (kind.traits .lru))) oneStored).getD (new [])

/-- A second Data is refused by the probability policy, and the first one is gone. -/
theorem refusedAfterEviction_changed :
    Reachable .probability .lru (holdingOne .probability) ∧
      ((holdingOne .probability).add ⟨0,0,false⟩ inOrder (letter 98 0)).1 = false ∧
      ¬ (holdingOne .probability).Unchanged
        ((holdingOne .probability).add ⟨0,0,false⟩ inOrder (letter 98 0)).2 := by
  refine ⟨⟨oneStored,rfl⟩,by decide,?_⟩
  rintro ⟨trie,-⟩
  have gone := congrFun trie [[97]]
  revert gone
  decide

/-- The name of the Data is taken, and nothing changes. -/
theorem unchanged_iff_not_overrun_occupied :
    (holdingOne .probability).Unchanged
        ((holdingOne .probability).add ⟨0,0,false⟩ inOrder (letter 97 0)).2 ↔
      ¬ Overrun .probability (holdingOne .probability) ⟨0,0,false⟩ (letter 97 0) :=
  unchanged_iff_not_overrun .probability .lru (holdingOne .probability) ⟨oneStored,rfl⟩ ⟨0,0,false⟩
    inOrder (letter 97 0) (by decide)

end ContentStoreImpl

end Ncfcc.Cs
