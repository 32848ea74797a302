import Mathlib.Data.Set.Card
import Ncfcc.Cs.ContentStoreImpl
import Ncfcc.Utils.TrieWithPolicy

/-! Every member policy holds exactly the stored nodes it controls. The insertion into
the policies runs from the last to the first, so that in between the first of them
do not yet hold the new node; evictions erase another node from all of them. -/
namespace Ncfcc.Cs
open Ncfcc.Library Ncfcc.Utils

theorem unlink_names (name : Name) (items : List Item) :
    (unlink name items).map Prod.fst = (items.map Prod.fst).erase name := by
  induction items with
  | nil => rfl
  | cons head tail ih =>
    by_cases here : head.1 = name
    · unfold unlink
      rw [List.eraseP_cons_of_pos (by simpa using here),List.map_cons,here,List.erase_cons_head]
    · have below : (unlink name (head :: tail)) = head :: unlink name tail :=
        List.eraseP_cons_of_neg (by simpa using here)
      rw [below,List.map_cons,List.map_cons,ih,List.erase_cons_tail (by simpa using here)]

namespace MemberPolicy

/-- The container holds every stored node the policy controls, once, and no other. -/
structure Holds (contents : Name → Option Entry) (member : MemberPolicy) : Prop where
  once : member.names.Nodup
  exactly : ∀ name, name ∈ member.names ↔
    ∃ entry, contents name = some entry ∧ member.traits.controls entry = true

section
variable {contents : Name → Option Entry} {member : MemberPolicy} {entry : Entry}

theorem Holds.absent (holds : member.Holds contents) {name : Name} (free : contents name = none) :
    name ∉ member.names := by
  rw [holds.exactly,free]
  rintro ⟨entry,stored,-⟩
  cases stored

theorem erase_traits (member : MemberPolicy) (entry : Entry) : (member.erase entry).traits = member.traits := by
  unfold erase
  split <;> rfl

theorem link_traits (member : MemberPolicy) (call : Call) (entry : Entry) :
    (member.link call entry).traits = member.traits := by
  unfold link
  split <;> rfl

private theorem erase_names (member : MemberPolicy) (entry : Entry) :
    (member.erase entry).names =
      if member.traits.controls entry then member.names.erase entry.data.name else member.names := by
  unfold erase
  split
  · exact unlink_names _ _
  · rfl

theorem mem_of_mem_erase {member : MemberPolicy} {entry : Entry} {item : Item}
    (inside : item ∈ (member.erase entry).items) : item ∈ member.items := by
  unfold erase at inside
  split at inside
  · exact List.mem_of_mem_eraseP inside
  · exact inside

private theorem link_names (member : MemberPolicy) (call : Call) (entry : Entry) :
    (member.link call entry).names.Perm
      (if member.traits.controls entry then entry.data.name :: member.names else member.names) := by
  unfold link
  split
  · exact (member.traits.link_perm _ _).map Prod.fst
  · exact List.Perm.refl _

theorem Holds.erase (holds : Holds contents member) (stored : contents entry.data.name = some entry) :
    Holds (Function.update contents entry.data.name none) (member.erase entry) := by
  have names := erase_names member entry
  have traits := erase_traits member entry
  refine ⟨?_,?_⟩
  · rw [names]
    split
    · exact holds.once.erase _
    · exact holds.once
  · intro name
    rw [names,traits]
    by_cases same : name = entry.data.name
    · subst same
      rw [Function.update_self]
      cases controlled : member.traits.controls entry with
      | true => simp [holds.once.mem_erase_iff]
      | false =>
        have absent : entry.data.name ∉ member.names := by
          rw [holds.exactly]
          rintro ⟨other,found,controls⟩
          rw [stored] at found
          cases found
          rw [controlled] at controls
          cases controls
        simp [absent]
    · rw [Function.update_of_ne same,← holds.exactly]
      split
      · exact List.mem_erase_of_ne same
      · rfl

theorem Holds.link (holds : Holds (Function.update contents entry.data.name none) member)
    (stored : contents entry.data.name = some entry) (call : Call) :
    Holds contents (member.link call entry) := by
  have names := link_names member call entry
  have traits := link_traits member call entry
  have absent : entry.data.name ∉ member.names := by
    exact holds.absent (Function.update_self ..)
  refine ⟨?_,?_⟩
  · rw [names.nodup_iff]
    split
    · exact List.nodup_cons.mpr ⟨absent,holds.once⟩
    · exact holds.once
  · intro name
    rw [names.mem_iff,traits]
    by_cases same : name = entry.data.name
    · subst same
      rw [stored]
      cases controlled : member.traits.controls entry with
      | true => simp [controlled]
      | false => simp [controlled,absent]
    · have others := holds.exactly name
      rw [Function.update_of_ne same] at others
      rw [← others]
      split
      · rw [List.mem_cons,or_iff_right same]
      · rfl

theorem Holds.lookup (holds : Holds contents member) (name : Name) : Holds contents (member.lookup name) := by
  have names : (member.lookup name).names.Perm member.names := member.traits.lookup_keys name member.items
  refine ⟨names.nodup_iff.mpr holds.once,?_⟩
  intro other
  rw [names.mem_iff]
  exact holds.exactly other

end

end MemberPolicy

namespace ContentStoreImpl

/-- Every policy holds what is stored, the first `count` of them all but this name. -/
structure SoundBut (name : Name) (count : Nat) (store : ContentStoreImpl) : Prop where
  wellFormed : store.trie.WellFormed
  named : ∀ path entry, store.trie.get path = some entry → entry.data.name = path
  holds : ∀ (index : Nat) (member : MemberPolicy), store.policies[index]? = some member →
    MemberPolicy.Holds (if index < count then Function.update store.trie.get name none else store.trie.get) member

/-- Every policy holds exactly the stored nodes it controls. -/
structure Sound (store : ContentStoreImpl) : Prop where
  wellFormed : store.trie.WellFormed
  named : ∀ path entry, store.trie.get path = some entry → entry.data.name = path
  holds : ∀ member ∈ store.policies, member.Holds store.trie.get

private theorem soundBut_zero {store : ContentStoreImpl} (name : Name) : store.SoundBut name 0 ↔ store.Sound := by
  constructor
  · rintro ⟨wellFormed,named,holds⟩
    refine ⟨wellFormed,named,?_⟩
    intro member inside
    obtain ⟨index,found⟩ := List.mem_iff_getElem?.mp inside
    simpa using holds index member found
  · rintro ⟨wellFormed,named,holds⟩
    refine ⟨wellFormed,named,?_⟩
    intro index member found
    simpa using holds member (List.mem_of_getElem? found)

section
variable {store : ContentStoreImpl} {name : Name} {count : Nat} {entry : Entry}

theorem erase_trie (now : Time) (victim : Name) (wellFormed : store.trie.WellFormed) :
    (store.erase now victim).trie.get = Function.update store.trie.get victim none := by
  unfold erase
  cases stored : store.trie.get victim with
  | none =>
    dsimp only
    rw [← stored,Function.update_eq_self]
  | some entry => exact Trie.get_erase_update store.trie wellFormed victim

theorem erase_policies (now : Time) (victim : Name) :
    (store.erase now victim).policies =
      (store.trie.get victim).elim store.policies fun entry => store.policies.map (MemberPolicy.erase · entry) := by
  unfold erase
  cases store.trie.get victim <;> rfl

theorem erase_created (now : Time) (victim : Name) : (store.erase now victim).created = store.created := by
  unfold erase
  cases store.trie.get victim <;> rfl

theorem SoundBut.erase (sound : store.SoundBut name count) (now : Time) (victim : Name)
    (other : count ≠ 0 → victim ≠ name) : (store.erase now victim).SoundBut name count := by
  have trie := erase_trie now victim sound.wellFormed
  refine ⟨?_,?_,?_⟩
  · unfold ContentStoreImpl.erase
    cases store.trie.get victim with
    | none => exact sound.wellFormed
    | some entry => exact store.trie.erase_wellFormed sound.wellFormed victim
  · intro path entry stored
    rw [trie] at stored
    by_cases same : path = victim
    · rw [same,Function.update_self] at stored
      cases stored
    · rw [Function.update_of_ne same] at stored
      exact sound.named path entry stored
  · intro index member found
    rw [erase_policies] at found
    rw [trie]
    cases stored : store.trie.get victim with
    | none =>
      rw [stored] at found
      have kept : Function.update store.trie.get victim none = store.trie.get := by
        rw [← stored,Function.update_eq_self]
      rw [kept]
      exact sound.holds index member found
    | some entry =>
      rw [stored,Option.elim_some,List.getElem?_map] at found
      obtain ⟨before,there,rfl⟩ := Option.map_eq_some_iff.mp found
      have holds := sound.holds index before there
      have here := sound.named victim entry stored
      subst here
      by_cases early : index < count
      · rw [if_pos early] at holds ⊢
        have apart := other (by omega)
        rw [Function.update_comm apart]
        exact holds.erase (by rw [Function.update_of_ne apart]; exact stored)
      · rw [if_neg early] at holds ⊢
        exact holds.erase stored

theorem Sound.erase (sound : store.Sound) (now : Time) (victim : Name) : (store.erase now victim).Sound := by
  rw [← soundBut_zero victim] at sound ⊢
  exact sound.erase now victim (fun positive => absurd rfl positive)

/-- What is evicted from a policy that lacks the new node is another stored node. -/
theorem SoundBut.makeRoom (sound : store.SoundBut name count) (now : Time) {index : Nat} {member : MemberPolicy}
    (found : store.policies[index]? = some member) (early : index < count) :
    (store.makeRoom now member).SoundBut name count ∧
      (store.makeRoom now member).trie.get name = store.trie.get name := by
  unfold ContentStoreImpl.makeRoom
  split
  · cases first : member.items.head? with
    | none => exact ⟨sound,rfl⟩
    | some victim =>
      have holds := sound.holds index member found
      rw [if_pos early] at holds
      have inside : victim.1 ∈ member.names := List.mem_map_of_mem (List.mem_of_head? first)
      have apart : victim.1 ≠ name := by
        intro same
        obtain ⟨entry,stored,-⟩ := (holds.exactly victim.1).mp inside
        rw [same,Function.update_self] at stored
        cases stored
      refine ⟨sound.erase now victim.1 (fun _ => apart),?_⟩
      rw [erase_trie now victim.1 sound.wellFormed,Function.update_of_ne apart.symm]
  · exact ⟨sound,rfl⟩

theorem SoundBut.insertMember (sound : store.SoundBut entry.data.name (count + 1))
    (stored : store.trie.get entry.data.name = some entry) (call : Call) :
    (store.insertMember call entry count).2.trie.get entry.data.name = some entry ∧
      (store.insertMember call entry count).2.SoundBut entry.data.name
        (if (store.insertMember call entry count).1 then count else count + 1) := by
  unfold ContentStoreImpl.insertMember
  cases found : store.policies[count]? with
  | none =>
    refine ⟨stored,sound.wellFormed,sound.named,?_⟩
    intro index member there
    have apart : index ≠ count := by
      rintro rfl
      rw [found] at there
      cases there
    have holds := sound.holds index member there
    by_cases early : index < count
    · rw [if_pos (by omega)] at holds
      rw [if_pos rfl,if_pos early]
      exact holds
    · rw [if_neg (by omega)] at holds
      rw [if_pos rfl,if_neg early]
      exact holds
  | some member =>
    dsimp only
    split
    · exact ⟨stored,sound⟩
    · obtain ⟨roomy,kept⟩ := sound.makeRoom call.now found (Nat.lt_succ_self count)
      rw [stored] at kept
      refine ⟨kept,roomy.wellFormed,roomy.named,?_⟩
      intro index after there
      rw [List.getElem?_modify] at there
      obtain ⟨before,earlier,rfl⟩ := Option.map_eq_some_iff.mp there
      have holds := roomy.holds index before earlier
      rw [if_pos rfl]
      by_cases here : count = index
      · rw [if_pos here] 
        rw [if_pos (by omega)] at holds
        rw [if_neg (by omega)]
        exact holds.link kept call
      · rw [if_neg here]
        by_cases early : index < count
        · rw [if_pos (by omega)] at holds
          rw [if_pos early]
          exact holds
        · rw [if_neg (by omega)] at holds
          rw [if_neg early]
          exact holds

theorem SoundBut.eraseMember (sound : store.SoundBut entry.data.name count)
    (stored : store.trie.get entry.data.name = some entry) (now : Time) :
    (store.eraseMember now entry count).SoundBut entry.data.name (count + 1) := by
  refine ⟨sound.wellFormed,sound.named,?_⟩
  intro index after there
  change (store.policies.modify count _)[index]? = _ at there
  rw [List.getElem?_modify] at there
  obtain ⟨before,earlier,rfl⟩ := Option.map_eq_some_iff.mp there
  have holds := sound.holds index before earlier
  change MemberPolicy.Holds (if index < count + 1 then Function.update store.trie.get entry.data.name none
    else store.trie.get) _
  by_cases here : count = index
  · rw [if_pos here]
    rw [if_neg (by omega)] at holds
    rw [if_pos (by omega)]
    exact holds.erase stored
  · rw [if_neg here]
    by_cases early : index < count
    · rw [if_pos early] at holds
      rw [if_pos (by omega)]
      exact holds
    · rw [if_neg early] at holds
      rw [if_neg (by omega)]
      exact holds

theorem insertPolicies_refused (call : Call) (refused : (store.insertMember call entry count).1 = false) :
    store.insertPolicies call entry (count + 1) = (false,(store.insertMember call entry count).2) := by
  unfold ContentStoreImpl.insertPolicies
  simp only [refused,Bool.false_eq_true,↓reduceIte]

theorem insertPolicies_taken (call : Call) (taken : (store.insertMember call entry count).1 = true)
    (all : ((store.insertMember call entry count).2.insertPolicies call entry count).1 = true) :
    store.insertPolicies call entry (count + 1) =
      (true,((store.insertMember call entry count).2.insertPolicies call entry count).2) := by
  rw [ContentStoreImpl.insertPolicies]
  simp only [taken,all,↓reduceIte]

theorem insertPolicies_rolledBack (call : Call) (taken : (store.insertMember call entry count).1 = true)
    (refused : ((store.insertMember call entry count).2.insertPolicies call entry count).1 = false) :
    store.insertPolicies call entry (count + 1) =
      (false,((store.insertMember call entry count).2.insertPolicies call entry count).2.eraseMember
        call.now entry count) := by
  rw [ContentStoreImpl.insertPolicies]
  simp only [taken,refused,↓reduceIte,Bool.false_eq_true]

/-- All policies take the node, or none of those asked keeps it. -/
theorem SoundBut.insertPolicies (call : Call) (count : Nat) (store : ContentStoreImpl)
    (sound : store.SoundBut entry.data.name count) (stored : store.trie.get entry.data.name = some entry) :
    (store.insertPolicies call entry count).2.trie.get entry.data.name = some entry ∧
      (store.insertPolicies call entry count).2.SoundBut entry.data.name
        (if (store.insertPolicies call entry count).1 then 0 else count) := by
  induction count generalizing store with
  | zero => exact ⟨stored,by simpa [ContentStoreImpl.insertPolicies] using sound⟩
  | succ count ih =>
    obtain ⟨kept,taken⟩ := sound.insertMember stored call
    cases first : (store.insertMember call entry count).1 with
    | false =>
      rw [insertPolicies_refused call first]
      rw [first] at taken
      exact ⟨kept,taken⟩
    | true =>
      rw [first] at taken
      obtain ⟨still,rest⟩ := ih _ taken kept
      cases all : ((store.insertMember call entry count).2.insertPolicies call entry count).1 with
      | true =>
        rw [insertPolicies_taken call first all]
        rw [all] at rest
        exact ⟨still,rest⟩
      | false =>
        rw [insertPolicies_rolledBack call first all]
        rw [all] at rest
        exact ⟨still,rest.eraseMember still call.now⟩

end

/-! What no operation changes: which policies there are. -/

def traits (store : ContentStoreImpl) : List PolicyTraits := store.policies.map MemberPolicy.traits

private theorem map_traits (policies : List MemberPolicy) (change : MemberPolicy → MemberPolicy)
    (kept : ∀ member, (change member).traits = member.traits) :
    (policies.map change).map MemberPolicy.traits = policies.map MemberPolicy.traits := by
  rw [List.map_map]
  exact List.map_congr_left fun member _ => kept member

private theorem modify_traits (policies : List MemberPolicy) (index : Nat) (change : MemberPolicy → MemberPolicy)
    (kept : ∀ member, (change member).traits = member.traits) :
    (policies.modify index change).map MemberPolicy.traits = policies.map MemberPolicy.traits := by
  apply List.ext_getElem?
  intro other
  rw [List.getElem?_map,List.getElem?_map,List.getElem?_modify,Option.map_eq_map,Option.map_map]
  congr 1
  funext member
  dsimp only [Function.comp]
  split
  · exact kept member
  · rfl

theorem erase_store_traits (now : Time) (victim : Name) (store : ContentStoreImpl) :
    (store.erase now victim).traits = store.traits := by
  unfold traits
  rw [erase_policies]
  cases store.trie.get victim with
  | none => rfl
  | some entry => exact map_traits _ _ fun member => member.erase_traits entry

private theorem makeRoom_traits (now : Time) (member : MemberPolicy) (store : ContentStoreImpl) :
    (store.makeRoom now member).traits = store.traits := by
  unfold makeRoom
  split
  · cases member.items.head? with
    | none => rfl
    | some victim => exact erase_store_traits now victim.1 store
  · rfl

private theorem insertMember_traits (call : Call) (entry : Entry) (index : Nat) (store : ContentStoreImpl) :
    (store.insertMember call entry index).2.traits = store.traits := by
  unfold insertMember
  cases store.policies[index]? with
  | none => rfl
  | some member =>
    dsimp only
    split
    · rfl
    · refine (modify_traits _ _ _ fun member => member.link_traits call entry).trans ?_
      exact makeRoom_traits call.now member store

private theorem insertPolicies_traits (call : Call) (entry : Entry) (count : Nat) (store : ContentStoreImpl) :
    (store.insertPolicies call entry count).2.traits = store.traits := by
  induction count generalizing store with
  | zero => rfl
  | succ count ih =>
    have first := insertMember_traits call entry count store
    have rest := (ih (store.insertMember call entry count).2).trans first
    cases taken : (store.insertMember call entry count).1 with
    | false =>
      rw [insertPolicies_refused call taken]
      exact first
    | true =>
      cases all : ((store.insertMember call entry count).2.insertPolicies call entry count).1 with
      | true =>
        rw [insertPolicies_taken call taken all]
        exact rest
      | false =>
        rw [insertPolicies_rolledBack call taken all]
        exact (modify_traits _ _ _ fun member => member.erase_traits entry).trans rest

/-! The operations of the store. -/

/-- The store of `Add` with the new node in its trie and not yet in the policies. -/
def entered (store : ContentStoreImpl) (layout : Trie.Layout Component Entry) (data : FreshData) :
    ContentStoreImpl :=
  { store with
    trie := (store.trie.insert layout data.name ⟨data,store.created⟩).2
    created := store.created + 1 }

section
variable {store : ContentStoreImpl} (call : Call) (layout : Trie.Layout Component Entry) (data : FreshData)

theorem add_occupied (sound : store.Sound) {old : Entry} (occupied : store.trie.get data.name = some old) :
    store.add call layout data = (false,{ store with created := store.created + 1 }) := by
  have kept := store.trie.insert_occupied layout sound.wellFormed data.name old ⟨data,store.created⟩ occupied
  unfold add
  simp only [kept,Bool.false_eq_true,↓reduceIte]

theorem entered_trie (sound : store.Sound) (free : store.trie.get data.name = none) :
    (store.trie.insert layout data.name ⟨data,store.created⟩).1 = true ∧
      (store.entered layout data).trie.get =
        Function.update store.trie.get data.name (some ⟨data,store.created⟩) :=
  Trie.get_insert_update layout store.trie sound.wellFormed data.name ⟨data,store.created⟩ free

theorem entered_sound (sound : store.Sound) (free : store.trie.get data.name = none) :
    (store.entered layout data).SoundBut data.name store.policies.length := by
  have trie := (entered_trie layout data sound free).2
  refine ⟨store.trie.insert_wellFormed layout sound.wellFormed _ _,?_,?_⟩
  · intro path entry stored
    rw [trie] at stored
    by_cases same : path = data.name
    · rw [same,Function.update_self] at stored
      rw [← Option.some.inj stored,same]
    · rw [Function.update_of_ne same] at stored
      exact sound.named path entry stored
  · intro index member found
    have early : index < store.policies.length := (List.getElem?_eq_some_iff.mp found).1
    rw [if_pos early,trie,Function.update_idem,← free,Function.update_eq_self]
    exact sound.holds member (List.mem_of_getElem? found)

def asked (store : ContentStoreImpl) (call : Call) (layout : Trie.Layout Component Entry) (data : FreshData) :
    Bool × ContentStoreImpl :=
  (store.entered layout data).insertPolicies call ⟨data,store.created⟩ store.policies.length

theorem add_accepted (sound : store.Sound) (free : store.trie.get data.name = none)
    (accepted : (store.asked call layout data).1 = true) :
    store.add call layout data = (true,{ (store.asked call layout data).2 with
      trace := (store.asked call layout data).2.trace ++ [.didAddEntry ⟨data,store.created⟩ call.now] }) := by
  have inserted := (entered_trie layout data sound free).1
  unfold asked entered at accepted
  unfold add asked entered
  simp only [inserted,accepted,↓reduceIte]

theorem add_rejected (sound : store.Sound) (free : store.trie.get data.name = none)
    (rejected : (store.asked call layout data).1 = false) :
    store.add call layout data = (false,{ (store.asked call layout data).2 with
      trie := (store.asked call layout data).2.trie.erase data.name }) := by
  have inserted := (entered_trie layout data sound free).1
  unfold asked entered at rejected
  unfold add asked entered
  simp only [inserted,rejected,↓reduceIte,Bool.false_eq_true]

theorem asked_sound (sound : store.Sound) (free : store.trie.get data.name = none) :
    (store.asked call layout data).2.trie.get data.name = some ⟨data,store.created⟩ ∧
      (store.asked call layout data).2.SoundBut data.name
        (if (store.asked call layout data).1 then 0 else store.policies.length) := by
  have stored : (store.entered layout data).trie.get data.name = some ⟨data,store.created⟩ := by
    rw [(entered_trie layout data sound free).2,Function.update_self]
  have entered : (store.entered layout data).SoundBut (⟨data,store.created⟩ : Entry).data.name
    store.policies.length := entered_sound layout data sound free
  exact SoundBut.insertPolicies call store.policies.length _ entered stored

private theorem asked_traits (store : ContentStoreImpl) : (store.asked call layout data).2.traits = store.traits :=
  insertPolicies_traits call ⟨data,store.created⟩ store.policies.length (store.entered layout data)

private theorem asked_length (store : ContentStoreImpl) :
    (store.asked call layout data).2.policies.length = store.policies.length := by
  have same := congrArg List.length (asked_traits call layout data store)
  simpa [traits] using same

theorem Sound.add (sound : store.Sound) : (store.add call layout data).2.Sound := by
  cases stored : store.trie.get data.name with
  | some old =>
    rw [add_occupied call layout data sound stored]
    exact ⟨sound.wellFormed,sound.named,sound.holds⟩
  | none =>
    obtain ⟨there,after⟩ := asked_sound call layout data sound stored
    cases answer : (store.asked call layout data).1 with
    | true =>
      rw [answer] at after
      obtain ⟨wellFormed,named,holds⟩ := (soundBut_zero data.name).mp after
      rw [add_accepted call layout data sound stored answer]
      exact ⟨wellFormed,named,holds⟩
    | false =>
      rw [answer,if_neg Bool.false_ne_true] at after
      have trie := Trie.get_erase_update _ after.wellFormed data.name
      rw [add_rejected call layout data sound stored answer]
      refine ⟨Trie.erase_wellFormed _ after.wellFormed _,?_,?_⟩
      · intro path entry found
        change ((store.asked call layout data).2.trie.erase data.name).get path = _ at found
        rw [trie] at found
        by_cases same : path = data.name
        · rw [same,Function.update_self] at found
          cases found
        · rw [Function.update_of_ne same] at found
          exact after.named path entry found
      · intro member inside
        obtain ⟨index,found⟩ := List.mem_iff_getElem?.mp inside
        have holds := after.holds index member found
        have early : index < store.policies.length := by
          rw [← asked_length call layout data store]
          exact (List.getElem?_eq_some_iff.mp found).1
        rw [if_pos early] at holds
        change member.Holds ((store.asked call layout data).2.trie.erase data.name).get
        rw [trie]
        exact holds

end

theorem add_traits (call : Call) (layout : Trie.Layout Component Entry) (data : FreshData)
    {store : ContentStoreImpl} (sound : store.Sound) : (store.add call layout data).2.traits = store.traits := by
  cases stored : store.trie.get data.name with
  | some old =>
    rw [add_occupied call layout data sound stored]
    rfl
  | none =>
    have kept := asked_traits call layout data store
    cases answer : (store.asked call layout data).1 with
    | true =>
      rw [add_accepted call layout data sound stored answer]
      exact kept
    | false =>
      rw [add_rejected call layout data sound stored answer]
      exact kept

theorem lookup_cases {store after : ContentStoreImpl} {interest : Interest} {answer : Option Entry}
    (looked : store.lookup interest = some (answer,after)) :
    after = store ∨ ∃ path, after = { store with policies := store.policies.map (MemberPolicy.lookup · path) } := by
  unfold lookup at looked
  dsimp only at looked
  split at looked
  · cases looked
    exact Or.inl rfl
  · split at looked
    · cases looked
    · cases looked
      exact Or.inl rfl
  · cases looked
    exact Or.inr ⟨_,rfl⟩

theorem Sound.lookup {store after : ContentStoreImpl} (sound : store.Sound) {interest : Interest}
    {answer : Option Entry} (looked : store.lookup interest = some (answer,after)) :
    after.Sound ∧ after.traits = store.traits := by
  rcases lookup_cases looked with rfl | ⟨path,rfl⟩
  · exact ⟨sound,rfl⟩
  · refine ⟨⟨sound.wellFormed,sound.named,?_⟩,map_traits _ _ fun member => rfl⟩
    intro member inside
    obtain ⟨before,earlier,rfl⟩ := List.mem_map.mp inside
    exact (sound.holds before earlier).lookup path

theorem Sound.setMaxSize {store : ContentStoreImpl} (sound : store.Sound) (maxSize : Nat) :
    (store.setMaxSize maxSize).Sound := by
  refine ⟨sound.wellFormed,sound.named,?_⟩
  intro member inside
  obtain ⟨before,earlier,rfl⟩ := List.mem_map.mp inside
  have holds := sound.holds before earlier
  exact ⟨holds.once,holds.exactly⟩

theorem setMaxSize_traits (store : ContentStoreImpl) (maxSize : Nat) :
    (store.setMaxSize maxSize).traits = store.traits := map_traits _ _ fun _ => rfl

private theorem cleanRounds_keeps (now : Time) {P : ContentStoreImpl → Prop}
    (kept : ∀ store name, P store → P (erase now name store)) (fuel : Nat) (store : ContentStoreImpl)
    (holds : P store) : P (store.cleanRounds now fuel) := by
  induction fuel generalizing store with
  | zero => exact holds
  | succ fuel ih =>
    unfold cleanRounds
    split
    · exact holds
    · split
      · exact ih _ (kept store _ holds)
      · exact holds

/-- Every step from a sound store leads to a sound store with the same policies. -/
theorem Sound.step {store after : ContentStoreImpl} (sound : store.Sound) (event : StoreEvent)
    (stepped : store.step event = some after) : after.Sound ∧ after.traits = store.traits := by
  cases event with
  | add call layout data =>
    cases stepped
    exact ⟨sound.add call layout data,add_traits call layout data sound⟩
  | lookup interest =>
    obtain ⟨⟨answer,looked⟩,found,rfl⟩ := Option.map_eq_some_iff.mp stepped
    exact sound.lookup found
  | setMaxSize maxSize =>
    cases stepped
    exact ⟨sound.setMaxSize maxSize,setMaxSize_traits store maxSize⟩
  | erase now name =>
    cases stepped
    exact ⟨sound.erase now name,erase_store_traits now name store⟩
  | cleanExpired now =>
    cases stepped
    refine cleanRounds_keeps now ?_ store.freshness.length store
      (P := fun after => after.Sound ∧ after.traits = store.traits) ⟨sound,rfl⟩
    rintro before name ⟨good,same⟩
    exact ⟨good.erase now name,(erase_store_traits now name before).trans same⟩

theorem new_sound (traits : List PolicyTraits) : (new traits).Sound where
  wellFormed := .node _ _ _ List.nodup_nil (fun _ member => absurd member List.not_mem_nil)
    (fun _ member => absurd member List.not_mem_nil)
  named path entry stored := by
    rw [show (new traits).trie.get path = none from Trie.get_dead _ rfl path] at stored
    cases stored
  holds member inside := by
    obtain ⟨kind,-,rfl⟩ := List.mem_map.mp inside
    refine ⟨List.nodup_nil,?_⟩
    intro name
    rw [show (new traits).trie.get name = none from Trie.get_dead _ rfl name]
    simp [MemberPolicy.new,MemberPolicy.names]

def Reachable (kind : StoreClass) (replacement : Replacement) (store : ContentStoreImpl) : Prop :=
  ∃ events, run next (some (new (kind.traits replacement))) events = some store

theorem reachable_sound {kind : StoreClass} {replacement : Replacement} {store : ContentStoreImpl}
    (reachable : Reachable kind replacement store) :
    store.Sound ∧ store.traits = kind.traits replacement := by
  obtain ⟨events,reached⟩ := reachable
  refine attempt_invariant (P := fun store => store.Sound ∧ store.traits = kind.traits replacement) ?_ ?_ reached
  · rintro before event after ⟨sound,same⟩ stepped
    obtain ⟨good,kept⟩ := sound.step event stepped
    exact ⟨good,kept.trans same⟩
  · refine ⟨new_sound _,?_⟩
    change ((kind.traits replacement).map MemberPolicy.new).map MemberPolicy.traits = _
    rw [List.map_map]
    exact List.map_id _

/-- The first policy controls every node, so that its container has as many nodes as
there is stored Data. -/
theorem getSize_eq_card {store : ContentStoreImpl} (sound : store.Sound) {first : PolicyTraits}
    {rest : List PolicyTraits} (traits : store.traits = first :: rest)
    (all : ∀ entry, first.controls entry = true) :
    store.getSize = {name | store.trie.get name ≠ none}.ncard := by
  obtain ⟨member,others,policies,rfl,-⟩ := List.map_eq_cons_iff.mp traits
  have holds := sound.holds member (by rw [policies]; exact List.mem_cons_self)
  have stored : {name | store.trie.get name ≠ none} = ((member.names.toFinset : Finset Name) : Set Name) := by
    ext name
    rw [Set.mem_ofPred_eq,Finset.mem_coe,List.mem_toFinset,holds.exactly,Option.ne_none_iff_exists']
    simp [all]
  rw [stored,Set.ncard_coe_finset,List.toFinset_card_of_nodup holds.once,getSize,policies]
  simp [MemberPolicy.names]

/-- In every store that a run reaches, of whatever class and replacement policy, each
member policy holds exactly the nodes with a payload that it controls, each once,
and `GetSize` is their number. -/
theorem policies_hold_stored (kind : StoreClass) (replacement : Replacement) (store : ContentStoreImpl)
    (reachable : Reachable kind replacement store) :
    store.traits = kind.traits replacement ∧ (∀ member ∈ store.policies, member.Holds store.trie.get) ∧
      store.getSize = {name | store.trie.get name ≠ none}.ncard := by
  obtain ⟨sound,traits⟩ := reachable_sound reachable
  refine ⟨traits,sound.holds,?_⟩
  cases kind with
  | impl => exact getSize_eq_card sound traits (by cases replacement <;> exact fun _ => rfl)
  | stats => exact getSize_eq_card sound traits (by cases replacement <;> exact fun _ => rfl)
  | freshness => exact getSize_eq_card sound traits (by cases replacement <;> exact fun _ => rfl)
  | probability => exact getSize_eq_card sound traits (fun _ => rfl)

def letter (byte : UInt8) (freshnessPeriod : Int) : FreshData := ⟨⟨[[byte]],[]⟩,freshnessPeriod⟩

/-- Children are kept in the order in which they were added last. -/
def inOrder : Trie.Layout Component Entry := ⟨id,fun _ => List.Perm.refl _⟩

def evictedAndExpired : List StoreEvent :=
  [.setMaxSize 1,.add ⟨0,0,true⟩ inOrder (letter 97 0),.add ⟨0,0,true⟩ inOrder (letter 98 5),
    .cleanExpired (milliSeconds 5)]

def emptied : ContentStoreImpl :=
  (run next (some (new (StoreClass.freshness.traits .lru))) evictedAndExpired).getD (new [])

theorem policies_hold_stored_emptied :
    Reachable .freshness .lru emptied ∧ emptied.traits = StoreClass.freshness.traits .lru ∧
      (∀ member ∈ emptied.policies, member.Holds emptied.trie.get) ∧
      emptied.getSize = {name | emptied.trie.get name ≠ none}.ncard :=
  have reached : Reachable .freshness .lru emptied := ⟨evictedAndExpired,rfl⟩
  ⟨reached,policies_hold_stored .freshness .lru emptied reached⟩

end ContentStoreImpl

end Ncfcc.Cs
