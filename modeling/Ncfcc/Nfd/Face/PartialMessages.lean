import Ncfcc.Library.Run
import Ncfcc.Library.Scheduler
import Ncfcc.Nfd.Face.PacketGrammar
import Ncfcc.Nfd.Face.Reassembly

/-! The store of partial messages with its timers, against the packets that arrived for each
identifier. The packets may be of any senders: they need not fit together. -/
namespace Ncfcc.Nfd.Face
open Ncfcc.Library Ncfcc.Encoding

/-- A store with the events that its partial messages hold. -/
structure TimedStore where
  idleDuration : Int
  partialMessages : PartialMessageStore
  expiry : UInt64 → Option Nat
  scheduler : Scheduler UInt64

namespace TimedStore

def new (now : Int) (nextId : Nat) (idleDuration : Int) : TimedStore :=
  ⟨idleDuration,.new,fun _ => none,.initial now nextId⟩

/-- The event that was assigned before is cancelled. -/
def scheduleCleanup (messageIdentifier : UInt64) (timed : TimedStore) : TimedStore :=
  { timed with
    expiry := Function.update timed.expiry messageIdentifier (some timed.scheduler.nextId)
    scheduler := (timed.scheduler.schedule timed.idleDuration messageIdentifier).cancel (timed.expiry messageIdentifier) }

def erase (messageIdentifier : UInt64) (timed : TimedStore) : TimedStore :=
  { timed with
    partialMessages := Function.update timed.partialMessages messageIdentifier none
    expiry := Function.update timed.expiry messageIdentifier none
    scheduler := timed.scheduler.cancel (timed.expiry messageIdentifier) }

/-- The partial message of an identifier, which is created where there is none. -/
def message (timed : TimedStore) (messageIdentifier : UInt64) : PartialMessage :=
  (timed.partialMessages messageIdentifier).getD .new

def receive (pkt : NdnlpData) (timed : TimedStore) : Option Block × TimedStore :=
  if pkt.fragCount = 1 then (PartialMessage.reassembleSingle pkt,timed)
  else
    let messageIdentifier := pkt.seq - UInt64.ofNat pkt.fragIndex
    let timed := timed.scheduleCleanup messageIdentifier
    let message := (timed.message messageIdentifier).add pkt.fragIndex pkt.fragCount pkt.payload
    let timed := { timed with
      partialMessages := Function.update timed.partialMessages messageIdentifier (some message) }
    if message.isComplete then (message.reassemble,timed.erase messageIdentifier) else (none,timed)

def cleanup (messageIdentifier : UInt64) (timed : TimedStore) : TimedStore := timed.erase messageIdentifier

inductive Event where
  | receive (packet : Block)
  | fire
  | advance (time : Int)

/-- Packets that are not accepted are dropped. -/
def step (timed : TimedStore) : Event → TimedStore
  | .receive packet =>
    match NdnlpData.fromBlock packet with
    | .ok (some pkt) => (timed.receive pkt).2
    | _ => timed
  | .fire =>
    match timed.scheduler.next with
    | some event => { timed with scheduler := timed.scheduler.fire event }.cleanup event.callback
    | none => timed
  | .advance time => { timed with scheduler := timed.scheduler.advance time }

/-- The timers leave the partial messages as the store alone has them. -/
theorem receive_partialMessages (pkt : NdnlpData) (timed : TimedStore) :
    ((timed.receive pkt).1,(timed.receive pkt).2.partialMessages) = timed.partialMessages.receive pkt := by
  unfold receive PartialMessageStore.receive message scheduleCleanup
  split
  · rfl
  · dsimp only
    split
    · rw [erase,Function.update_idem]
    · rfl

end TimedStore

/-! What arrived. -/

namespace Arrivals

def count (arrived : List NdnlpData) : Nat := (arrived.head?.map NdnlpData.fragCount).getD 0

def Fills (fragCount fragIndex : Nat) (pkt : NdnlpData) : Prop :=
  pkt.fragCount = fragCount ∧ pkt.fragIndex = fragIndex

instance (fragCount fragIndex : Nat) (pkt : NdnlpData) : Decidable (Fills fragCount fragIndex pkt) :=
  inferInstanceAs (Decidable (_ ∧ _))

/-- For each fragment the payload of the first packet that counts for it. -/
def slots (fragCount : Nat) (arrived : List NdnlpData) : List (Option Block) :=
  (List.range fragCount).map fun fragIndex =>
    (arrived.find? fun pkt => Fills fragCount fragIndex pkt).map NdnlpData.payload

def Whole (arrived : List NdnlpData) : Prop :=
  ∀ fragIndex < count arrived, ∃ pkt ∈ arrived, Fills (count arrived) fragIndex pkt

instance (arrived : List NdnlpData) : Decidable (Whole arrived) :=
  inferInstanceAs (Decidable (∀ fragIndex < count arrived, ∃ pkt ∈ arrived, Fills (count arrived) fragIndex pkt))

section
variable {arrived : List NdnlpData} {pkt : NdnlpData} {fragCount fragIndex : Nat}

theorem slots_length (fragCount : Nat) (arrived : List NdnlpData) : (slots fragCount arrived).length = fragCount := by
  simp [slots]

theorem slots_getElem? (inside : fragIndex < fragCount) : (slots fragCount arrived)[fragIndex]? =
    some ((arrived.find? fun pkt => Fills fragCount fragIndex pkt).map NdnlpData.payload) := by
  unfold slots
  rw [List.getElem?_map,List.getElem?_range inside]
  rfl

private theorem slots_nil (fragCount : Nat) : slots fragCount [] = List.replicate fragCount none := by
  rw [List.eq_replicate_iff]
  refine ⟨slots_length fragCount [],?_⟩
  intro slot inside
  obtain ⟨fragIndex,-,rfl⟩ := List.mem_map.mp inside
  rfl

private theorem slots_append_of_not (other : ¬Fills fragCount fragIndex pkt) :
    (slots fragCount (arrived ++ [pkt]))[fragIndex]? = (slots fragCount arrived)[fragIndex]? := by
  by_cases inside : fragIndex < fragCount
  · rw [slots_getElem? inside,slots_getElem? inside,List.find?_append,List.find?_singleton,
      if_neg (by simpa using other),Option.or_none]
  · have beyond : ∀ arrived, (slots fragCount arrived).length ≤ fragIndex := by
      intro arrived
      rw [slots_length]
      exact not_lt.mp inside
    rw [List.getElem?_eq_none (beyond _),List.getElem?_eq_none (beyond _)]

/-- A later packet counts only for a fragment that is missing, and only with the same count. -/
theorem slots_append (inside : pkt.fragIndex < fragCount) : slots fragCount (arrived ++ [pkt]) =
    if pkt.fragCount = fragCount then
      if (slots fragCount arrived)[pkt.fragIndex]?.join.isSome then slots fragCount arrived
      else (slots fragCount arrived).set pkt.fragIndex (some pkt.payload)
    else slots fragCount arrived := by
  apply List.ext_getElem?
  intro fragIndex
  by_cases fills : Fills fragCount fragIndex pkt
  · obtain ⟨same,rfl⟩ := fills
    rw [if_pos same,slots_getElem? inside,slots_getElem? inside,Option.join_some,Option.isSome_map,List.find?_append,
      List.find?_singleton,if_pos (decide_eq_true ⟨same,rfl⟩)]
    cases found : arrived.find? fun other => Fills fragCount pkt.fragIndex other with
    | none =>
      rw [Option.isSome_none,if_neg Bool.false_ne_true,List.getElem?_set_self (by rw [slots_length]; exact inside)]
      rfl
    | some first =>
      rw [Option.isSome_some,if_pos rfl,slots_getElem? inside,found]
      rfl
  · rw [slots_append_of_not fills]
    split
    · rename_i same
      split
      · rfl
      · rw [List.getElem?_set_ne fun here => fills ⟨same,here⟩]
    · rfl

def message (arrived : List NdnlpData) : PartialMessage := .gathered (slots (count arrived) arrived)

def stored : List NdnlpData → Option PartialMessage
  | [] => none
  | first :: others => some (message (first :: others))

private theorem stored_of_ne (several : arrived ≠ []) : stored arrived = some (message arrived) := by
  cases arrived with
  | nil => exact absurd rfl several
  | cons first others => rfl

private theorem count_append (several : arrived ≠ []) : count (arrived ++ [pkt]) = count arrived := by
  cases arrived with
  | nil => exact absurd rfl several
  | cons first others => rfl

private theorem add_slots (inside : pkt.fragIndex < pkt.fragCount) :
    (PartialMessage.gathered (slots pkt.fragCount arrived)).add pkt.fragIndex pkt.fragCount pkt.payload =
      .gathered (slots pkt.fragCount (arrived ++ [pkt])) := by
  have added := PartialMessage.add_gathered (inside.trans_eq (slots_length pkt.fragCount arrived).symm) pkt.payload
  rw [slots_length] at added
  rw [added,slots_append inside,if_pos rfl]

/-- The first packet opens the partial message, whatever packets come later are added to it. -/
theorem new_add (inside : pkt.fragIndex < pkt.fragCount) :
    PartialMessage.new.add pkt.fragIndex pkt.fragCount pkt.payload = message [pkt] := by
  have added : (PartialMessage.gathered (slots pkt.fragCount [])).add pkt.fragIndex pkt.fragCount pkt.payload =
      .gathered (slots pkt.fragCount ([] ++ [pkt])) := add_slots inside
  rw [slots_nil] at added
  rw [PartialMessage.add_new,added]
  rfl

/-- A packet is there for some fragment of a message that was begun. -/
theorem received_pos (several : arrived ≠ []) (fits : ∀ pkt ∈ arrived, pkt.fragIndex < pkt.fragCount) :
    (message arrived).received ≠ 0 := by
  cases arrived with
  | nil => exact absurd rfl several
  | cons first others =>
    have inside : first.fragIndex < count (first :: others) := fits first List.mem_cons_self
    have filled : some first.payload ∈ slots (count (first :: others)) (first :: others) := by
      apply List.mem_of_getElem? (i := first.fragIndex)
      have fills : decide (Fills (count (first :: others)) first.fragIndex first) = true := decide_eq_true ⟨rfl,rfl⟩
      rw [slots_getElem? inside,List.find?_cons,fills]
      rfl
    exact Nat.ne_of_gt (List.countP_pos_iff.mpr ⟨_,filled,rfl⟩)

private theorem message_add (several : arrived ≠ []) (fits : ∀ pkt ∈ arrived, pkt.fragIndex < pkt.fragCount)
    (inside : pkt.fragIndex < pkt.fragCount) :
    (message arrived).add pkt.fragIndex pkt.fragCount pkt.payload = message (arrived ++ [pkt]) := by
  by_cases same : pkt.fragCount = count arrived
  · unfold message
    rw [count_append several,← same]
    exact add_slots inside
  · have opened := received_pos several fits
    have counts : (message arrived).fragCount ≠ pkt.fragCount := by
      rw [message,PartialMessage.gathered,slots_length]
      exact Ne.symm same
    have kept : slots (count arrived) (arrived ++ [pkt]) = slots (count arrived) arrived := by
      apply List.ext_getElem?
      intro fragIndex
      exact slots_append_of_not fun fills => same fills.1
    unfold PartialMessage.add
    rw [if_neg opened]
    dsimp only
    rw [if_pos (Or.inl counts),message,message,count_append several,kept]

private theorem isComplete_message : (message arrived).isComplete = true ↔ Whole arrived := by
  rw [message,PartialMessage.isComplete_gathered]
  constructor
  · intro filled fragIndex inside
    have held := filled _ (List.mem_of_getElem? (slots_getElem? inside))
    rw [Option.isSome_map] at held
    obtain ⟨pkt,found⟩ := Option.isSome_iff_exists.mp held
    have fills := List.find?_some found
    exact ⟨pkt,List.mem_of_find?_eq_some found,of_decide_eq_true fills⟩
  · intro whole slot inside
    obtain ⟨fragIndex,within,rfl⟩ := List.mem_map.mp inside
    obtain ⟨pkt,member,fills⟩ := whole fragIndex (List.mem_range.mp within)
    rw [Option.isSome_map,List.find?_isSome]
    exact ⟨pkt,member,decide_eq_true fills⟩

end

end Arrivals

/-- The packets that arrived for each identifier since its last message was reassembled or cleaned up. -/
abbrev Arrivals := UInt64 → List NdnlpData

namespace TimedStore

def record (timed : TimedStore) (arrivals : Arrivals) : Event → Arrivals
  | .receive packet =>
    match NdnlpData.fromBlock packet with
    | .ok (some pkt) =>
      if pkt.fragCount = 1 then arrivals
      else
        let messageIdentifier := pkt.seq - UInt64.ofNat pkt.fragIndex
        let arrived := arrivals messageIdentifier ++ [pkt]
        Function.update arrivals messageIdentifier (if Arrivals.Whole arrived then [] else arrived)
    | _ => arrivals
  | .fire =>
    match timed.scheduler.next with
    | some event => Function.update arrivals event.callback []
    | none => arrivals
  | .advance _ => arrivals

def stepRecorded (state : TimedStore × Arrivals) (event : Event) : TimedStore × Arrivals :=
  (state.1.step event,state.1.record state.2 event)

/-- The books of a partial message: its slots, how many are filled and with how many octets. -/
structure Exact (message : PartialMessage) : Prop where
  slots : message.payloads.length = message.fragCount
  received : message.received = message.payloads.countP Option.isSome
  totalLength : message.totalLength =
    (message.payloads.map fun slot => (slot.map fun payload => payload.value.length).getD 0).sum

structure Adds (timed : TimedStore) (arrived : List NdnlpData) (pkt : NdnlpData) (message : PartialMessage) : Prop where
  exact : Exact message
  /-- A slot that is filled keeps its payload. -/
  kept : ∀ before, timed.partialMessages (pkt.seq - UInt64.ofNat pkt.fragIndex) = some before →
    ∀ (fragIndex : Nat) (payload : Block), before.payloads[fragIndex]? = some (some payload) →
      message.payloads[fragIndex]? = some (some payload)
  /-- It is reassembled when packets with one count have arrived for all fragments, and of these. -/
  whole : message.isComplete = true ↔ Arrivals.Whole arrived
  slots : message.payloads = Arrivals.slots (Arrivals.count arrived) arrived
  /-- The copied payloads end where the buffer ends. -/
  fits : (message.payloads.flatMap fun payload => (payload.map Block.value).getD []).length = message.totalLength
  result : (timed.receive pkt).1 = if message.isComplete then message.reassemble else none
  left : (timed.receive pkt).2.partialMessages (pkt.seq - UInt64.ofNat pkt.fragIndex) =
    if message.isComplete then none else some message
  others : ∀ messageIdentifier, messageIdentifier ≠ pkt.seq - UInt64.ofNat pkt.fragIndex →
    (timed.receive pkt).2.partialMessages messageIdentifier = timed.partialMessages messageIdentifier

/-- The store keeps exact partial messages of the packets that arrived, and adds whatever packet is accepted. -/
structure Sound (state : TimedStore × Arrivals) : Prop where
  absent : ∀ messageIdentifier, state.1.partialMessages messageIdentifier = none ↔ state.2 messageIdentifier = []
  exact : ∀ messageIdentifier message, state.1.partialMessages messageIdentifier = some message →
    Exact message ∧ message.payloads =
      Arrivals.slots (Arrivals.count (state.2 messageIdentifier)) (state.2 messageIdentifier)
  adds : ∀ packet pkt, NdnlpData.fromBlock packet = .ok (some pkt) → pkt.fragCount ≠ 1 →
    Adds state.1 (state.2 (pkt.seq - UInt64.ofNat pkt.fragIndex) ++ [pkt]) pkt
      ((state.1.message (pkt.seq - UInt64.ofNat pkt.fragIndex)).add pkt.fragIndex pkt.fragCount pkt.payload)

structure Keeps (state : TimedStore × Arrivals) : Prop where
  fits : ∀ messageIdentifier, ∀ pkt ∈ state.2 messageIdentifier, pkt.fragIndex < pkt.fragCount
  kept : ∀ messageIdentifier, state.1.partialMessages messageIdentifier = Arrivals.stored (state.2 messageIdentifier)

private theorem exact_gathered (payloads : List (Option Block)) : Exact (.gathered payloads) := by
  refine ⟨rfl,rfl,?_⟩
  rw [PartialMessage.gathered,List.length_flatMap]
  dsimp only
  congr 1
  apply List.map_congr_left
  intro slot _
  cases slot <;> rfl

private theorem accepted_inside {packet : Block} {pkt : NdnlpData} (accepted : NdnlpData.fromBlock packet = .ok (some pkt)) :
    pkt.fragIndex < pkt.fragCount := by
  cases fromBlock_eq_some.mp accepted with
  | single => exact Nat.one_pos
  | fragment _ _ _ _ _ _ _ _ _ _ _ _ _ _ inside => exact inside

section
variable {state : TimedStore × Arrivals} {pkt : NdnlpData}

theorem Keeps.add (keeps : Keeps state) (inside : pkt.fragIndex < pkt.fragCount) (messageIdentifier : UInt64) :
    (state.1.message messageIdentifier).add pkt.fragIndex pkt.fragCount pkt.payload =
      Arrivals.message (state.2 messageIdentifier ++ [pkt]) := by
  unfold message
  rw [keeps.kept]
  by_cases first : state.2 messageIdentifier = []
  · rw [first]
    exact Arrivals.new_add inside
  · rw [Arrivals.stored_of_ne first]
    exact Arrivals.message_add first (keeps.fits messageIdentifier) inside

/-- Filled slots stay when packets are added. -/
theorem message_kept {arrived : List NdnlpData} (several : arrived ≠ []) {fragIndex : Nat} {payload : Block}
    (held : (Arrivals.message arrived).payloads[fragIndex]? = some (some payload)) :
    (Arrivals.message (arrived ++ [pkt])).payloads[fragIndex]? = some (some payload) := by
  have inside : fragIndex < Arrivals.count arrived := by
    have bound := (List.getElem?_eq_some_iff.mp held).1
    rwa [Arrivals.message,PartialMessage.gathered,Arrivals.slots_length] at bound
  rw [Arrivals.message,PartialMessage.gathered,Arrivals.slots_getElem? inside] at held
  obtain ⟨first,found,same⟩ := Option.map_eq_some_iff.mp (Option.some.inj held)
  rw [Arrivals.message,PartialMessage.gathered,Arrivals.count_append several,Arrivals.slots_getElem? inside,
    List.find?_append,found,Option.some_or,Option.map_some,same]

private theorem receive_several (timed : TimedStore) (several : pkt.fragCount ≠ 1) {message : PartialMessage}
    (added : (timed.message (pkt.seq - UInt64.ofNat pkt.fragIndex)).add pkt.fragIndex pkt.fragCount pkt.payload = message) :
    ((timed.receive pkt).1,(timed.receive pkt).2.partialMessages) =
      (if message.isComplete then message.reassemble else none,
        Function.update timed.partialMessages (pkt.seq - UInt64.ofNat pkt.fragIndex)
          (if message.isComplete then none else some message)) := by
  have unfolded : ((timed.partialMessages (pkt.seq - UInt64.ofNat pkt.fragIndex)).getD .new).add pkt.fragIndex
      pkt.fragCount pkt.payload = message := added
  rw [receive_partialMessages]
  unfold PartialMessageStore.receive
  rw [if_neg several]
  dsimp only
  rw [unfolded]
  split <;> rfl

theorem Keeps.adds (keeps : Keeps state) (inside : pkt.fragIndex < pkt.fragCount) (several : pkt.fragCount ≠ 1) :
    Adds state.1 (state.2 (pkt.seq - UInt64.ofNat pkt.fragIndex) ++ [pkt]) pkt
      ((state.1.message (pkt.seq - UInt64.ofNat pkt.fragIndex)).add pkt.fragIndex pkt.fragCount pkt.payload) := by
  obtain ⟨result,stores⟩ := Prod.mk.inj (receive_several state.1 several (keeps.add inside _))
  rw [keeps.add inside]
  refine ⟨exact_gathered _,?_,Arrivals.isComplete_message,rfl,rfl,result,?_,?_⟩
  · intro before stored fragIndex payload held
    rw [keeps.kept] at stored
    have several : state.2 (pkt.seq - UInt64.ofNat pkt.fragIndex) ≠ [] := by
      intro none
      rw [none] at stored
      cases stored
    rw [Arrivals.stored_of_ne several] at stored
    cases stored
    exact message_kept several held
  · rw [stores,Function.update_self]
  · intro messageIdentifier other
    rw [stores,Function.update_of_ne other]

theorem Keeps.sound (keeps : Keeps state) : Sound state := by
  refine ⟨?_,?_,?_⟩
  · intro messageIdentifier
    rw [keeps.kept]
    cases state.2 messageIdentifier with
    | nil => exact iff_of_true rfl rfl
    | cons first others => exact iff_of_false nofun (List.cons_ne_nil _ _)
  · intro messageIdentifier message stored
    rw [keeps.kept] at stored
    cases arrived : state.2 messageIdentifier with
    | nil =>
      rw [arrived] at stored
      cases stored
    | cons first others =>
      rw [arrived] at stored
      cases stored
      exact ⟨exact_gathered _,rfl⟩
  · intro packet pkt accepted several
    exact keeps.adds (accepted_inside accepted) several

/-! The steps. -/

/-- Whatever is erased has no packets any more. -/
theorem Keeps.erase {timed : TimedStore} {arrivals : Arrivals} (keeps : Keeps (timed,arrivals)) {next : TimedStore}
    (messageIdentifier : UInt64)
    (erased : next.partialMessages = Function.update timed.partialMessages messageIdentifier none) :
    Keeps (next,Function.update arrivals messageIdentifier []) := by
  constructor
  · intro other pkt
    dsimp only
    by_cases here : other = messageIdentifier
    · rw [here,Function.update_self]
      exact fun member => absurd member List.not_mem_nil
    · rw [Function.update_of_ne here]
      exact keeps.fits other pkt
  · intro other
    dsimp only
    rw [erased]
    by_cases here : other = messageIdentifier
    · rw [here,Function.update_self,Function.update_self]
      rfl
    · rw [Function.update_of_ne here,Function.update_of_ne here]
      exact keeps.kept other

theorem Keeps.receive {timed : TimedStore} {arrivals : Arrivals} (keeps : Keeps (timed,arrivals))
    (inside : pkt.fragIndex < pkt.fragCount) (several : pkt.fragCount ≠ 1) :
    Keeps ((timed.receive pkt).2,Function.update arrivals (pkt.seq - UInt64.ofNat pkt.fragIndex)
      (if Arrivals.Whole (arrivals (pkt.seq - UInt64.ofNat pkt.fragIndex) ++ [pkt]) then []
        else arrivals (pkt.seq - UInt64.ofNat pkt.fragIndex) ++ [pkt])) := by
  have stores := (Prod.mk.inj (receive_several timed several (keeps.add inside _))).2
  dsimp only at stores
  by_cases whole : Arrivals.Whole (arrivals (pkt.seq - UInt64.ofNat pkt.fragIndex) ++ [pkt])
  · rw [if_pos whole]
    rw [if_pos (Arrivals.isComplete_message.mpr whole)] at stores
    exact keeps.erase _ stores
  · rw [if_neg whole]
    rw [if_neg (fun complete => whole (Arrivals.isComplete_message.mp complete))] at stores
    constructor
    · intro other
      dsimp only
      by_cases here : other = pkt.seq - UInt64.ofNat pkt.fragIndex
      · rw [here,Function.update_self]
        intro member inList
        rcases List.mem_append.mp inList with old | new
        · exact keeps.fits _ member old
        · rw [List.mem_singleton.mp new]
          exact inside
      · rw [Function.update_of_ne here]
        exact keeps.fits other
    · intro other
      dsimp only
      rw [stores]
      by_cases here : other = pkt.seq - UInt64.ofNat pkt.fragIndex
      · rw [here,Function.update_self,Function.update_self,
          Arrivals.stored_of_ne (List.append_ne_nil_of_right_ne_nil _ (List.cons_ne_nil _ _))]
      · rw [Function.update_of_ne here,Function.update_of_ne here]
        exact keeps.kept other

theorem Keeps.step (keeps : Keeps state) (event : Event) : Keeps (stepRecorded state event) := by
  obtain ⟨timed,arrivals⟩ := state
  unfold stepRecorded
  cases event with
  | receive packet =>
    unfold TimedStore.step record
    dsimp only
    split
    · rename_i pkt accepted
      split
      · rename_i single
        have same : (timed.receive pkt).2 = timed := by
          rw [TimedStore.receive,if_pos single]
        rw [same]
        exact keeps
      · rename_i several
        exact keeps.receive (accepted_inside accepted) several
    · exact keeps
  | fire =>
    unfold TimedStore.step record
    dsimp only
    split
    · rename_i event next
      exact keeps.erase event.callback rfl
    · exact keeps
  | advance time => exact ⟨keeps.fits,keeps.kept⟩

end

/-- In every run of packets, timeouts and waits the store keeps, for each identifier, the exact partial
message of the packets that arrived, and adds any packet as it should. -/
theorem partialMessages_sound (now : Int) (nextId : Nat) (idleDuration : Int) (events : List Event) :
    Along stepRecorded Sound (new now nextId idleDuration,fun _ => []) events := by
  have keeps : Along stepRecorded Keeps (new now nextId idleDuration,fun _ => []) events := by
    refine along_of_steps (Q := fun _ _ => True) (fun state event keeps _ => keeps.step event) ⟨?_,fun _ => rfl⟩
      fun _ _ _ => trivial
    exact fun _ pkt member => absurd member List.not_mem_nil
  intro before inside
  exact (keeps before inside).sound

end TimedStore

end Ncfcc.Nfd.Face
