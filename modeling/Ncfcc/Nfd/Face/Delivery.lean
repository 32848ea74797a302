import Ncfcc.Nfd.Face.Reassembly

/-! The link from end to end: what the slicer cuts up is delivered by the store of the
receiver. -/
namespace Ncfcc.Nfd.Face
open Ncfcc.Library Ncfcc.Encoding Gathering

def packetCount (sliced : List (List Block)) (message : Nat) : Nat := (sliced[message]?.map List.length).getD 0

def packetsAt (sliced : List (List Block)) (places : List (Nat × Nat)) : List Block :=
  places.filterMap fun place => sliced[place.1]?.bind fun packets => packets[place.2]?

/-- Packets within the MTU, and every message delivered once. -/
def Delivers (mtu : Nat) (messages : List Block) (sliced : List (List Block)) (places : List (Nat × Nat)) : Prop :=
  (∀ packets ∈ sliced, ∀ packet ∈ packets, packet.wire.length ≤ mtu) ∧
    ∃ delivered store, PartialMessageStore.new.acceptAll (packetsAt sliced places) = .ok (delivered,store) ∧
      delivered.Perm messages

section
variable {mtu : Nat} {messages : List Block} {sliced : List (List Block)} {message index : Nat} {block : Block}

private theorem sliced_eq (fits : ∀ block ∈ messages, (Slicer.new mtu).fragments block.wire.length < 2^16)
    (cut : (Slicer.new mtu).sliceAll messages = some sliced) (here : messages[message]? = some block) :
    sliced[message]? = some ((List.range ((Slicer.new mtu).fragments block.wire.length)).map fun fragIndex =>
      encodeFragment (UInt64.ofNat (firstNumber sliced message) + UInt64.ofNat fragIndex) fragIndex
        ((Slicer.new mtu).fragments block.wire.length) ((Slicer.new mtu).payload block.wire fragIndex)) := by
  have next : (Slicer.new mtu).next = 0 := rfl
  rw [Slicer.sliceAll_getElem? cut message,here,next,UInt64.zero_add,Option.map_some,Slicer.packets,
    Nat.mod_eq_of_lt (fits block (List.mem_of_getElem? here))]

private theorem packetCount_eq (fits : ∀ block ∈ messages, (Slicer.new mtu).fragments block.wire.length < 2^16)
    (cut : (Slicer.new mtu).sliceAll messages = some sliced) (here : messages[message]? = some block) :
    packetCount sliced message = (Slicer.new mtu).fragments block.wire.length := by
  unfold packetCount
  rw [sliced_eq fits cut here,Option.map_some,Option.getD_some,List.length_map,List.length_range]

private theorem sent_of_packetCount (cut : (Slicer.new mtu).sliceAll messages = some sliced)
    (some : 0 < packetCount sliced message) : ∃ block, messages[message]? = .some block := by
  unfold packetCount at some
  rw [Slicer.sliceAll_getElem? cut message] at some
  cases here : messages[message]? with
  | none =>
    rw [here] at some
    exact absurd some (Nat.lt_irrefl 0)
  | some block => exact ⟨block,rfl⟩

private theorem room_of_sent (cut : (Slicer.new mtu).sliceAll messages = some sliced)
    (here : messages[message]? = some block) : mtu ≤ Slicer.maxBufferSize := by
  cases messages with
  | nil => cases here
  | cons first rest => exact Slicer.room_of_sliceAll cut

private theorem payload_length_le (octets : List UInt8) (slicer : Slicer) (fragIndex : Nat) :
    (slicer.payload octets fragIndex).length ≤ slicer.maxPayload := by
  rw [Slicer.payload_eq]
  exact List.length_take_le _ _

private theorem packet_length_le (exceeds : Slicer.overhead mtu < mtu)
    (fits : ∀ block ∈ messages, (Slicer.new mtu).fragments block.wire.length < 2^16)
    (cut : (Slicer.new mtu).sliceAll messages = some sliced) :
    ∀ packets ∈ sliced, ∀ packet ∈ packets, packet.wire.length ≤ mtu := by
  intro packets member packet inside
  obtain ⟨message,at_message⟩ := List.mem_iff_getElem?.mp member
  have some : 0 < packetCount sliced message := by
    unfold packetCount
    rw [at_message,Option.map_some,Option.getD_some]
    exact List.length_pos_of_mem inside
  obtain ⟨block,here⟩ := sent_of_packetCount cut some
  have room := room_of_sent cut here
  have few := fits block (List.mem_of_getElem? here)
  rw [sliced_eq fits cut here] at at_message
  cases at_message
  obtain ⟨fragIndex,range,rfl⟩ := List.mem_map.mp inside
  have less := List.mem_range.mp range
  have largest := Slicer.maxPayload_new room exceeds
  have payload := payload_length_le block.wire (Slicer.new mtu) fragIndex
  have size : Slicer.maxBufferSize = 2^63 - 1 := rfl
  rw [encodeFragment_length]
  exact enclosed_bodySize_le (by omega) (by omega) (by omega) few

def transferOf (exceeds : Slicer.overhead mtu < mtu) (wired : ∀ block ∈ messages, block.HasWire)
    (fits : ∀ block ∈ messages, (Slicer.new mtu).fragments block.wire.length < 2^16)
    (cut : (Slicer.new mtu).sliceAll messages = some sliced) : Transfer Nat where
  counts := packetCount sliced
  first message := UInt64.ofNat (firstNumber sliced message)
  payload message index := .make 84 ((Slicer.new mtu).payload (messages[message]?.getD (.make 0 [])).wire index)
  packet place := (sliced[place.1]?.bind fun packets => packets[place.2]?).getD (.make 0 [])
  block message := messages[message]?.getD (.make 0 [])
  parsed := by
    rintro ⟨message,index⟩ inside
    dsimp only at inside
    obtain ⟨block,here⟩ := sent_of_packetCount cut (Nat.zero_lt_of_lt inside)
    have room := room_of_sent cut here
    have largest := Slicer.maxPayload_new room exceeds
    have payload := payload_length_le block.wire (Slicer.new mtu) index
    have size : Slicer.maxBufferSize = 2^63 - 1 := rfl
    have count := packetCount_eq fits cut here
    rw [count] at inside
    dsimp only
    rw [sliced_eq fits cut here,Option.bind_some,List.getElem?_map,List.getElem?_range inside,Option.map_some,
      Option.getD_some,here,Option.getD_some,count]
    exact fromBlock_encodeFragment _ inside (fits block (List.mem_of_getElem? here)) (by omega)
  whole := by
    intro message some
    obtain ⟨block,here⟩ := sent_of_packetCount cut some
    have largest := Slicer.maxPayload_new (room_of_sent cut here) exceeds
    rw [here,packetCount_eq fits cut here]
    change Block.ofOctets ((List.range _).flatMap ((Slicer.new mtu).payload block.wire)) = _
    rw [Slicer.flatMap_payload (by omega)]
    exact wired block (List.mem_of_getElem? here)

private theorem packetsAt_eq_map {places : List (Nat × Nat)} (inside : ∀ place ∈ places, place.2 < packetCount sliced place.1) :
    packetsAt sliced places =
      places.map fun place => (sliced[place.1]?.bind fun packets => packets[place.2]?).getD (.make 0 []) := by
  unfold packetsAt
  rw [← List.filterMap_eq_map]
  refine List.filterMap_congr fun place member => ?_
  have within := inside place member
  unfold packetCount at within
  cases here : sliced[place.1]? with
  | none =>
    rw [here] at within
    exact absurd within (Nat.not_lt_zero _)
  | some packets =>
    rw [here,Option.map_some,Option.getD_some] at within
    rw [Function.comp_apply,here,Option.bind_some,List.getElem?_eq_getElem within,Option.getD_some]

private theorem packetCount_pos (exceeds : Slicer.overhead mtu < mtu) (wired : ∀ block ∈ messages, block.HasWire)
    (fits : ∀ block ∈ messages, (Slicer.new mtu).fragments block.wire.length < 2^16)
    (cut : (Slicer.new mtu).sliceAll messages = some sliced) :
    0 < packetCount sliced message ↔ message < messages.length := by
  constructor
  · intro some
    obtain ⟨block,here⟩ := sent_of_packetCount cut some
    exact (List.getElem?_eq_some_iff.mp here).1
  · intro inside
    have here := List.getElem?_eq_getElem inside
    have largest := Slicer.maxPayload_new (room_of_sent cut here) exceeds
    have octets : 0 < messages[message].wire.length := by
      rw [List.length_pos_iff]
      intro empty
      have read := wired _ (List.getElem_mem inside)
      unfold Block.HasWire at read
      rw [empty] at read
      cases read
    rw [packetCount_eq fits cut here]
    by_contra none
    have covered := Slicer.le_fragments_mul (show 0 < (Slicer.new mtu).maxPayload by omega) messages[message].wire.length
    rw [Nat.eq_zero_of_not_pos none,Nat.zero_mul] at covered
    omega

/-- In whatever order the packets arrive every message is delivered once, unless the
sequence numbers wrap around to a message that is still partly received. -/
theorem delivers_of_apart (exceeds : Slicer.overhead mtu < mtu) (wired : ∀ block ∈ messages, block.HasWire)
    (fits : ∀ block ∈ messages, (Slicer.new mtu).fragments block.wire.length < 2^16)
    (cut : (Slicer.new mtu).sliceAll messages = some sliced) {places : List (Nat × Nat)}
    (arrival : Arrival (packetCount sliced) places)
    (apart : ∀ earlier later, places = earlier ++ later → ∀ one other, Partly (packetCount sliced) earlier one →
      Partly (packetCount sliced) earlier other → firstNumber sliced one % 2^64 = firstNumber sliced other % 2^64 →
        one = other) :
    Delivers mtu messages sliced places := by
  have inside : ∀ place ∈ places, place.2 < packetCount sliced place.1 :=
    fun place member => (arrival.all place).mp member
  have separate : ∀ earlier later, places = earlier ++ later →
      (transferOf exceeds wired fits cut).Apart ([] ++ earlier) := by
    intro earlier later split one other first second same
    refine apart earlier later split one other first second ?_
    have numbers := congrArg UInt64.toNat same
    change (UInt64.ofNat _).toNat = (UInt64.ofNat _).toNat at numbers
    rwa [UInt64.toNat_ofNat',UInt64.toNat_ofNat'] at numbers
  have empty : (transferOf exceeds wired fits cut).Gathers [] PartialMessageStore.new := by
    refine ⟨fun message partly => ?_,fun messageIdentifier absent => rfl⟩
    obtain ⟨index,within,member⟩ := partly.1
    cases member
  obtain ⟨store,accepted⟩ := Transfer.acceptAll_packets places empty inside
    (fun earlier place later split => arrival.fresh earlier place later split) separate
  refine ⟨packet_length_le exceeds fits cut,
    (completions (packetCount sliced) [] places).map (fun message => messages[message]?.getD (.make 0 [])),store,?_,?_⟩
  · rw [packetsAt_eq_map inside]
    exact accepted
  · have order : (completions (packetCount sliced) [] places).Perm (List.range messages.length) := by
      rw [List.perm_ext_iff_of_nodup (completions_nodup places []) List.nodup_range]
      intro message
      rw [arrival.mem_completions,List.mem_range,packetCount_pos exceeds wired fits cut]
    have listed : (List.range messages.length).map (fun message => messages[message]?.getD (.make 0 [])) = messages := by
      apply List.ext_getElem
      · simp
      · intro message left right
        simp [List.getElem?_eq_getElem right]
    have blocks := order.map (fun message => messages[message]?.getD (.make 0 []))
    rw [listed] at blocks
    exact blocks

end

namespace PartialMessageStore

private theorem acceptAll_append (first second : List Block) (store : PartialMessageStore) :
    store.acceptAll (first ++ second) = (do
      let (delivered,middle) ← store.acceptAll first
      let (others,last) ← middle.acceptAll second
      return (delivered ++ others,last)) := by
  induction first generalizing store with
  | nil => simp [acceptAll]
  | cons packet first ih => simp [acceptAll,ih]

private theorem acceptAll_cons {packet : Block} {packets : List Block} {store : PartialMessageStore}
    {result : List Block × PartialMessageStore} (accepted : store.acceptAll (packet :: packets) = .ok result) :
    ∃ step rest, store.accept packet = .ok step ∧ step.2.acceptAll packets = .ok rest ∧
      result = (step.1.toList ++ rest.1,rest.2) := by
  rw [acceptAll] at accepted
  obtain ⟨step,one,accepted⟩ := bind_eq_ok.mp accepted
  obtain ⟨rest,others,accepted⟩ := bind_eq_ok.mp accepted
  cases accepted
  exact ⟨step,rest,one,others,rfl⟩

private theorem acceptAll_length {packets : List Block} {store : PartialMessageStore} {result : List Block × PartialMessageStore}
    (accepted : store.acceptAll packets = .ok result) : result.1.length ≤ packets.length := by
  induction packets generalizing store result with
  | nil =>
    cases accepted
    exact le_refl _
  | cons packet packets ih =>
    obtain ⟨step,rest,-,others,rfl⟩ := acceptAll_cons accepted
    have bound := ih others
    have one : step.1.toList.length ≤ 1 := by
      cases step.1 <;> simp
    rw [List.length_append,List.length_cons]
    omega

end PartialMessageStore

/-! Blocks that are sent over an MTU of 24 octets, which leaves two for the payload. -/

def short : Block := .make 5 []

def long : Block := .make 5 [1,1]

theorem delivers_of_apart_duplicate :
    Delivers 24 [long,short] [(Slicer.new 24).packets long 0,(Slicer.new 24).packets short 2]
      [(0,1),(1,0),(0,1),(0,0)] := by
  have counts : ∀ message, packetCount [(Slicer.new 24).packets long 0,(Slicer.new 24).packets short 2] message =
      if message = 0 then 2 else if message = 1 then 1 else 0 := by
    intro message
    match message with
    | 0 => rfl
    | 1 => rfl
    | message + 2 => rfl
  refine delivers_of_apart (by decide) (by decide) (by decide) (by decide +kernel) ⟨?_,?_⟩ ?_
  · rintro ⟨message,index⟩
    simp only [counts,List.mem_cons,Prod.mk.injEq,List.not_mem_nil,or_false]
    split
    · omega
    · split <;> omega
  · intro earlier place later split
    match earlier with
    | [] =>
      cases split
      decide
    | [first] =>
      cases split
      decide
    | [first,second] =>
      cases split
      decide
    | [first,second,third] =>
      cases split
      decide
    | first :: second :: third :: fourth :: rest => simp at split
  · intro earlier later split one other first second same
    have several : ∀ message,
        Partly (packetCount [(Slicer.new 24).packets long 0,(Slicer.new 24).packets short 2]) earlier message →
          message = 0 := by
      intro message partly
      have many := partly.several
      rw [counts] at many
      by_contra other
      rw [if_neg other] at many
      split at many <;> omega
    rw [several one first,several other second]

/-! With more than 2^64 sequence numbers in use at once two messages have the same
identifier. -/

def wrapped (between : Nat) : List Block := long :: (List.replicate between short ++ [long])

def wrappedPlaces (between : Nat) : List (Nat × Nat) :=
  [(0,0),(between + 1,0),(0,1),(between + 1,1)] ++ (List.range between).map fun message => (message + 1,0)

private theorem wrapped_getElem? (between message : Nat) : (wrapped between)[message]? =
    if message = 0 ∨ message = between + 1 then some long else if message ≤ between then some short else none := by
  cases message with
  | zero => rfl
  | succ message =>
    unfold wrapped
    rw [List.getElem?_cons_succ,List.getElem?_append,List.length_replicate,List.getElem?_replicate]
    by_cases inside : message < between
    · rw [if_pos inside,if_pos inside,if_neg (by omega),if_pos (by omega)]
    · rw [if_neg inside]
      by_cases last : message = between
      · rw [last,Nat.sub_self,if_pos (Or.inr rfl)]
        rfl
      · rw [List.getElem?_eq_none (by rw [List.length_singleton]; omega),if_neg (by omega),if_neg (by omega)]

def repeated (fragIndex : Nat) : Block :=
  encodeFragment (0 + UInt64.ofNat fragIndex) fragIndex 2 ((Slicer.new 24).payload long.wire fragIndex)

private theorem acceptAll_repeated : ∃ store, PartialMessageStore.new.acceptAll
    [repeated 0,repeated 0,repeated 1,repeated 1] = .ok ([long],store) := by
  have delivered : (PartialMessageStore.new.acceptAll [repeated 0,repeated 0,repeated 1,repeated 1]).map Prod.fst =
      .ok [long] := by
    decide +kernel
  cases result : PartialMessageStore.new.acceptAll [repeated 0,repeated 0,repeated 1,repeated 1] with
  | error message =>
    rw [result] at delivered
    cases delivered
  | ok pair =>
    rw [result] at delivered
    have blocks : pair.1 = [long] := Except.ok.inj delivered
    exact ⟨pair.2,by rw [← blocks]⟩

section
variable {between : Nat} {sliced : List (List Block)}

private theorem mem_wrapped {block : Block} (member : block ∈ wrapped between) : block = long ∨ block = short := by
  unfold wrapped at member
  rw [List.mem_cons,List.mem_append,List.mem_replicate,List.mem_singleton] at member
  rcases member with same | ⟨-,same⟩ | same
  · exact Or.inl same
  · exact Or.inr same
  · exact Or.inl same

private theorem wrapped_wired : ∀ block ∈ wrapped between, block.HasWire := by
  intro block member
  rcases mem_wrapped member with rfl | rfl <;> decide

private theorem wrapped_fits : ∀ block ∈ wrapped between, (Slicer.new 24).fragments block.wire.length < 2^16 := by
  intro block member
  rcases mem_wrapped member with rfl | rfl <;> decide

private theorem wrapped_packetCount (cut : (Slicer.new 24).sliceAll (wrapped between) = some sliced) (message : Nat) :
    packetCount sliced message =
      if message = 0 ∨ message = between + 1 then 2 else if message ≤ between then 1 else 0 := by
  unfold packetCount
  rw [Slicer.sliceAll_getElem? cut,wrapped_getElem?,Option.map_map]
  split
  · rw [Option.map_some,Option.getD_some,Function.comp_apply,Slicer.packets_length]
    decide
  · split
    · rw [Option.map_some,Option.getD_some,Function.comp_apply,Slicer.packets_length]
      decide
    · rfl

private theorem wrapped_firstNumber (cut : (Slicer.new 24).sliceAll (wrapped between) = some sliced) :
    firstNumber sliced (between + 1) = between + 2 := by
  have two : (Slicer.new 24).fragments long.wire.length % 2^16 = 2 := by decide
  have one : (Slicer.new 24).fragments short.wire.length % 2^16 = 1 := by decide
  rw [Slicer.firstNumber_eq cut]
  unfold wrapped
  rw [List.take_succ_cons,List.take_left' (List.length_replicate),List.map_cons,List.map_replicate,two,one,
    List.sum_cons,List.sum_replicate_nat]
  omega

private theorem wrapped_arrival (cut : (Slicer.new 24).sliceAll (wrapped between) = some sliced) :
    Arrival (packetCount sliced) (wrappedPlaces between) := by
  apply Arrival.of_nodup
  · unfold wrappedPlaces
    rw [List.nodup_append]
    refine ⟨by simp,?_,?_⟩
    · exact List.nodup_range.map (fun one other same => by simpa using same)
    · rintro first early second late rfl
      obtain ⟨message,inside,rfl⟩ := List.mem_map.mp late
      rw [List.mem_range] at inside
      simp at early
      omega
  · rintro ⟨message,index⟩
    rw [wrapped_packetCount cut]
    unfold wrappedPlaces
    simp only [List.mem_append,List.mem_cons,List.mem_map,List.mem_range,Prod.mk.injEq,List.not_mem_nil,or_false]
    constructor
    · rintro (both | ⟨other,inside,rfl,rfl⟩)
      · rw [if_pos (by omega)]
        omega
      · rw [if_neg (by omega),if_pos (by omega)]
        exact Nat.one_pos
    · intro inside
      split at inside
      · left
        omega
      · split at inside
        · exact Or.inr ⟨message - 1,by omega,by omega,by omega⟩
        · omega

private theorem wrapped_packets (cut : (Slicer.new 24).sliceAll (wrapped between) = some sliced)
    (around : UInt64.ofNat (between + 2) = 0) : ∃ others, packetsAt sliced (wrappedPlaces between) =
      [repeated 0,repeated 0,repeated 1,repeated 1] ++ others ∧ others.length ≤ between := by
  have two : (Slicer.new 24).fragments long.wire.length = 2 := by decide
  have first := sliced_eq wrapped_fits cut (wrapped_getElem? between 0)
  have last := sliced_eq wrapped_fits cut ((wrapped_getElem? between (between + 1)).trans (if_pos (Or.inr rfl)))
  rw [two] at first
  rw [two,wrapped_firstNumber cut,around] at last
  refine ⟨packetsAt sliced ((List.range between).map fun message => (message + 1,0)),?_,?_⟩
  · unfold packetsAt wrappedPlaces
    rw [List.filterMap_append]
    congr 1
    simp only [List.filterMap_cons,first,last]
    rfl
  · unfold packetsAt
    refine (List.length_filterMap_le _ _).trans ?_
    rw [List.length_map,List.length_range]

private theorem wrapped_undelivered (cut : (Slicer.new 24).sliceAll (wrapped between) = some sliced)
    (around : UInt64.ofNat (between + 2) = 0) :
    ¬ Delivers 24 (wrapped between) sliced (wrappedPlaces between) := by
  rintro ⟨-,delivered,store,accepted,perm⟩
  obtain ⟨others,packets,few⟩ := wrapped_packets cut around
  obtain ⟨middle,repeated⟩ := acceptAll_repeated
  rw [packets,PartialMessageStore.acceptAll_append,repeated] at accepted
  change (middle.acceptAll others >>= _) = _ at accepted
  obtain ⟨result,rest,accepted⟩ := bind_eq_ok.mp accepted
  cases accepted
  have bound := PartialMessageStore.acceptAll_length rest
  have size := perm.length_eq
  unfold wrapped at size
  simp only [List.length_append,List.length_cons,List.length_nil,List.length_replicate] at size
  omega

end

theorem wrapped_lost : ¬ ∀ (mtu : Nat) (messages : List Block) (sliced : List (List Block)) (places : List (Nat × Nat)),
    Slicer.overhead mtu < mtu → (∀ block ∈ messages, block.HasWire) →
    (∀ block ∈ messages, (Slicer.new mtu).fragments block.wire.length < 2^16) →
    (Slicer.new mtu).sliceAll messages = some sliced → Arrival (packetCount sliced) places →
    Delivers mtu messages sliced places := by
  intro claim
  obtain ⟨sliced,cut⟩ := Option.isSome_iff_exists.mp
    (Slicer.sliceAll_isSome (wrapped (2^64 - 2)) (show (Slicer.new 24).mtu ≤ Slicer.maxBufferSize by decide))
  exact wrapped_undelivered cut (by decide)
    (claim 24 _ sliced _ (by decide) wrapped_wired wrapped_fits cut (wrapped_arrival cut))

end Ncfcc.Nfd.Face
