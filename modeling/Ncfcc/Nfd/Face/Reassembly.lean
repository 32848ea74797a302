import Ncfcc.Library.Gathering
import Ncfcc.Nfd.Face.Fragments

/-! Messages are put together again in whatever order their packets arrive. -/
namespace Ncfcc.Nfd.Face
open Ncfcc.Library Ncfcc.Encoding Gathering

/-! Partial messages. -/

namespace PartialMessage

def gathered (payloads : List (Option Block)) : PartialMessage :=
  ⟨payloads.length,payloads.countP Option.isSome,payloads,
    (payloads.flatMap fun payload => (payload.map Block.value).getD []).length⟩

theorem add_new (fragIndex fragCount : Nat) (payload : Block) :
    new.add fragIndex fragCount payload =
      (gathered (List.replicate fragCount none)).add fragIndex fragCount payload := by
  have empty : gathered (List.replicate fragCount none) = ⟨fragCount,0,List.replicate fragCount none,0⟩ := by
    simp [gathered]
  rw [empty]
  rfl

private theorem gathered_set {payloads : List (Option Block)} {fragIndex : Nat}
    (missing : payloads[fragIndex]? = some none) (payload : Block) :
    gathered (payloads.set fragIndex (some payload)) =
      { gathered payloads with
        payloads := payloads.set fragIndex (some payload)
        received := payloads.countP Option.isSome + 1
        totalLength := (gathered payloads).totalLength + payload.value.length } := by
  obtain ⟨inside,none⟩ := List.getElem?_eq_some_iff.mp missing
  have split : payloads = payloads.take fragIndex ++ Option.none :: payloads.drop (fragIndex + 1) := by
    rw [← none,List.cons_getElem_drop_succ,List.take_append_drop]
  have place : (payloads.take fragIndex).length = fragIndex := List.length_take_of_le inside.le
  have filled : payloads.set fragIndex (some payload) =
      payloads.take fragIndex ++ some payload :: payloads.drop (fragIndex + 1) := by
    rw [List.set_eq_take_append_cons_drop,if_pos inside]
  have total : ((payloads.set fragIndex (some payload)).flatMap fun payload => (payload.map Block.value).getD []).length =
      (payloads.flatMap fun payload => (payload.map Block.value).getD []).length + payload.value.length := by
    rw [filled]
    conv_rhs => rw [split]
    simp only [List.flatMap_append,List.flatMap_cons,List.length_append,Option.map_some,Option.map_none,
      Option.getD_some,Option.getD_none,List.length_nil]
    omega
  unfold gathered
  rw [List.length_set,List.countP_set inside,none,total]
  rfl

/-- What is there is kept, what was missing is filled in. -/
theorem add_gathered {payloads : List (Option Block)} {fragIndex : Nat} (inside : fragIndex < payloads.length)
    (payload : Block) : (gathered payloads).add fragIndex payloads.length payload =
      gathered (if payloads[fragIndex]?.join.isSome then payloads else payloads.set fragIndex (some payload)) := by
  -- the first fragment fixes the number of payloads, which is already the right one
  have opened : (if (gathered payloads).received = 0 then
      { gathered payloads with fragCount := payloads.length, payloads := List.replicate payloads.length none }
      else gathered payloads) = gathered payloads := by
    split
    · rename_i nothing
      have all : payloads = List.replicate payloads.length none := by
        rw [List.eq_replicate_iff]
        refine ⟨rfl,fun payload member => ?_⟩
        exact Option.not_isSome_iff_eq_none.mp (List.countP_eq_zero.mp nothing payload member)
      rw [← all]
      rfl
    · rfl
  unfold add
  rw [opened]
  dsimp only
  rw [if_neg (by rintro (other | outside); exacts [other rfl,absurd inside (not_lt.mpr outside)])]
  by_cases duplicate : payloads[fragIndex]?.join.isSome
  · rw [if_pos duplicate]
    exact if_pos duplicate
  · have missing : payloads[fragIndex]? = some none := by
      rw [List.getElem?_eq_getElem inside] at duplicate ⊢
      rw [Option.join_some,Option.not_isSome_iff_eq_none] at duplicate
      rw [duplicate]
    rw [if_neg duplicate,gathered_set missing]
    exact if_neg duplicate

theorem isComplete_gathered (payloads : List (Option Block)) :
    (gathered payloads).isComplete = true ↔ ∀ payload ∈ payloads, payload.isSome := by
  unfold isComplete
  rw [decide_eq_true_iff]
  exact List.countP_eq_length

private theorem reassemble_gathered (payloads : List (Option Block)) : (gathered payloads).reassemble =
    Block.fromBuffer (payloads.flatMap fun payload => (payload.map Block.value).getD []) := if_pos rfl

end PartialMessage

/-! Messages in transfer. -/

/-- Blocks that are sent in pieces which make up their octets. -/
structure Transfer (ι : Type) where
  counts : ι → Nat
  first : ι → UInt64
  payload : ι → Nat → Block
  packet : ι × Nat → Block
  block : ι → Block
  parsed : ∀ piece, piece.2 < counts piece.1 → NdnlpData.fromBlock (packet piece) =
    .ok (some ⟨first piece.1 + UInt64.ofNat piece.2,piece.2,counts piece.1,payload piece.1 piece.2⟩)
  whole : ∀ message, 0 < counts message → Block.ofOctets
    ((List.range (counts message)).flatMap fun index => (payload message index).value) = .ok (block message)

namespace Transfer

private theorem reassembleSingle_payload {ι : Type} {transfer : Transfer ι} {message : ι}
    (single : transfer.counts message = 1) (seq : UInt64) :
    PartialMessage.reassembleSingle ⟨seq,0,1,transfer.payload message 0⟩ = some (transfer.block message) := by
  have whole := transfer.whole message (by omega)
  rw [single] at whole
  change Block.ofOctets ((transfer.payload message 0).value ++ []) = _ at whole
  rw [List.append_nil] at whole
  unfold PartialMessage.reassembleSingle
  rw [Block.blockFromValue_of_ofOctets whole]
  rfl

variable {ι : Type} [DecidableEq ι] (transfer : Transfer ι)

def slots (seen : List (ι × Nat)) (message : ι) : List (Option Block) :=
  (List.range (transfer.counts message)).map fun index =>
    if (message,index) ∈ seen then some (transfer.payload message index) else none

/-- Messages with the same identifier are not partly received at the same time. -/
def Apart (seen : List (ι × Nat)) : Prop :=
  ∀ one other, Partly transfer.counts seen one → Partly transfer.counts seen other →
    transfer.first one = transfer.first other → one = other

/-- The store keeps just the messages that are partly received. -/
structure Gathers (seen : List (ι × Nat)) (store : PartialMessageStore) : Prop where
  known : ∀ message, Partly transfer.counts seen message →
    store (transfer.first message) = some (.gathered (transfer.slots seen message))
  other : ∀ messageIdentifier,
    (∀ message, Partly transfer.counts seen message → transfer.first message ≠ messageIdentifier) →
      store messageIdentifier = none

variable {transfer} {seen : List (ι × Nat)} {message : ι} {index : Nat} {store : PartialMessageStore}

theorem slots_length (seen : List (ι × Nat)) (message : ι) : (transfer.slots seen message).length = transfer.counts message := by
  simp [slots]

theorem slots_getElem? (seen : List (ι × Nat)) (inside : index < transfer.counts message) : (transfer.slots seen message)[index]? =
    some (if (message,index) ∈ seen then some (transfer.payload message index) else none) := by
  unfold slots
  rw [List.getElem?_map,List.getElem?_range inside,Option.map_some]

private theorem slots_of_unseen (unseen : ∀ index < transfer.counts message, (message,index) ∉ seen) :
    transfer.slots seen message = List.replicate (transfer.counts message) none := by
  rw [List.eq_replicate_iff]
  refine ⟨slots_length seen message,fun payload member => ?_⟩
  obtain ⟨index,inside,rfl⟩ := List.mem_map.mp member
  exact if_neg (unseen index (List.mem_range.mp inside))

private theorem slots_append_other {piece : ι × Nat} (other : piece.1 ≠ message) :
    transfer.slots (seen ++ [piece]) message = transfer.slots seen message := by
  unfold slots
  simp only [mem_append_other other]

theorem slots_append (inside : index < transfer.counts message) :
    (if (transfer.slots seen message)[index]?.join.isSome then transfer.slots seen message
      else (transfer.slots seen message).set index (some (transfer.payload message index))) =
      transfer.slots (seen ++ [(message,index)]) message := by
  have here := slots_getElem? seen inside
  by_cases duplicate : (message,index) ∈ seen
  · rw [if_pos duplicate] at here
    rw [here,Option.join_some,Option.isSome_some,if_pos rfl]
    unfold slots
    refine List.map_congr_left fun other member => ?_
    have same : (message,other) ∈ seen ++ [(message,index)] ↔ (message,other) ∈ seen := by
      rw [List.mem_append,List.mem_singleton]
      constructor
      · rintro (before | equal)
        · exact before
        · exact equal ▸ duplicate
      · exact Or.inl
    simp only [same]
  · rw [if_neg duplicate] at here
    rw [here,Option.join_some,Option.isSome_none,if_neg Bool.false_ne_true]
    apply List.ext_getElem?
    intro place
    by_cases within : place < transfer.counts message
    · rw [slots_getElem? _ within,List.getElem?_set,slots_length,slots_getElem? _ within]
      by_cases same : index = place
      · subst same
        rw [if_pos rfl,if_pos within,if_pos (List.mem_append_right _ (List.mem_singleton.mpr rfl))]
      · have unchanged : (message,place) ∈ seen ++ [(message,index)] ↔ (message,place) ∈ seen := by
          simp [Ne.symm same]
        rw [if_neg same]
        simp only [unchanged]
    · rw [List.getElem?_eq_none (by rw [List.length_set,slots_length]; omega),
        List.getElem?_eq_none (by rw [slots_length]; omega)]

private theorem isComplete_slots : (PartialMessage.gathered (transfer.slots seen message)).isComplete = true ↔
    Complete transfer.counts seen message := by
  rw [PartialMessage.isComplete_gathered]
  constructor
  · intro filled index inside
    by_contra missing
    have member := List.mem_of_getElem? (slots_getElem? seen inside)
    rw [if_neg missing] at member
    cases filled none member
  · intro complete payload member
    obtain ⟨index,inside,rfl⟩ := List.mem_map.mp member
    rw [if_pos (complete index (List.mem_range.mp inside))]
    rfl

private theorem reassemble_slots (some : 0 < transfer.counts message) (complete : Complete transfer.counts seen message) :
    (PartialMessage.gathered (transfer.slots seen message)).reassemble = .some (transfer.block message) := by
  have octets : ((transfer.slots seen message).flatMap fun payload => (payload.map Block.value).getD []) =
      (List.range (transfer.counts message)).flatMap fun index => (transfer.payload message index).value := by
    unfold slots
    rw [List.flatMap_map]
    refine List.flatMap_congr fun index inside => ?_
    rw [if_pos (complete index (List.mem_range.mp inside))]
    rfl
  rw [PartialMessage.reassemble_gathered,octets]
  exact Block.fromBuffer_of_ofOctets (transfer.whole message some)

private theorem add_piece (gathers : transfer.Gathers seen store) (several : transfer.counts message ≠ 1)
    (inside : index < transfer.counts message) (fresh : ¬ Complete transfer.counts seen message)
    (apart : transfer.Apart (seen ++ [(message,index)])) :
    ((store (transfer.first message)).getD .new).add index (transfer.counts message) (transfer.payload message index) =
      .gathered (transfer.slots (seen ++ [(message,index)]) message) := by
  have added := PartialMessage.add_gathered
    (inside.trans_eq (slots_length seen message).symm) (transfer.payload message index)
  rw [slots_append inside,slots_length] at added
  by_cases known : Partly transfer.counts seen message
  · rw [gathers.known message known,Option.getD_some,added]
  · have unseen : ∀ index < transfer.counts message, (message,index) ∉ seen :=
      fun index inside member => known ⟨⟨index,inside,member⟩,fresh⟩
    have now : Partly transfer.counts (seen ++ [(message,index)]) message :=
      ⟨⟨index,inside,List.mem_append_right _ (List.mem_singleton.mpr rfl)⟩,
        not_complete_first several inside unseen⟩
    have nothing : store (transfer.first message) = none := by
      refine gathers.other _ fun other partly same => ?_
      have different : message ≠ other := by
        rintro rfl
        exact known partly
      exact different (apart other message ((partly_append_other different).mpr partly) now same).symm
    rw [nothing,Option.getD_none,PartialMessage.add_new,← slots_of_unseen unseen,added]

theorem Gathers.completed (gathers : transfer.Gathers seen store) (before : Partly transfer.counts seen message)
    (apart : transfer.Apart seen) (complete : Complete transfer.counts (seen ++ [(message,index)]) message) :
    transfer.Gathers (seen ++ [(message,index)]) (Function.update store (transfer.first message) none) := by
  constructor
  · intro other partly
    have different : message ≠ other := by
      rintro rfl
      exact partly.2 complete
    have earlier : Partly transfer.counts seen other := (partly_append_other different).mp partly
    have elsewhere : transfer.first other ≠ transfer.first message :=
      fun same => different (apart other message earlier before same).symm
    rw [Function.update_of_ne elsewhere,gathers.known other earlier,slots_append_other different]
  · intro messageIdentifier absent
    by_cases same : messageIdentifier = transfer.first message
    · subst same
      exact Function.update_self ..
    · rw [Function.update_of_ne same]
      refine gathers.other messageIdentifier fun other partly => ?_
      by_cases here : message = other
      · subst here
        exact Ne.symm same
      · exact absent other ((partly_append_other here).mpr partly)

theorem Gathers.continued (gathers : transfer.Gathers seen store)
    (after : Partly transfer.counts (seen ++ [(message,index)]) message)
    (apart : transfer.Apart (seen ++ [(message,index)])) :
    transfer.Gathers (seen ++ [(message,index)]) (Function.update store (transfer.first message)
      (some (.gathered (transfer.slots (seen ++ [(message,index)]) message)))) := by
  constructor
  · intro other partly
    by_cases here : message = other
    · subst here
      exact Function.update_self ..
    · have elsewhere : transfer.first other ≠ transfer.first message :=
        fun same => here (apart other message partly after same).symm
      rw [Function.update_of_ne elsewhere,slots_append_other here]
      exact gathers.known other ((partly_append_other here).mp partly)
  · intro messageIdentifier absent
    rw [Function.update_of_ne (Ne.symm (absent message after))]
    refine gathers.other messageIdentifier fun other partly => ?_
    by_cases here : message = other
    · subst here
      exact absent message after
    · exact absent other ((partly_append_other here).mpr partly)

theorem Gathers.passed (gathers : transfer.Gathers seen store)
    (before : ¬ Partly transfer.counts seen message)
    (complete : Complete transfer.counts (seen ++ [(message,index)]) message) :
    transfer.Gathers (seen ++ [(message,index)]) store := by
  have same : ∀ other, Partly transfer.counts (seen ++ [(message,index)]) other ↔ Partly transfer.counts seen other := by
    intro other
    by_cases here : message = other
    · subst here
      exact iff_of_false (fun partly => partly.2 complete) before
    · exact partly_append_other here
  constructor
  · intro other partly
    have different : message ≠ other := by
      rintro rfl
      exact partly.2 complete
    rw [slots_append_other different]
    exact gathers.known other ((same other).mp partly)
  · intro messageIdentifier absent
    exact gathers.other messageIdentifier fun other partly => absent other ((same other).mpr partly)

/-- A piece of a message that is not complete yet: the block is delivered just when nothing
is missing any more. -/
theorem accept_packet (gathers : transfer.Gathers seen store) (inside : index < transfer.counts message)
    (fresh : ¬ Complete transfer.counts seen message) (before : transfer.Apart seen)
    (after : transfer.Apart (seen ++ [(message,index)])) :
    ∃ next, store.accept (transfer.packet (message,index)) =
        .ok (if Complete transfer.counts (seen ++ [(message,index)]) message then some (transfer.block message) else none,
          next) ∧
      transfer.Gathers (seen ++ [(message,index)]) next := by
  have accepted : store.accept (transfer.packet (message,index)) = .ok (store.receive
      ⟨transfer.first message + UInt64.ofNat index,index,transfer.counts message,transfer.payload message index⟩) := by
    unfold PartialMessageStore.accept
    rw [transfer.parsed (message,index) inside]
    rfl
  rw [accepted]
  unfold PartialMessageStore.receive
  dsimp only
  by_cases single : transfer.counts message = 1
  · have zero : index = 0 := by omega
    have complete : Complete transfer.counts (seen ++ [(message,index)]) message := by
      intro other within
      have same : other = index := by omega
      rw [same]
      exact List.mem_append_right _ (List.mem_singleton.mpr rfl)
    have never : ¬ Partly transfer.counts seen message := fun partly => absurd partly.several (by omega)
    refine ⟨store,?_,gathers.passed never complete⟩
    rw [if_pos single,if_pos complete,zero,single,reassembleSingle_payload single]
  · rw [if_neg single,UInt64.add_sub_cancel,add_piece gathers single inside fresh after]
    by_cases complete : Complete transfer.counts (seen ++ [(message,index)]) message
    · have partly := partly_of_completed single inside fresh complete
      refine ⟨_,?_,gathers.completed partly before complete⟩
      rw [if_pos (isComplete_slots.mpr complete),if_pos complete,reassemble_slots (by omega) complete]
    · have now : (message,index) ∈ seen ++ [(message,index)] := List.mem_append_right _ (List.mem_singleton.mpr rfl)
      refine ⟨_,?_,gathers.continued ⟨⟨index,inside,now⟩,complete⟩ after⟩
      rw [if_neg (fun filled => complete (isComplete_slots.mp filled)),if_neg complete]

/-- All pieces one after the other: the blocks are delivered as they become complete. -/
theorem acceptAll_packets (pieces : List (ι × Nat)) (gathers : transfer.Gathers seen store)
    (inside : ∀ piece ∈ pieces, piece.2 < transfer.counts piece.1)
    (fresh : ∀ earlier piece later, pieces = earlier ++ piece :: later →
      ¬ Complete transfer.counts (seen ++ earlier) piece.1)
    (apart : ∀ earlier later, pieces = earlier ++ later → transfer.Apart (seen ++ earlier)) :
    ∃ next, store.acceptAll (pieces.map transfer.packet) =
      .ok ((completions transfer.counts seen pieces).map transfer.block,next) := by
  induction pieces generalizing seen store with
  | nil => exact ⟨store,rfl⟩
  | cons piece pieces ih =>
    have missing : ¬ Complete transfer.counts seen piece.1 := by
      have first := fresh [] piece pieces rfl
      rwa [List.append_nil] at first
    have before : transfer.Apart seen := by
      have none := apart [] (piece :: pieces) rfl
      rwa [List.append_nil] at none
    obtain ⟨next,accepted,gathers⟩ := accept_packet gathers (inside piece List.mem_cons_self) missing before
      (apart [piece] pieces rfl)
    have shift : ∀ earlier, (seen ++ [piece]) ++ earlier = seen ++ piece :: earlier := by
      intro earlier
      rw [List.append_assoc,List.singleton_append]
    obtain ⟨last,rest⟩ := ih gathers (fun other member => inside other (List.mem_cons_of_mem _ member))
      (fun earlier other later split => by
        rw [shift]
        exact fresh (piece :: earlier) other later (congrArg (piece :: ·) split))
      (fun earlier later split => by
        rw [shift]
        exact apart (piece :: earlier) later (congrArg (piece :: ·) split))
    refine ⟨last,?_⟩
    rw [List.map_cons,PartialMessageStore.acceptAll,accepted]
    change (next.acceptAll _ >>= _) = _
    rw [rest,completions]
    by_cases complete : Complete transfer.counts (seen ++ [piece]) piece.1
    · rw [if_pos complete,if_pos ⟨missing,complete⟩]
      rfl
    · rw [if_neg complete,if_neg (fun both => complete both.2)]
      rfl

end Transfer

end Ncfcc.Nfd.Face
