import Ncfcc.Nfd.Face.Ndnlp

/-! What the slicer makes of one block: packets within the MTU that are parsed again into
their number, their place and a piece of the block. -/
namespace Ncfcc.Nfd.Face
open Ncfcc.Library Ncfcc.Encoding

/-! Sizes. -/

def enclosed (body : Nat) : Nat := body + sizeOfVarNumber body + 1

def bodySize (fragIndex fragCount payloadSize : Nat) : Nat :=
  payloadSize + sizeOfVarNumber payloadSize + 1 +
    (if 1 < fragCount then sizeOfNonNegativeInteger fragCount + 2 + (sizeOfNonNegativeInteger fragIndex + 2) else 0) + 10

theorem sizeOfVarNumber_le (number : Nat) : sizeOfVarNumber number ≤ 9 := by
  unfold sizeOfVarNumber
  split_ifs <;> decide

private theorem sizeOfNonNegativeInteger_le (number : Nat) : sizeOfNonNegativeInteger number ≤ 8 := by
  unfold sizeOfNonNegativeInteger
  split_ifs <;> decide

private theorem sizeOfVarNumber_integer (number : Nat) : sizeOfVarNumber (sizeOfNonNegativeInteger number) = 1 := by
  unfold sizeOfNonNegativeInteger
  split_ifs <;> rfl

private theorem bodySize_le (fragIndex fragCount payloadSize : Nat) :
    bodySize fragIndex fragCount payloadSize ≤ payloadSize + 40 := by
  have first := sizeOfVarNumber_le payloadSize
  have second := sizeOfNonNegativeInteger_le fragCount
  have third := sizeOfNonNegativeInteger_le fragIndex
  unfold bodySize
  split <;> omega

private theorem estimateFragment_eq {payloadSize : Nat} (small : payloadSize < 2^63) (fragIndex fragCount : Nat) :
    estimateFragment fragIndex fragCount payloadSize = enclosed (bodySize fragIndex fragCount payloadSize) := by
  have bound := bodySize_le fragIndex fragCount payloadSize
  have header := sizeOfVarNumber_le (bodySize fragIndex fragCount payloadSize)
  have body : payloadSize + sizeOfVarNumber payloadSize + sizeOfVarNumber 84 +
      (if 1 < fragCount then
        sizeOfNonNegativeInteger fragCount + sizeOfVarNumber (sizeOfNonNegativeInteger fragCount) +
          sizeOfVarNumber 83 + (sizeOfNonNegativeInteger fragIndex +
          sizeOfVarNumber (sizeOfNonNegativeInteger fragIndex) + sizeOfVarNumber 82)
        else 0) + (8 + sizeOfVarNumber 8 + sizeOfVarNumber 81) = bodySize fragIndex fragCount payloadSize := by
    rw [sizeOfVarNumber_integer,sizeOfVarNumber_integer]
    rfl
  unfold estimateFragment
  dsimp only
  rw [body,Nat.mod_eq_of_lt (show bodySize fragIndex fragCount payloadSize < 2^64 by omega)]
  exact Nat.mod_eq_of_lt (by change enclosed (bodySize fragIndex fragCount payloadSize) < 2^64; unfold enclosed; omega)

private theorem fragmentElements_length (seq : UInt64) (fragIndex fragCount : Nat) (payload : List UInt8) :
    ((fragmentElements seq fragIndex fragCount payload).flatMap
      fun part => (Block.make part.1 part.2).wire).length = bodySize fragIndex fragCount payload.length := by
  have sequence : sizeOfVarNumber 81 + (sizeOfVarNumber 8 + 8) = 10 := rfl
  have one : ∀ type ∈ [82,83,84], sizeOfVarNumber type = 1 := by decide
  unfold fragmentElements bodySize
  split
  · simp only [List.flatMap_append,List.length_append,List.flatMap_cons,List.flatMap_nil,Block.make_length,
      bigEndian_length,nonNegativeInteger_length,sizeOfVarNumber_integer,List.length_nil,sequence,
      one 82 (by decide),one 83 (by decide),one 84 (by decide)]
    omega
  · simp only [List.flatMap_append,List.length_append,List.flatMap_cons,List.flatMap_nil,Block.make_length,
      bigEndian_length,List.length_nil,sequence,one 84 (by decide)]
    omega

theorem encodeFragment_length (seq : UInt64) (fragIndex fragCount : Nat) (payload : List UInt8) :
    (encodeFragment seq fragIndex fragCount payload).wire.length =
      enclosed (bodySize fragIndex fragCount payload.length) := by
  have one : sizeOfVarNumber 80 = 1 := rfl
  unfold encodeFragment
  rw [Block.make_length,fragmentElements_length,one]
  unfold enclosed
  omega

private theorem bodySize_le_of_lt {fragIndex fragCount : Nat} (index : fragIndex < 2^16) (count : fragCount < 2^16) (payloadSize : Nat) :
    bodySize fragIndex fragCount payloadSize ≤ payloadSize + sizeOfVarNumber payloadSize + 19 := by
  have first : sizeOfNonNegativeInteger fragCount ≤ 2 := by
    unfold sizeOfNonNegativeInteger
    split_ifs <;> omega
  have second : sizeOfNonNegativeInteger fragIndex ≤ 2 := by
    unfold sizeOfNonNegativeInteger
    split_ifs <;> omega
  unfold bodySize
  split <;> omega

/-- With the largest header around the largest payload a packet is as large as the MTU. -/
theorem enclosed_bodySize_le {mtu payloadSize fragIndex fragCount : Nat} (small : mtu < 2^63)
    (within : payloadSize + Slicer.overhead mtu ≤ mtu) (index : fragIndex < 2^16) (count : fragCount < 2^16) :
    enclosed (bodySize fragIndex fragCount payloadSize) ≤ mtu := by
  have estimate := estimateFragment_eq small 65534 65535
  have largest : bodySize 65534 65535 mtu = mtu + sizeOfVarNumber mtu + 19 := rfl
  have overhead : Slicer.overhead mtu = enclosed (bodySize 65534 65535 mtu) - mtu := by
    have bound := bodySize_le 65534 65535 mtu
    have header := sizeOfVarNumber_le (bodySize 65534 65535 mtu)
    unfold Slicer.overhead
    rw [estimate]
    unfold enclosed
    omega
  have fields := bodySize_le_of_lt index count payloadSize
  have inner : sizeOfVarNumber payloadSize ≤ sizeOfVarNumber mtu := sizeOfVarNumber_mono (by omega)
  have outer : sizeOfVarNumber (bodySize fragIndex fragCount payloadSize) ≤
      sizeOfVarNumber (bodySize 65534 65535 mtu) := sizeOfVarNumber_mono (by omega)
  rw [overhead] at within
  unfold enclosed at within ⊢
  omega

/-! Parsing. -/

private theorem fragmentElements_readable (seq : UInt64) (fragIndex fragCount : Nat) {payload : List UInt8}
    (small : payload.length < 2^63) :
    ∀ part ∈ fragmentElements seq fragIndex fragCount payload, part.1 < 2^32 ∧ part.2.length < 2^64 := by
  have first := sizeOfNonNegativeInteger_le fragIndex
  have second := sizeOfNonNegativeInteger_le fragCount
  intro part inside
  unfold fragmentElements at inside
  split at inside
  · simp only [List.cons_append,List.nil_append,List.mem_cons,List.not_mem_nil,or_false] at inside
    rcases inside with rfl | rfl | rfl | rfl
    · exact ⟨by dsimp only; omega,by rw [bigEndian_length]; decide⟩
    · exact ⟨by dsimp only; omega,by rw [nonNegativeInteger_length]; omega⟩
    · exact ⟨by dsimp only; omega,by rw [nonNegativeInteger_length]; omega⟩
    · exact ⟨by dsimp only; omega,by dsimp only; omega⟩
  · simp only [List.append_nil,List.cons_append,List.nil_append,List.mem_cons,List.not_mem_nil,or_false] at inside
    rcases inside with rfl | rfl
    · exact ⟨by dsimp only; omega,by rw [bigEndian_length]; decide⟩
    · exact ⟨by dsimp only; omega,by dsimp only; omega⟩

private theorem parse_encodeFragment (seq : UInt64) (fragIndex fragCount : Nat) {payload : List UInt8}
    (small : payload.length < 2^63) : (encodeFragment seq fragIndex fragCount payload).parse =
      .ok ((fragmentElements seq fragIndex fragCount payload).map fun part => .make part.1 part.2) := by
  refine Block.elements_make _ (fragmentElements_readable seq fragIndex fragCount small) _ ?_
  change _ ≤ ((fragmentElements seq fragIndex fragCount payload).flatMap
    fun part => (Block.make part.1 part.2).wire).length
  rw [fragmentElements_length]
  have several : (fragmentElements seq fragIndex fragCount payload).length ≤ 4 := by
    unfold fragmentElements
    split <;> simp
  unfold bodySize
  omega

private theorem ofNat_fromBigEndian (seq : UInt64) : UInt64.ofNat (fromBigEndian (bigEndian 8 seq.toNat)) = seq := by
  rw [fromBigEndian_of_lt seq.toNat_lt,UInt64.ofNat_toNat]

/-- A packet is parsed into what it was made of. -/
theorem fromBlock_encodeFragment (seq : UInt64) {fragIndex fragCount : Nat} (inside : fragIndex < fragCount)
    (fits : fragCount < 2^16) {payload : List UInt8} (small : payload.length < 2^63) :
    NdnlpData.fromBlock (encodeFragment seq fragIndex fragCount payload) =
      .ok (some ⟨seq,fragIndex,fragCount,.make 84 payload⟩) := by
  have type : ¬ (encodeFragment seq fragIndex fragCount payload).type ≠ 80 := fun other => other rfl
  have parsed := parse_encodeFragment seq fragIndex fragCount small
  have number : UInt64.ofNat (fromBigEndian (Block.make 81 (bigEndian 8 seq.toNat)).value) = seq :=
    ofNat_fromBigEndian seq
  unfold NdnlpData.fromBlock
  rw [if_neg type,parsed]
  unfold fragmentElements
  by_cases several : 1 < fragCount
  · have index : readNonNegativeInteger (Block.make 82 (nonNegativeInteger fragIndex)).value = .ok fragIndex :=
      readNonNegativeInteger_nonNegativeInteger (by omega)
    have count : readNonNegativeInteger (Block.make 83 (nonNegativeInteger fragCount)).value = .ok fragCount :=
      readNonNegativeInteger_nonNegativeInteger (by omega)
    rw [if_pos several]
    change (readNonNegativeInteger (Block.make 82 (nonNegativeInteger fragIndex)).value >>= _) = _
    rw [index]
    change (if 65535 < fragIndex then _ else
      readNonNegativeInteger (Block.make 83 (nonNegativeInteger fragCount)).value >>= _) = _
    rw [if_neg (by omega),count]
    change (if 65535 < fragCount then _ else if fragCount ≤ fragIndex then _ else Except.ok (some _)) = _
    rw [if_neg (by omega),if_neg (by omega),number]
    rfl
  · have one : fragCount = 1 := by omega
    have zero : fragIndex = 0 := by omega
    rw [if_neg several]
    change Except.ok (some _) = _
    rw [number,one,zero]
    rfl

/-! Slicing. -/

def firstNumber (sliced : List (List Block)) (message : Nat) : Nat := ((sliced.take message).map List.length).sum

namespace Slicer
variable {slicer : Slicer}

def packets (block : Block) (first : UInt64) (slicer : Slicer) : List Block :=
  (List.range (slicer.fragments block.wire.length % 2^16)).map fun fragIndex =>
    encodeFragment (first + UInt64.ofNat fragIndex) fragIndex (slicer.fragments block.wire.length % 2^16)
      (slicer.payload block.wire fragIndex)

theorem packets_length (block : Block) (first : UInt64) (slicer : Slicer) :
    (slicer.packets block first).length = slicer.fragments block.wire.length % 2^16 := by
  simp [packets]

private theorem slice_eq (block : Block) (room : slicer.mtu ≤ maxBufferSize) : slicer.slice block =
    some (slicer.packets block slicer.next,
      { slicer with next := slicer.next + UInt64.ofNat (slicer.packets block slicer.next).length }) := by
  unfold slice
  rw [if_neg (by omega),packets_length]
  rfl

private theorem sliceAll_cons (block : Block) (blocks : List Block) (room : slicer.mtu ≤ maxBufferSize) :
    sliceAll (block :: blocks) slicer =
      (sliceAll blocks { slicer with
        next := slicer.next + UInt64.ofNat (slicer.packets block slicer.next).length }).map
      (slicer.packets block slicer.next :: ·) := by
  rw [sliceAll,slice_eq block room]
  change (sliceAll blocks _ >>= _) = _
  cases sliceAll blocks _ <;> rfl

theorem room_of_sliceAll {block : Block} {blocks : List Block} {sliced : List (List Block)}
    (cut : sliceAll (block :: blocks) slicer = some sliced) : slicer.mtu ≤ maxBufferSize := by
  by_contra large
  rw [sliceAll,slice,if_pos (by omega)] at cut
  cases cut

theorem sliceAll_getElem? {blocks : List Block} {sliced : List (List Block)}
    (cut : sliceAll blocks slicer = some sliced) (message : Nat) : sliced[message]? =
      blocks[message]?.map fun block => slicer.packets block (slicer.next + UInt64.ofNat (firstNumber sliced message)) := by
  induction blocks generalizing slicer sliced message with
  | nil =>
    cases cut
    simp
  | cons block blocks ih =>
    rw [sliceAll_cons block blocks (room_of_sliceAll cut)] at cut
    obtain ⟨others,rest,rfl⟩ := Option.map_eq_some_iff.mp cut
    cases message with
    | zero => simp [firstNumber]
    | succ message =>
      have total : firstNumber (slicer.packets block slicer.next :: others) (message + 1) =
          (slicer.packets block slicer.next).length + firstNumber others message := rfl
      rw [List.getElem?_cons_succ,List.getElem?_cons_succ,ih rest message,total,UInt64.ofNat_add,← UInt64.add_assoc]
      rfl

theorem firstNumber_eq {blocks : List Block} {sliced : List (List Block)}
    (cut : sliceAll blocks slicer = some sliced) (message : Nat) : firstNumber sliced message =
      ((blocks.take message).map fun block => slicer.fragments block.wire.length % 2^16).sum := by
  have lengths : sliced.map List.length = blocks.map fun block => slicer.fragments block.wire.length % 2^16 := by
    apply List.ext_getElem?
    intro index
    rw [List.getElem?_map,List.getElem?_map,sliceAll_getElem? cut,Option.map_map]
    congr 1
    funext block
    exact packets_length block _ slicer
  unfold firstNumber
  rw [List.map_take,lengths,List.map_take]

theorem sliceAll_isSome (blocks : List Block) (room : slicer.mtu ≤ maxBufferSize) :
    (sliceAll blocks slicer).isSome := by
  induction blocks generalizing slicer with
  | nil => rfl
  | cons block blocks ih =>
    rw [sliceAll_cons block blocks room,Option.isSome_map]
    exact ih room

theorem maxPayload_new {mtu : Nat} (room : mtu ≤ maxBufferSize) (exceeds : overhead mtu < mtu) :
    (new mtu).maxPayload + overhead mtu = mtu := by
  have value : (new mtu).maxPayload = (mtu + 2^64 - overhead mtu) % 2^64 := rfl
  have size : maxBufferSize = 2^63 - 1 := rfl
  rw [value]
  omega

theorem le_fragments_mul (positive : 0 < slicer.maxPayload) (size : Nat) :
    size ≤ slicer.fragments size * slicer.maxPayload := by
  have divided := Nat.div_add_mod size slicer.maxPayload
  have less := Nat.mod_lt size positive
  unfold fragments
  rw [add_mul,mul_comm (size / slicer.maxPayload)]
  split <;> omega

theorem payload_eq (octets : List UInt8) (fragIndex : Nat) (slicer : Slicer) :
    slicer.payload octets fragIndex = (octets.drop (fragIndex * slicer.maxPayload)).take slicer.maxPayload := by
  unfold payload
  rw [List.take_eq_take_iff,List.length_drop]
  omega

theorem flatMap_payload (positive : 0 < slicer.maxPayload) (octets : List UInt8) :
    (List.range (slicer.fragments octets.length)).flatMap (slicer.payload octets) = octets := by
  have same : slicer.payload octets = fun fragIndex =>
      (octets.drop (fragIndex * slicer.maxPayload)).take slicer.maxPayload := by
    funext fragIndex
    exact payload_eq octets fragIndex slicer
  rw [same,flatMap_pieces,List.take_of_length_le (le_fragments_mul positive octets.length)]

end Slicer

end Ncfcc.Nfd.Face
