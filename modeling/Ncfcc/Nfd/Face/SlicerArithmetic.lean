import Mathlib.Order.Bounds.Basic
import Ncfcc.Nfd.Face.Fragments

/-! The arithmetic of the slicer, which is that of unsigned numbers: for which MTUs and blocks
its results are those of the whole numbers. -/
namespace Ncfcc.Nfd.Face
open Ncfcc.Library Ncfcc.Encoding

/-- The octets around a payload as large as the MTU, with all fields at their largest. -/
def largestHeader (mtu : Nat) : Nat :=
  (encodeFragment (UInt64.ofNat (2^64 - 1)) 65534 65535 (List.replicate mtu 0)).wire.length - mtu

def Slicer.fragCount (slicer : Slicer) (networkPacketSize : Nat) : Nat := slicer.fragments networkPacketSize % 2^16

/-- The maximum payload and the number of fragments are what they should be; a maximum of zero is divided by. -/
structure WellDefined (mtu : Nat) (block : Block) : Prop where
  positive : 0 < (Slicer.new mtu).maxPayload
  within : (Slicer.new mtu).maxPayload + largestHeader mtu ≤ mtu
  ceiling : IsLeast {count | block.wire.length ≤ count * (Slicer.new mtu).maxPayload}
    ((Slicer.new mtu).fragCount block.wire.length)

/-! The header. -/

private theorem largestHeader_eq (mtu : Nat) :
    largestHeader mtu = sizeOfVarNumber mtu + sizeOfVarNumber (mtu + sizeOfVarNumber mtu + 19) + 20 := by
  have body : bodySize 65534 65535 mtu = mtu + sizeOfVarNumber mtu + 19 := rfl
  unfold largestHeader
  rw [encodeFragment_length,List.length_replicate,body]
  unfold enclosed
  omega

private theorem largestHeader_lt_iff (mtu : Nat) : largestHeader mtu < mtu ↔ 23 ≤ mtu := by
  rw [largestHeader_eq]
  by_cases small : mtu < 233
  · have one : sizeOfVarNumber mtu = 1 := if_pos (by omega)
    have two : sizeOfVarNumber (mtu + 1 + 19) = 1 := if_pos (by omega)
    rw [one,two]
    omega
  · have first := sizeOfVarNumber_le mtu
    have second := sizeOfVarNumber_le (mtu + sizeOfVarNumber mtu + 19)
    omega

/-! The estimate, in sixty-four bits. -/

private theorem estimateFragment_mod (mtu : Nat) : estimateFragment 65534 65535 mtu =
    ((mtu + sizeOfVarNumber mtu + 19) % 2^64 + sizeOfVarNumber ((mtu + sizeOfVarNumber mtu + 19) % 2^64) + 1) % 2^64 :=
  rfl

private theorem overhead_of_lt {mtu : Nat} (lt : mtu < 2^64 - 28) : Slicer.overhead mtu = largestHeader mtu := by
  have first := sizeOfVarNumber_le mtu
  have second := sizeOfVarNumber_le (mtu + sizeOfVarNumber mtu + 19)
  unfold Slicer.overhead
  rw [estimateFragment_mod,largestHeader_eq,Nat.mod_eq_of_lt (show mtu + sizeOfVarNumber mtu + 19 < 2^64 by omega)]
  omega

/-- Where the sum of the sizes wraps, its length is estimated with one octet. -/
theorem overhead_of_ge {mtu : Nat} (lt : mtu < 2^64) (ge : 2^64 - 28 ≤ mtu) : Slicer.overhead mtu = 30 := by
  have nine : sizeOfVarNumber mtu = 9 := by
    unfold sizeOfVarNumber
    split_ifs <;> omega
  have wrapped : (mtu + 9 + 19) % 2^64 = mtu + 28 - 2^64 := by omega
  have one : sizeOfVarNumber (mtu + 28 - 2^64) = 1 := if_pos (by omega)
  unfold Slicer.overhead
  rw [estimateFragment_mod,nine,wrapped,one]
  omega

private theorem maxPayload_eq (mtu : Nat) : (Slicer.new mtu).maxPayload = (mtu + 2^64 - Slicer.overhead mtu) % 2^64 := rfl

private theorem maxPayload_iff {mtu : Nat} (lt : mtu < 2^64) :
    (0 < (Slicer.new mtu).maxPayload ∧ (Slicer.new mtu).maxPayload + largestHeader mtu ≤ mtu) ↔
      23 ≤ mtu ∧ mtu < 2^64 - 28 := by
  have exceeds := largestHeader_lt_iff mtu
  rw [maxPayload_eq]
  by_cases wraps : mtu < 2^64 - 28
  · have bound : largestHeader mtu ≤ 38 := by
      have first := sizeOfVarNumber_le mtu
      have second := sizeOfVarNumber_le (mtu + sizeOfVarNumber mtu + 19)
      rw [largestHeader_eq]
      omega
    rw [overhead_of_lt wraps]
    omega
  · have large : 37 < largestHeader mtu := by
      have nine : ∀ number, 2^32 ≤ number → sizeOfVarNumber number = 9 := by
        intro number large
        unfold sizeOfVarNumber
        split_ifs <;> omega
      rw [largestHeader_eq,nine mtu (by omega),nine _ (by omega)]
      omega
    rw [overhead_of_ge lt (not_lt.mp wraps)]
    omega

private theorem maxPayload_add_header {mtu : Nat} (enough : 23 ≤ mtu) (lt : mtu < 2^64 - 28) :
    (Slicer.new mtu).maxPayload = mtu - largestHeader mtu := by
  have exceeds := (largestHeader_lt_iff mtu).mpr enough
  rw [maxPayload_eq,overhead_of_lt lt]
  omega

/-! The number of fragments. -/

private theorem fragments_isLeast {slicer : Slicer} (positive : 0 < slicer.maxPayload) (size : Nat) :
    IsLeast {count | size ≤ count * slicer.maxPayload} (slicer.fragments size) := by
  refine ⟨Slicer.le_fragments_mul positive size,?_⟩
  intro count covers
  have covers : size ≤ count * slicer.maxPayload := covers
  have divided : size / slicer.maxPayload ≤ count := Nat.div_le_of_le_mul (by rwa [Nat.mul_comm] at covers)
  unfold Slicer.fragments
  split
  · exact divided
  · rename_i rest
    refine Nat.lt_of_le_of_ne divided ?_
    intro same
    have whole := Nat.div_add_mod size slicer.maxPayload
    rw [same,Nat.mul_comm] at whole
    omega

private theorem fragCount_isLeast_iff {slicer : Slicer} (positive : 0 < slicer.maxPayload) (size : Nat) :
    IsLeast {count | size ≤ count * slicer.maxPayload} (slicer.fragCount size) ↔ size ≤ 65535 * slicer.maxPayload := by
  have least := fragments_isLeast positive size
  have bounded : slicer.fragments size < 2^16 ↔ size ≤ 65535 * slicer.maxPayload := by
    constructor
    · intro small
      have enough : slicer.fragments size ≤ 65535 := by omega
      exact least.1.trans (Nat.mul_le_mul_right _ enough)
    · intro covers
      exact Nat.lt_succ_of_le (least.2 covers)
  rw [← bounded]
  constructor
  · intro counted
    rw [least.unique counted]
    exact Nat.mod_lt _ (by decide)
  · intro small
    unfold Slicer.fragCount
    rw [Nat.mod_eq_of_lt small]
    exact least

/-- The arithmetic is well defined exactly for the MTUs that hold more than the largest header, up to
where sizes wrap, and for the blocks that 65535 packets can hold. -/
theorem wellDefined_iff (mtu : UInt64) (block : Block) : WellDefined mtu.toNat block ↔
    23 ≤ mtu.toNat ∧ mtu.toNat < 2^64 - 28 ∧
      block.wire.length ≤ 65535 * (mtu.toNat - largestHeader mtu.toNat) := by
  have payload := maxPayload_iff mtu.toNat_lt
  constructor
  · intro ⟨positive,within,ceiling⟩
    obtain ⟨enough,lt⟩ := payload.mp ⟨positive,within⟩
    refine ⟨enough,lt,?_⟩
    rw [← maxPayload_add_header enough lt]
    exact (fragCount_isLeast_iff positive _).mp ceiling
  · intro ⟨enough,lt,covers⟩
    obtain ⟨positive,within⟩ := payload.mpr ⟨enough,lt⟩
    refine ⟨positive,within,(fragCount_isLeast_iff positive _).mpr ?_⟩
    rw [maxPayload_add_header enough lt]
    exact covers

/-- With an MTU of 22 octets nothing is left for the payload. -/
theorem no_room_for_payload : ¬∀ (mtu : UInt64) (block : Block), WellDefined mtu.toNat block := by
  intro always
  have positive := (always 22 (Block.make 5 [])).positive
  have none : (Slicer.new (22 : UInt64).toNat).maxPayload = 0 := by decide
  rw [none] at positive
  exact absurd positive (Nat.lt_irrefl 0)

end Ncfcc.Nfd.Face
