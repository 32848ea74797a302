import Ncfcc.Nfd.Face.Ndnlp

/-! The grammar of the packets of the link protocol, and the parser that should accept it. -/
namespace Ncfcc.Nfd.Face
open Ncfcc.Library Ncfcc.Encoding

def IsInteger (block : Block) (number : Nat) : Prop :=
  block.value.length ∈ [1,2,4,8] ∧ fromBigEndian block.value = number

/-- The elements at both ends of a packet: a sequence number of eight octets and a payload. -/
structure Framed (sequence payload : Block) : Prop where
  sequenceWire : sequence.HasWire
  sequenceType : sequence.type = 81
  sequenceSize : sequence.value.length = 8
  payloadWire : payload.HasWire
  payloadType : payload.type = 84

/-- The packets of the grammar, with their fields. -/
inductive Packet (wire : Block) : NdnlpData → Prop
  | single (sequence payload : Block) (type : wire.type = 80) (framed : Framed sequence payload)
      (octets : wire.value = sequence.wire ++ payload.wire) :
      Packet wire ⟨UInt64.ofNat (fromBigEndian sequence.value),0,1,payload⟩
  | fragment (sequence index count payload : Block) (fragIndex fragCount : Nat) (type : wire.type = 80)
      (framed : Framed sequence payload) (indexWire : index.HasWire) (indexType : index.type = 82)
      (indexValue : IsInteger index fragIndex) (countWire : count.HasWire) (countType : count.type = 83)
      (countValue : IsInteger count fragCount) (inside : fragIndex < fragCount) (fits : fragCount ≤ 65535)
      (octets : wire.value = sequence.wire ++ (index.wire ++ (count.wire ++ payload.wire))) :
      Packet wire ⟨UInt64.ofNat (fromBigEndian sequence.value),fragIndex,fragCount,payload⟩

/-- The parser reports with a result what the octets are, and accepts those of the grammar. -/
def Reports (wire : Block) : Prop :=
  ∃ result, NdnlpData.fromBlock wire = .ok result ∧ ∀ pkt, result = some pkt ↔ Packet wire pkt

/-- The octets inside are elements, and the numbers that are read have one of the sizes. -/
def Readable (wire : Block) : Prop :=
  wire.type = 80 → ∃ elements, wire.parse = .ok elements ∧ ∀ sequence index count payload,
    elements = [sequence,index,count,payload] → sequence.type = 81 → sequence.value.length = 8 → payload.type = 84 →
      index.type = 82 → index.value.length ∈ [1,2,4,8] ∧
        (fromBigEndian index.value ≤ 65535 → count.type = 83 → count.value.length ∈ [1,2,4,8])

/-! What is made of the elements. -/

def fragmentFields (sequence index count payload : Block) : Except String (Option NdnlpData) :=
  if index.type ≠ 82 then .ok none
  else readNonNegativeInteger index.value >>= fun fragIndex =>
    if 65535 < fragIndex ∨ count.type ≠ 83 then .ok none
    else readNonNegativeInteger count.value >>= fun fragCount =>
      .ok (if 65535 < fragCount ∨ fragCount ≤ fragIndex then none
        else some ⟨UInt64.ofNat (fromBigEndian sequence.value),fragIndex,fragCount,payload⟩)

def ofElements : List Block → Except String (Option NdnlpData)
  | [sequence,payload] => .ok (if sequence.type = 81 ∧ sequence.value.length = 8 ∧ payload.type = 84
      then some ⟨UInt64.ofNat (fromBigEndian sequence.value),0,1,payload⟩ else none)
  | [sequence,index,count,payload] => if sequence.type = 81 ∧ sequence.value.length = 8 ∧ payload.type = 84
      then fragmentFields sequence index count payload else .ok none
  | _ => .ok none

private theorem unframed {sequence payload : Block}
    (bare : ¬(sequence.type = 81 ∧ sequence.value.length = 8 ∧ payload.type = 84)) :
    sequence.type ≠ 81 ∨ (sequence.type = 81 ∧ sequence.value.length ≠ 8) ∨
      (sequence.type = 81 ∧ sequence.value.length = 8 ∧ payload.type ≠ 84) := by
  by_cases first : sequence.type = 81
  · by_cases size : sequence.value.length = 8
    · exact Or.inr (Or.inr ⟨first,size,fun last => bare ⟨first,size,last⟩⟩)
    · exact Or.inr (Or.inl ⟨first,size⟩)
  · exact Or.inl first

private theorem fromBlock_elements {wire : Block} {elements : List Block} (type : wire.type = 80)
    (parsed : wire.parse = .ok elements) : NdnlpData.fromBlock wire = ofElements elements := by
  unfold NdnlpData.fromBlock
  rw [if_neg (not_not.mpr type),parsed]
  match elements with
  | [] => rfl
  | [only] => rfl
  | [sequence,payload] =>
    by_cases framed : sequence.type = 81 ∧ sequence.value.length = 8 ∧ payload.type = 84
    · simp [ofElements,framed,pure,Except.pure,bind,Except.bind]
    · rcases unframed framed with other | other | other <;>
        simp [ofElements,other,pure,Except.pure,bind,Except.bind]
  | [sequence,middle,payload] =>
    by_cases framed : sequence.type = 81 ∧ sequence.value.length = 8 ∧ payload.type = 84
    · simp [ofElements,framed,pure,Except.pure,bind,Except.bind]
    · rcases unframed framed with other | other | other <;>
        simp [ofElements,other,pure,Except.pure,bind,Except.bind]
  | [sequence,index,count,payload] =>
    by_cases framed : sequence.type = 81 ∧ sequence.value.length = 8 ∧ payload.type = 84
    · simp only [ofElements,if_pos framed]
      unfold fragmentFields
      by_cases second : index.type = 82
      · cases number : readNonNegativeInteger index.value with
        | error message => simp [framed,second,number,bind,Except.bind]
        | ok fragIndex =>
          by_cases large : 65535 < fragIndex
          · simp [framed,second,number,large,pure,Except.pure,bind,Except.bind]
          · by_cases third : count.type = 83
            · cases total : readNonNegativeInteger count.value with
              | error message => simp [framed,second,number,large,third,total,bind,Except.bind]
              | ok fragCount =>
                by_cases big : 65535 < fragCount
                · simp [framed,second,number,large,third,total,big,pure,Except.pure,bind,Except.bind]
                · by_cases outside : fragCount ≤ fragIndex
                  · simp [framed,second,number,large,third,total,big,outside,pure,Except.pure,bind,Except.bind]
                  · simp [framed,second,number,large,third,total,big,outside,pure,Except.pure,bind,Except.bind]
            · simp [framed,second,number,large,third,pure,Except.pure,bind,Except.bind]
      · simp [framed,second,pure,Except.pure,bind,Except.bind]
    · rcases unframed framed with other | other | other <;>
        simp [ofElements,other,pure,Except.pure,bind,Except.bind]
  | sequence :: second :: third :: fourth :: fifth :: others =>
    obtain ⟨payload,last⟩ : ∃ payload, (sequence :: second :: third :: fourth :: fifth :: others).getLast? = some payload :=
      ⟨_,List.getLast?_eq_some_getLast (List.cons_ne_nil _ _)⟩
    by_cases framed : sequence.type = 81 ∧ sequence.value.length = 8 ∧ payload.type = 84
    · simp [ofElements,framed,last,pure,Except.pure,bind,Except.bind]
    · rcases unframed framed with other | other | other <;>
        simp [ofElements,other,last,pure,Except.pure,bind,Except.bind]

private theorem readNonNegativeInteger_eq_ok {block : Block} {number : Nat} :
    readNonNegativeInteger block.value = .ok number ↔ IsInteger block number := by
  unfold readNonNegativeInteger IsInteger
  split
  · rename_i size
    rw [and_iff_right size,Except.ok.injEq]
  · rename_i size
    exact iff_of_false nofun fun both => size both.1

private theorem fragmentFields_eq_some {sequence index count payload : Block} {pkt : NdnlpData} :
    fragmentFields sequence index count payload = .ok (some pkt) ↔
      ∃ fragIndex fragCount, index.type = 82 ∧ IsInteger index fragIndex ∧ count.type = 83 ∧
        IsInteger count fragCount ∧ fragIndex < fragCount ∧ fragCount ≤ 65535 ∧
        pkt = ⟨UInt64.ofNat (fromBigEndian sequence.value),fragIndex,fragCount,payload⟩ := by
  unfold fragmentFields
  constructor
  · intro accepted
    split at accepted
    · cases accepted
    · rename_i second
      obtain ⟨fragIndex,number,accepted⟩ := bind_eq_ok.mp accepted
      split at accepted
      · cases accepted
      · rename_i third
        obtain ⟨fragCount,total,accepted⟩ := bind_eq_ok.mp accepted
        rw [not_or,not_not] at third
        split at accepted
        · cases accepted
        · rename_i within
          cases accepted
          rw [not_or,not_lt,not_le] at within
          exact ⟨fragIndex,fragCount,not_not.mp second,readNonNegativeInteger_eq_ok.mp number,third.2,
            readNonNegativeInteger_eq_ok.mp total,within.2,within.1,rfl⟩
  · rintro ⟨fragIndex,fragCount,second,number,third,total,inside,fits,rfl⟩
    rw [if_neg (not_not.mpr second)]
    refine bind_eq_ok.mpr ⟨fragIndex,readNonNegativeInteger_eq_ok.mpr number,?_⟩
    rw [if_neg (not_or.mpr ⟨by omega,not_not.mpr third⟩)]
    refine bind_eq_ok.mpr ⟨fragCount,readNonNegativeInteger_eq_ok.mpr total,?_⟩
    rw [if_neg (by omega)]

/-- The parser accepts what the grammar accepts, with the same fields. -/
theorem fromBlock_eq_some {wire : Block} {pkt : NdnlpData} :
    NdnlpData.fromBlock wire = .ok (some pkt) ↔ Packet wire pkt := by
  constructor
  · intro accepted
    by_cases type : wire.type = 80
    · cases parsed : wire.parse with
      | error message =>
        unfold NdnlpData.fromBlock at accepted
        rw [if_neg (not_not.mpr type),parsed] at accepted
        cases accepted
      | ok elements =>
        rw [fromBlock_elements type parsed] at accepted
        obtain ⟨wired,octets⟩ := Block.parse_eq_ok.mp parsed
        unfold ofElements at accepted
        split at accepted
        · rename_i sequence payload
          split at accepted
          · rename_i framed
            cases accepted
            obtain ⟨first,size,last⟩ := framed
            refine .single sequence payload type ⟨wired _ ?_,first,size,wired _ ?_,last⟩ ?_
            · simp
            · simp
            · simpa using octets
          · cases accepted
        · rename_i sequence index count payload
          split at accepted
          · rename_i framed
            obtain ⟨first,size,last⟩ := framed
            obtain ⟨fragIndex,fragCount,second,number,third,total,inside,fits,rfl⟩ := fragmentFields_eq_some.mp accepted
            refine .fragment sequence index count payload fragIndex fragCount type ⟨wired _ ?_,first,size,wired _ ?_,last⟩
              (wired _ ?_) second number (wired _ ?_) third total inside fits ?_
            · simp
            · simp
            · simp
            · simp
            · simpa using octets
          · cases accepted
        · cases accepted
    · unfold NdnlpData.fromBlock at accepted
      rw [if_pos type] at accepted
      cases accepted
  · intro packet
    cases packet with
    | single sequence payload type framed octets =>
      have parsed : wire.parse = .ok [sequence,payload] := by
        refine Block.parse_eq_ok.mpr ⟨?_,by simpa using octets⟩
        simp [framed.sequenceWire,framed.payloadWire]
      rw [fromBlock_elements type parsed]
      unfold ofElements
      dsimp only
      rw [if_pos ⟨framed.sequenceType,framed.sequenceSize,framed.payloadType⟩]
    | fragment sequence index count payload fragIndex fragCount type framed indexWire indexType indexValue countWire
        countType countValue inside fits octets =>
      have parsed : wire.parse = .ok [sequence,index,count,payload] := by
        refine Block.parse_eq_ok.mpr ⟨?_,by simpa using octets⟩
        simp [framed.sequenceWire,framed.payloadWire,indexWire,countWire]
      rw [fromBlock_elements type parsed]
      unfold ofElements
      dsimp only
      rw [if_pos ⟨framed.sequenceType,framed.sequenceSize,framed.payloadType⟩]
      exact fragmentFields_eq_some.mpr
        ⟨fragIndex,fragCount,indexType,indexValue,countType,countValue,inside,fits,rfl⟩

/-! Where no exception escapes. -/

private theorem fragmentFields_ok {sequence index count payload : Block} :
    (∃ result, fragmentFields sequence index count payload = .ok result) ↔
      (index.type = 82 → index.value.length ∈ [1,2,4,8] ∧
        (fromBigEndian index.value ≤ 65535 → count.type = 83 → count.value.length ∈ [1,2,4,8])) := by
  unfold fragmentFields
  by_cases second : index.type = 82
  · rw [if_neg (not_not.mpr second)]
    constructor
    · rintro ⟨result,given⟩ _
      obtain ⟨fragIndex,number,given⟩ := bind_eq_ok.mp given
      obtain ⟨size,value⟩ := readNonNegativeInteger_eq_ok.mp number
      refine ⟨size,fun small third => ?_⟩
      rw [value] at small
      rw [if_neg (not_or.mpr ⟨not_lt.mpr small,not_not.mpr third⟩)] at given
      obtain ⟨fragCount,total,-⟩ := bind_eq_ok.mp given
      exact (readNonNegativeInteger_eq_ok.mp total).1
    · intro sizes
      obtain ⟨size,both⟩ := sizes second
      have number := readNonNegativeInteger_eq_ok.mpr ⟨size,rfl⟩
      by_cases stops : 65535 < fromBigEndian index.value ∨ count.type ≠ 83
      · exact ⟨none,bind_eq_ok.mpr ⟨_,number,if_pos stops⟩⟩
      · obtain ⟨small,third⟩ := not_or.mp stops
        have total := readNonNegativeInteger_eq_ok.mpr ⟨both (not_lt.mp small) (not_not.mp third),rfl⟩
        exact ⟨_,bind_eq_ok.mpr ⟨_,number,(if_neg stops).trans (bind_eq_ok.mpr ⟨_,total,rfl⟩)⟩⟩
  · rw [if_pos second]
    exact iff_of_true ⟨none,rfl⟩ fun here => absurd here second

private theorem fromBlock_ok {wire : Block} : (∃ result, NdnlpData.fromBlock wire = .ok result) ↔ Readable wire := by
  unfold Readable
  by_cases type : wire.type = 80
  · rw [forall_prop_of_true type]
    cases parsed : wire.parse with
    | error message =>
      apply iff_of_false
      · rintro ⟨result,given⟩
        unfold NdnlpData.fromBlock at given
        rw [if_neg (not_not.mpr type),parsed] at given
        cases given
      · rintro ⟨elements,given,-⟩
        cases given
    | ok elements =>
      rw [fromBlock_elements type parsed]
      simp only [Except.ok.injEq,exists_eq_left']
      unfold ofElements
      split
      · exact iff_of_true ⟨_,rfl⟩ fun _ _ _ _ four => nomatch four
      · rename_i sequence index count payload
        by_cases framed : sequence.type = 81 ∧ sequence.value.length = 8 ∧ payload.type = 84
        · rw [if_pos framed,fragmentFields_ok]
          constructor
          · rintro sizes _ _ _ _ ⟨⟩ _ _ _
            exact sizes
          · intro sizes
            exact sizes _ _ _ _ rfl framed.1 framed.2.1 framed.2.2
        · rw [if_neg framed]
          refine iff_of_true ⟨none,rfl⟩ ?_
          rintro _ _ _ _ ⟨⟩ first size last
          exact absurd ⟨first,size,last⟩ framed
      · rename_i others
        refine iff_of_true ⟨none,rfl⟩ ?_
        intro sequence index count payload four
        exact absurd four (others sequence index count payload)
  · unfold NdnlpData.fromBlock
    rw [if_pos type]
    exact iff_of_true ⟨none,rfl⟩ fun here => absurd here type

/-- The parser reports what a block is exactly when the octets inside are elements and the
numbers it reads have one of the four sizes. -/
theorem reports_iff (wire : Block) : Reports wire ↔ Readable wire := by
  rw [← fromBlock_ok]
  constructor
  · rintro ⟨result,given,-⟩
    exact ⟨result,given⟩
  · rintro ⟨result,given⟩
    refine ⟨result,given,?_⟩
    intro pkt
    rw [← fromBlock_eq_some,given,Except.ok.injEq]

/-- A link-protocol packet whose inside ends in the middle of an element. -/
theorem truncated_throws : ¬∀ (octets : List UInt8) (wire : Block), Block.fromBuffer octets = some wire → Reports wire := by
  intro always
  obtain ⟨result,given,-⟩ := always [80,1,81] ⟨80,[80,1,81],[81]⟩ (by decide)
  have thrown : NdnlpData.fromBlock ⟨80,[80,1,81],[81]⟩ = .error "Empty buffer during TLV processing" := by decide
  rw [thrown] at given
  cases given

end Ncfcc.Nfd.Face
