import Ncfcc.NdnCxx.Successor
import Ncfcc.Nfd.Table.CsSearch

/-! The successors that the library computes are what the search of the content store takes them for,
as long as the last component has an octet that can be advanced. -/
namespace Ncfcc.Nfd.Table
open Ncfcc.Library Ncfcc.NdnCxx Ncfcc.Encoding

/-- A name with the TLVs of its components. -/
def tlvs (name : List NdnCxx.Component) : Name := name.map NdnCxx.Component.wireEncode

private theorem componentValue_header (type : UInt8) (length : Nat) (value : List UInt8) :
    componentValue (type :: (varNumber length ++ value)) = value := by
  rw [varNumber_eq]
  split
  · rename_i small
    have first : bigEndian 1 length = [UInt8.ofNat length] := by simp [bigEndian]
    have less : UInt8.ofNat length < 253 := by
      rw [UInt8.lt_iff_toNat_lt,UInt8.toNat_ofNat']
      exact (Nat.mod_le _ _).trans_lt small
    rw [first]
    exact if_pos less
  · split
    · exact List.drop_left' (bigEndian_length 2 length)
    · split
      · exact List.drop_left' (bigEndian_length 4 length)
      · exact List.drop_left' (bigEndian_length 8 length)

/-- Behind the TLV header are the octets that `Component::equals` compares. -/
theorem componentValue_wireEncode (component : NdnCxx.Component) : componentValue component.wireEncode = component.value := by
  have encoded : component.wireEncode = varNumber component.type ++ (varNumber component.value.length ++ component.value) := rfl
  rw [encoded]
  rcases component.formed with generic | ⟨digest,-⟩
  · rw [generic]
    exact componentValue_header _ _ _
  · rw [digest]
    exact componentValue_header _ _ _

theorem octets_tlvs (name : List NdnCxx.Component) : octets (tlvs name) = name.map NdnCxx.Component.value := by
  rw [octets,tlvs,List.map_map]
  exact List.map_congr_left fun component _ => componentValue_wireEncode component

/-- Octets in front stay when what is behind them can be advanced. -/
theorem advance_append (front : List UInt8) {value : List UInt8} (room : (advance value).2 = false) :
    advance (front ++ value) = (front ++ (advance value).1,false) := by
  induction front with
  | nil => exact Prod.ext rfl room
  | cons octet front ih =>
    rw [List.cons_append,advance_cons,ih]
    rfl

private theorem wireEncode_eq (component : NdnCxx.Component) : ∃ header, 2 ≤ header.length ∧
    ∀ other : NdnCxx.Component, other.type = component.type → other.value.length = component.value.length →
      other.wireEncode = header ++ other.value := by
  refine ⟨varNumber component.type ++ varNumber component.value.length,?_,?_⟩
  · have octets : ∀ number, 1 ≤ sizeOfVarNumber number := by
      intro number
      unfold sizeOfVarNumber
      split_ifs <;> decide
    rw [List.length_append,varNumber_length,varNumber_length]
    have first := octets component.type
    have second := octets component.value.length
    omega
  · intro other type length
    rw [List.append_assoc,← type,← length]
    rfl

/-- The TLVs of a component and its successor differ in the value only. -/
theorem wires_alike {component successor : NdnCxx.Component} (advanced : component.getSuccessor = .ok successor)
    (room : (advance component.value).2 = false) : ∃ header, 2 ≤ header.length ∧
      component.wireEncode = header ++ component.value ∧ successor.wireEncode = header ++ (advance component.value).1 := by
  obtain ⟨type,value⟩ := NdnCxx.Component.getSuccessor_eq_ok.mp advanced
  obtain ⟨header,long,encoded⟩ := wireEncode_eq component
  rw [room,if_neg Bool.false_ne_true,List.append_nil] at value
  refine ⟨header,long,encoded component rfl rfl,?_⟩
  rw [← value]
  exact encoded successor type (by rw [value,advance_length])

private theorem isImplicitSha256Digest_successor {component successor : NdnCxx.Component}
    (advanced : component.getSuccessor = .ok successor) (room : (advance component.value).2 = false) :
    isImplicitSha256Digest successor.wireEncode = isImplicitSha256Digest component.wireEncode := by
  obtain ⟨header,long,first,second⟩ := wires_alike advanced room
  unfold isImplicitSha256Digest
  rw [first,second,List.take_append_of_le_length long,List.take_append_of_le_length long,List.length_append,
    List.length_append,advance_length]

/-- What an order by two numbers makes of neighbours among the rest. -/
theorem tagged_next (tag other length size : Nat) {items below after : List Nat}
    (next : size = length → (items < after ↔ ¬ below < items)) :
    other :: size :: items < tag :: length :: after ↔ ¬ tag :: length :: below < other :: size :: items := by
  rw [List.cons_lt_cons_iff,List.cons_lt_cons_iff,List.cons_lt_cons_iff,List.cons_lt_cons_iff]
  rcases lt_trichotomy other tag with less | rfl | more
  · simp [less,less.ne',less.not_gt]
  · rcases lt_trichotomy size length with shorter | rfl | longer
    · simp [shorter,shorter.ne',shorter.not_gt]
    · simpa using next rfl
    · simp [longer,longer.ne',longer.not_gt]
  · simp [more.ne',more.not_gt,more]

private theorem adjacent_wires {component successor : NdnCxx.Component} (advanced : component.getSuccessor = .ok successor)
    (room : (advance component.value).2 = false) (other : Component) :
    componentKey other < componentKey successor.wireEncode ↔ componentKey other ≤ componentKey component.wireEncode := by
  obtain ⟨header,long,first,second⟩ := wires_alike advanced room
  have whole := advance_append header room
  rw [← first,← second] at whole
  have length : successor.wireEncode.length = component.wireEncode.length := by
    rw [first,second,List.length_append,List.length_append,advance_length]
  have head : successor.wireEncode.headD 0 = component.wireEncode.headD 0 := by
    rw [first,second]
    obtain ⟨start,rest,rfl⟩ := List.exists_cons_of_length_pos (Nat.lt_of_lt_of_le Nat.zero_lt_two long)
    rfl
  have next : other.length = component.wireEncode.length → (octetKey other < octetKey successor.wireEncode ↔
      ¬ octetKey component.wireEncode < octetKey other) := by
    intro same
    have result := advance_next same (congrArg Prod.snd whole)
    rwa [whole] at result
  rw [← not_lt,componentKey,componentKey,componentKey,head,length]
  exact tagged_next _ _ _ _ next

/-- The successor of a name is the one the search needs, unless all octets of the last component are 0xFF. -/
theorem isSuccessor_getSuccessor {name successor : List NdnCxx.Component} (nonempty : name ≠ [])
    (advanced : NdnCxx.Name.getSuccessor name = .ok successor)
    (room : (name.getLast nonempty).value ≠ List.replicate (name.getLast nonempty).value.length 0xFF) :
    IsSuccessor (tlvs name) (tlvs successor) := by
  have last := List.getLast?_eq_some_getLast nonempty
  have whole := List.dropLast_append_getLast nonempty
  unfold NdnCxx.Name.getSuccessor at advanced
  rw [last] at advanced
  dsimp only at advanced
  generalize name.getLast nonempty = component at advanced room whole
  cases next : component.getSuccessor with
  | error message =>
    rw [next] at advanced
    cases advanced
  | ok following =>
    rw [next] at advanced
    cases advanced
    have carry : (advance component.value).2 = false := by
      rw [Bool.eq_false_iff]
      exact fun overflow => room (advance_overflow overflow).2
    have wire : tlvs name = tlvs name.dropLast ++ [component.wireEncode] := by
      conv_lhs => rw [← whole]
      exact List.map_append
    have wires : tlvs (name.dropLast ++ [following]) = tlvs name.dropLast ++ [following.wireEncode] := List.map_append
    rw [wire,wires]
    refine ⟨fun other => ?_,?_,?_⟩
    · have between := between_iff componentKey_injective (adjacent_wires next carry) (tlvs name.dropLast) other
      rw [nameLess_iff,nameLess_iff,← between]
      have less : (tlvs name.dropLast ++ [component.wireEncode]).map componentKey <
          (tlvs name.dropLast ++ [following.wireEncode]).map componentKey :=
        nameLess_iff.mp (nameLess_of_component _ [] [] (componentLess_iff.mpr ((adjacent_wires next carry _).mpr (le_refl _))))
      by_cases before : other.map componentKey < (tlvs name.dropLast ++ [component.wireEncode]).map componentKey
      · exact iff_of_true (before.trans less) (Or.inl before)
      · exact ⟨fun below => Or.inr ⟨before,below⟩,fun either => (either.resolve_left before).2⟩
    · simp only [endsInDigest,List.getLast?_concat,Option.any_some]
      exact isImplicitSha256Digest_successor next carry
    · rw [List.dropLast_concat,List.dropLast_concat]

theorem isSuccessor_getSuccessor_one : IsSuccessor (tlvs [.generic [1]]) (tlvs [.generic [2]]) :=
  isSuccessor_getSuccessor (List.cons_ne_nil _ _) rfl (by decide)

end Ncfcc.Nfd.Table
