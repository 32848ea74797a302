import Mathlib.Tactic.SplitIfs
import Ncfcc.Library.Octets
import Ncfcc.Name

/-! The TLV encoding of blocks and the way back. Numbers need not be encoded as short as
possible to be read. -/
namespace Ncfcc.Encoding
open Ncfcc.Library

theorem varNumber_eq (number : Nat) : varNumber number =
    if number < 253 then bigEndian 1 number
    else if number < 2^16 then 253 :: bigEndian 2 number
    else if number < 2^32 then 254 :: bigEndian 4 number
    else 255 :: bigEndian 8 number := rfl

def sizeOfVarNumber (number : Nat) : Nat :=
  if number < 253 then 1 else if number < 2^16 then 3 else if number < 2^32 then 5 else 9

def nonNegativeInteger (number : Nat) : List UInt8 :=
  if number < 2^8 then bigEndian 1 number
  else if number < 2^16 then bigEndian 2 number
  else if number < 2^32 then bigEndian 4 number
  else bigEndian 8 number

def sizeOfNonNegativeInteger (number : Nat) : Nat :=
  if number < 2^8 then 1 else if number < 2^16 then 2 else if number < 2^32 then 4 else 8

/-- `readVarNumber` with an answer whether the number could be read. -/
def readVarNumber : List UInt8 → Option (Nat × List UInt8)
  | [] => none
  | first :: rest =>
    if first < 253 then some (first.toNat,rest)
    else
      let count := if first = 253 then 2 else if first = 254 then 4 else 8
      if rest.length < count then none else some (fromBigEndian (rest.take count),rest.drop count)

def readType (octets : List UInt8) : Option (Nat × List UInt8) :=
  (readVarNumber octets).filter fun result => result.1 < 2^32

/-- `readVarNumber` with an exception. -/
def throwVarNumber (octets : List UInt8) : Except String (Nat × List UInt8) :=
  if octets.isEmpty then .error "Empty buffer during TLV processing"
  else match readVarNumber octets with
    | none => .error "Insufficient data during TLV processing"
    | some result => .ok result

def throwType (octets : List UInt8) : Except String (Nat × List UInt8) := do
  let (number,rest) ← throwVarNumber octets
  if number < 2^32 then .ok (number,rest) else .error "TLV type code exceeds allowed maximum"

def readNonNegativeInteger (octets : List UInt8) : Except String Nat :=
  if octets.length ∈ [1,2,4,8] then .ok (fromBigEndian octets)
  else .error "Invalid length for nonNegativeInteger (only 1, 2, 4, and 8 are allowed)"

structure Block where
  type : Nat
  wire : List UInt8
  value : List UInt8
  deriving DecidableEq

namespace Block

/-- `fromBuffer`: the block at the start of the octets, which may go on behind it. -/
def fromBuffer (octets : List UInt8) : Option Block := do
  let (type,rest) ← readType octets
  let (length,rest) ← readVarNumber rest
  if rest.length < length then none
  else some ⟨type,octets.take (octets.length - rest.length + length),rest.take length⟩

def ofOctets (octets : List UInt8) : Except String Block := do
  let (type,rest) ← throwType octets
  let (length,rest) ← throwVarNumber rest
  if length = rest.length then .ok ⟨type,octets,rest⟩ else .error "TLV length doesn't match buffer length"

def blockFromValue (block : Block) : Except String Block :=
  if block.value.isEmpty then .error "Underlying value buffer is empty"
  else do
    let (type,rest) ← throwType block.value
    let (length,rest) ← throwVarNumber rest
    if length = rest.length then .ok ⟨type,block.value,rest⟩ else .error "TLV length mismatches buffer length"

/-- One round of `parse`: the element at the start and what follows it. -/
def element (octets : List UInt8) : Except String (Block × List UInt8) := do
  let (type,rest) ← throwType octets
  let (length,rest) ← throwVarNumber rest
  if rest.length < length then .error "TLV length exceeds buffer length"
  else .ok (⟨type,octets.take (octets.length - rest.length + length),rest.take length⟩,rest.drop length)

/-- The loop of `parse`, for at most as many rounds as `fuel`; every element has octets. -/
def elements : (fuel : Nat) → List UInt8 → Except String (List Block)
  | 0, _ => .ok []
  | fuel + 1, octets =>
    if octets.isEmpty then .ok []
    else do
      let (first,rest) ← element octets
      let others ← elements fuel rest
      .ok (first :: others)

def parse (block : Block) : Except String (List Block) := elements block.value.length block.value

end Block

/-- A block with its wire encoding, and nothing else in its buffer. -/
def Block.HasWire (block : Block) : Prop := Block.ofOctets block.wire = .ok block

instance (block : Block) : Decidable block.HasWire :=
  inferInstanceAs (Decidable (Block.ofOctets block.wire = .ok block))

/-! Round trips. -/

theorem varNumber_length (number : Nat) : (varNumber number).length = sizeOfVarNumber number := by
  rw [varNumber_eq]
  unfold sizeOfVarNumber
  split
  · exact bigEndian_length 1 number
  · split
    · simp
    · split <;> simp

theorem nonNegativeInteger_length (number : Nat) :
    (nonNegativeInteger number).length = sizeOfNonNegativeInteger number := by
  unfold nonNegativeInteger sizeOfNonNegativeInteger
  split
  · exact bigEndian_length 1 number
  · split
    · exact bigEndian_length 2 number
    · split <;> exact bigEndian_length _ number

theorem sizeOfVarNumber_mono {small large : Nat} (le : small ≤ large) :
    sizeOfVarNumber small ≤ sizeOfVarNumber large := by
  unfold sizeOfVarNumber
  split_ifs <;> omega

private theorem readVarNumber_cons (first : UInt8) (rest : List UInt8) : readVarNumber (first :: rest) =
    if first < 253 then some (first.toNat,rest)
    else if rest.length < (if first = 253 then 2 else if first = 254 then 4 else 8) then none
    else some (fromBigEndian (rest.take (if first = 253 then 2 else if first = 254 then 4 else 8)),
      rest.drop (if first = 253 then 2 else if first = 254 then 4 else 8)) := rfl

private theorem readVarNumber_marked (marker : UInt8) (count number : Nat) (rest : List UInt8)
    (big : ¬ marker < 253) (width : (if marker = 253 then 2 else if marker = 254 then 4 else 8) = count)
    (small : number < 256^count) :
    readVarNumber (marker :: (bigEndian count number ++ rest)) = some (number,rest) := by
  rw [readVarNumber_cons,if_neg big,width,if_neg (by simp),List.take_left' (bigEndian_length count number),
    List.drop_left' (bigEndian_length count number),fromBigEndian_of_lt small]

/-- What is read depends only on the octets before the rest. -/
theorem readVarNumber_split {octets rest : List UInt8} {number : Nat}
    (read : readVarNumber octets = some (number,rest)) :
    ∃ header, octets = header ++ rest ∧ ∀ other, readVarNumber (header ++ other) = some (number,other) := by
  cases octets with
  | nil => cases read
  | cons first octets =>
    rw [readVarNumber_cons] at read
    split at read
    · rename_i small
      cases read
      refine ⟨[first],rfl,fun other => ?_⟩
      rw [List.singleton_append,readVarNumber_cons,if_pos small]
    · rename_i large
      generalize width : (if first = 253 then 2 else if first = 254 then 4 else 8) = count at read
      split at read
      · cases read
      · rename_i enough
        cases read
        have taken : (octets.take count).length = count := List.length_take_of_le (not_lt.mp enough)
        refine ⟨first :: octets.take count,?_,fun other => ?_⟩
        · rw [List.cons_append,List.take_append_drop]
        · rw [List.cons_append,readVarNumber_cons,if_neg large,width,if_neg (by rw [List.length_append]; omega),
            List.take_left' taken,List.drop_left' taken]

private theorem readType_split {octets rest : List UInt8} {number : Nat} (read : readType octets = some (number,rest)) :
    ∃ header, octets = header ++ rest ∧ ∀ other, readType (header ++ other) = some (number,other) := by
  obtain ⟨whole,small⟩ := Option.filter_eq_some_iff.mp read
  obtain ⟨header,split,others⟩ := readVarNumber_split whole
  refine ⟨header,split,fun other => ?_⟩
  unfold readType
  rw [others other]
  exact Option.filter_some_pos small

private theorem readVarNumber_varNumber (number : Nat) (rest : List UInt8) (small : number < 2^64) :
    readVarNumber (varNumber number ++ rest) = some (number,rest) := by
  rw [varNumber_eq]
  split
  · rename_i tiny
    have octet : (UInt8.ofNat number).toNat = number := UInt8.toNat_ofNat'.trans (Nat.mod_eq_of_lt (by omega))
    have less : UInt8.ofNat number < 253 := by
      rw [UInt8.lt_iff_toNat_lt,octet]
      exact tiny
    have single : bigEndian 1 number = [UInt8.ofNat number] := by
      rw [bigEndian_succ,pow_zero,Nat.div_one]
      rfl
    rw [single,List.singleton_append,readVarNumber_cons,if_pos less,octet]
  · split
    · exact readVarNumber_marked 253 2 number rest (by decide) rfl (by omega)
    · split
      · exact readVarNumber_marked 254 4 number rest (by decide) rfl (by omega)
      · exact readVarNumber_marked 255 8 number rest (by decide) rfl (by omega)

theorem readNonNegativeInteger_nonNegativeInteger {number : Nat} (small : number < 2^64) :
    readNonNegativeInteger (nonNegativeInteger number) = .ok number := by
  have width := nonNegativeInteger_length number
  have value : fromBigEndian (nonNegativeInteger number) = number := by
    unfold nonNegativeInteger
    split
    · exact fromBigEndian_of_lt (by omega)
    · split
      · exact fromBigEndian_of_lt (by omega)
      · split <;> exact fromBigEndian_of_lt (by omega)
  unfold readNonNegativeInteger
  rw [if_pos,value]
  rw [width]
  unfold sizeOfNonNegativeInteger
  split_ifs <;> decide

theorem bind_eq_ok {α β : Type} {first : Except String α} {second : α → Except String β} {result : β} :
    (first >>= second) = .ok result ↔ ∃ middle, first = .ok middle ∧ second middle = .ok result := by
  cases first <;> simp [bind,Except.bind]

theorem throwVarNumber_eq_ok {octets : List UInt8} {result : Nat × List UInt8} :
    throwVarNumber octets = .ok result ↔ readVarNumber octets = some result := by
  unfold throwVarNumber
  cases octets with
  | nil => simp [readVarNumber]
  | cons first rest => cases readVarNumber (first :: rest) <;> simp

theorem throwType_eq_ok {octets : List UInt8} {result : Nat × List UInt8} :
    throwType octets = .ok result ↔ readType octets = some result := by
  unfold throwType readType
  rw [Option.filter_eq_some_iff,← throwVarNumber_eq_ok]
  cases throwVarNumber octets with
  | error message => simp [bind,Except.bind]
  | ok read =>
    change (if read.1 < 2^32 then Except.ok (read.1,read.2) else _) = _ ↔ _
    split
    · rename_i small
      simp only [Except.ok.injEq,Prod.mk.eta,decide_eq_true_eq]
      constructor
      · rintro rfl
        exact ⟨rfl,small⟩
      · exact And.left
    · rename_i large
      simp only [reduceCtorEq,Except.ok.injEq,decide_eq_true_eq,false_iff,not_and]
      rintro rfl
      exact large

private theorem throwVarNumber_varNumber (number : Nat) (rest : List UInt8) (small : number < 2^64) :
    throwVarNumber (varNumber number ++ rest) = .ok (number,rest) :=
  throwVarNumber_eq_ok.mpr (readVarNumber_varNumber number rest small)

private theorem throwType_varNumber (number : Nat) (rest : List UInt8) (small : number < 2^32) :
    throwType (varNumber number ++ rest) = .ok (number,rest) := by
  rw [throwType_eq_ok,readType,readVarNumber_varNumber number rest (by omega)]
  exact Option.filter_some_pos (decide_eq_true small)

namespace Block

/-- The block of a type and a value, encoded as short as possible. -/
def make (type : Nat) (value : List UInt8) : Block :=
  ⟨type,varNumber type ++ (varNumber value.length ++ value),value⟩

theorem make_length (type : Nat) (value : List UInt8) : (make type value).wire.length =
    sizeOfVarNumber type + (sizeOfVarNumber value.length + value.length) := by
  unfold make
  rw [List.length_append,List.length_append,varNumber_length,varNumber_length]

private theorem element_make (type : Nat) (value rest : List UInt8) (known : type < 2^32) (small : value.length < 2^64) :
    element ((make type value).wire ++ rest) = .ok (make type value,rest) := by
  unfold element make
  rw [List.append_assoc,List.append_assoc,throwType_varNumber type _ known]
  change (throwVarNumber (varNumber value.length ++ (value ++ rest)) >>= _) = _
  rw [throwVarNumber_varNumber value.length _ small]
  change (if (value ++ rest).length < value.length then _ else _) = _
  rw [if_neg (by simp),List.take_left,List.drop_left]
  have whole : varNumber type ++ (varNumber value.length ++ (value ++ rest)) =
      (varNumber type ++ (varNumber value.length ++ value)) ++ rest := by
    simp only [List.append_assoc]
  rw [whole,List.take_left']
  simp only [List.length_append]
  omega

theorem elements_make (parts : List (Nat × List UInt8))
    (readable : ∀ part ∈ parts, part.1 < 2^32 ∧ part.2.length < 2^64) (fuel : Nat) (enough : parts.length ≤ fuel) :
    elements fuel (parts.flatMap fun part => (make part.1 part.2).wire) =
      .ok (parts.map fun part => make part.1 part.2) := by
  induction parts generalizing fuel with
  | nil =>
    cases fuel with
    | zero => rfl
    | succ fuel => rfl
  | cons part parts ih =>
    obtain ⟨fuel,rfl⟩ : ∃ rest, fuel = rest + 1 := ⟨fuel - 1,by rw [List.length_cons] at enough; omega⟩
    rw [List.forall_mem_cons] at readable
    rw [List.length_cons] at enough
    have some_octets : ((make part.1 part.2).wire ++ parts.flatMap fun part => (make part.1 part.2).wire).isEmpty = false := by
      rw [← Bool.not_eq_true,List.isEmpty_iff]
      intro empty
      have length := congrArg List.length empty
      rw [List.length_append,make_length] at length
      have octet : 0 < sizeOfVarNumber part.1 := by
        unfold sizeOfVarNumber
        split_ifs <;> decide
      rw [List.length_nil] at length
      omega
    rw [List.flatMap_cons,elements,some_octets]
    change (element _ >>= _) = _
    rw [element_make part.1 part.2 _ readable.1.1 readable.1.2]
    change (elements fuel _ >>= _) = _
    rw [ih readable.2 fuel (by omega)]
    rfl

theorem hasWire_make (type : Nat) (value : List UInt8) (known : type < 2^32) (small : value.length < 2^64) :
    (make type value).HasWire := by
  unfold HasWire ofOctets make
  rw [throwType_varNumber type _ known]
  change (throwVarNumber (varNumber value.length ++ value) >>= _) = _
  rw [throwVarNumber_varNumber value.length _ small]
  exact if_pos rfl

private theorem ofOctets_eq_ok {octets : List UInt8} {block : Block} (read : ofOctets octets = .ok block) :
    ∃ rest, throwType octets = .ok (block.type,rest) ∧
      throwVarNumber rest = .ok (block.value.length,block.value) ∧ block.wire = octets := by
  unfold ofOctets at read
  obtain ⟨first,typed,read⟩ := bind_eq_ok.mp read
  obtain ⟨second,sized,read⟩ := bind_eq_ok.mp read
  dsimp only at sized read
  split at read
  · rename_i same
    cases read
    refine ⟨first.2,typed,?_,rfl⟩
    rw [sized,← same]
  · cases read

theorem fromBuffer_of_ofOctets {octets : List UInt8} {block : Block} (read : ofOctets octets = .ok block) :
    fromBuffer octets = some block := by
  obtain ⟨rest,typed,sized,wire⟩ := ofOctets_eq_ok read
  rw [throwType_eq_ok] at typed
  rw [throwVarNumber_eq_ok] at sized
  unfold fromBuffer
  rw [typed]
  change (readVarNumber rest >>= _) = _
  rw [sized]
  change (if block.value.length < block.value.length then _ else _) = _
  rw [if_neg (lt_irrefl _),List.take_length,List.take_of_length_le (by omega),← wire]

/-- A block that was read has just the octets that were read for it. -/
theorem hasWire_of_fromBuffer {octets : List UInt8} {block : Block} (read : fromBuffer octets = some block) :
    block.HasWire := by
  unfold fromBuffer at read
  obtain ⟨first,typed,read⟩ := Option.bind_eq_some_iff.mp read
  obtain ⟨second,sized,read⟩ := Option.bind_eq_some_iff.mp read
  dsimp only at sized read
  split at read
  · cases read
  · rename_i enough
    cases read
    obtain ⟨typeHeader,typeSplit,typeRead⟩ := readType_split typed
    obtain ⟨sizeHeader,sizeSplit,sizeRead⟩ := readVarNumber_split sized
    have front : octets.length - second.2.length = typeHeader.length + sizeHeader.length := by
      rw [typeSplit,sizeSplit,List.length_append,List.length_append]
      omega
    have wire : octets.take (octets.length - second.2.length + second.1) =
        typeHeader ++ (sizeHeader ++ second.2.take second.1) := by
      rw [front,typeSplit,sizeSplit,Nat.add_assoc,List.take_length_add_append,List.take_length_add_append]
    unfold HasWire ofOctets
    dsimp only
    rw [wire,throwType_eq_ok.mpr (typeRead _)]
    change (throwVarNumber (sizeHeader ++ second.2.take second.1) >>= _) = _
    rw [throwVarNumber_eq_ok.mpr (sizeRead _)]
    exact if_pos (List.length_take_of_le (not_lt.mp enough)).symm

theorem blockFromValue_of_ofOctets {outer block : Block} (read : ofOctets outer.value = .ok block) :
    outer.blockFromValue = .ok block := by
  obtain ⟨rest,typed,sized,wire⟩ := ofOctets_eq_ok read
  unfold blockFromValue
  rw [if_neg]
  · rw [typed]
    change (throwVarNumber rest >>= _) = _
    rw [sized]
    change (if block.value.length = block.value.length then _ else _) = _
    rw [if_pos rfl,← wire]
  · intro empty
    rw [List.isEmpty_iff.mp empty] at typed
    cases typed

/-! What is parsed. -/

theorem wire_ne_nil {block : Block} (wired : block.HasWire) : block.wire ≠ [] := by
  intro empty
  unfold HasWire at wired
  rw [empty] at wired
  cases wired

/-- An element is read off the octets that start with its encoding. -/
theorem element_eq_ok {octets rest : List UInt8} {block : Block} :
    element octets = .ok (block,rest) ↔ block.HasWire ∧ octets = block.wire ++ rest := by
  constructor
  · intro read
    unfold element at read
    obtain ⟨first,typed,read⟩ := bind_eq_ok.mp read
    obtain ⟨second,sized,read⟩ := bind_eq_ok.mp read
    dsimp only at sized read
    split at read
    · cases read
    · rename_i enough
      cases read
      rw [throwType_eq_ok] at typed
      rw [throwVarNumber_eq_ok] at sized
      have decoded : fromBuffer octets =
          some ⟨first.1,octets.take (octets.length - second.2.length + second.1),second.2.take second.1⟩ := by
        unfold fromBuffer
        rw [typed]
        change (readVarNumber first.2 >>= _) = _
        rw [sized]
        exact if_neg enough
      refine ⟨hasWire_of_fromBuffer decoded,?_⟩
      obtain ⟨typeHeader,typeSplit,-⟩ := readType_split typed
      obtain ⟨sizeHeader,sizeSplit,-⟩ := readVarNumber_split sized
      have whole : octets = (typeHeader ++ sizeHeader) ++ second.2 := by
        rw [typeSplit,sizeSplit,List.append_assoc]
      have front : octets.length - second.2.length + second.1 = (typeHeader ++ sizeHeader).length + second.1 := by
        rw [whole,List.length_append]
        omega
      rw [front]
      conv_rhs => rw [whole]
      rw [List.take_length_add_append,List.append_assoc,List.take_append_drop,← whole]
  · rintro ⟨wired,rfl⟩
    obtain ⟨tail,typed,sized,-⟩ := ofOctets_eq_ok wired
    obtain ⟨typeHeader,typeSplit,typeRead⟩ := readType_split (throwType_eq_ok.mp typed)
    obtain ⟨sizeHeader,sizeSplit,sizeRead⟩ := readVarNumber_split (throwVarNumber_eq_ok.mp sized)
    have wire : block.wire = (typeHeader ++ sizeHeader) ++ block.value := by
      rw [typeSplit,sizeSplit,List.append_assoc]
    have all : block.wire ++ rest = typeHeader ++ (sizeHeader ++ (block.value ++ rest)) := by
      rw [wire]
      simp only [List.append_assoc]
    have front : (block.wire ++ rest).length - (block.value ++ rest).length + block.value.length =
        block.wire.length := by
      rw [wire]
      simp only [List.length_append]
      omega
    unfold element
    rw [throwType_eq_ok.mpr (all ▸ typeRead (sizeHeader ++ (block.value ++ rest)))]
    change (throwVarNumber (sizeHeader ++ (block.value ++ rest)) >>= _) = _
    rw [throwVarNumber_eq_ok.mpr (sizeRead (block.value ++ rest))]
    change (if (block.value ++ rest).length < block.value.length then _ else _) = _
    rw [if_neg (by simp),front,List.take_left,List.take_left,List.drop_left]

private theorem no_elements {blocks : List Block} :
    (Except.ok [] : Except String (List Block)) = .ok blocks ↔
      (∀ block ∈ blocks, block.HasWire) ∧ [] = blocks.flatMap wire := by
  rw [Except.ok.injEq]
  constructor
  · rintro rfl
    exact ⟨fun block member => absurd member List.not_mem_nil,rfl⟩
  · rintro ⟨wired,nothing⟩
    cases blocks with
    | nil => rfl
    | cons first others =>
      have bare := (List.append_eq_nil_iff.mp nothing.symm).1
      exact absurd bare (wire_ne_nil (wired first List.mem_cons_self))

private theorem elements_eq_ok {fuel : Nat} {octets : List UInt8} (enough : octets.length ≤ fuel) {blocks : List Block} :
    elements fuel octets = .ok blocks ↔ (∀ block ∈ blocks, block.HasWire) ∧ octets = blocks.flatMap wire := by
  induction fuel generalizing octets blocks with
  | zero =>
    rw [List.length_eq_zero_iff.mp (Nat.le_zero.mp enough)]
    exact no_elements
  | succ fuel ih =>
    cases octets with
    | nil => exact no_elements
    | cons head tail =>
      have shorter : ∀ {block : Block} {rest : List UInt8}, block.HasWire → head :: tail = block.wire ++ rest →
          rest.length ≤ fuel := by
        intro block rest wired whole
        have positive := List.length_pos_iff.mpr (wire_ne_nil wired)
        have lengths := congrArg List.length whole
        rw [List.length_append] at lengths
        omega
      change (element (head :: tail) >>= _) = _ ↔ _
      constructor
      · intro read
        obtain ⟨⟨first,rest⟩,one,read⟩ := bind_eq_ok.mp read
        obtain ⟨others,more,read⟩ := bind_eq_ok.mp read
        cases read
        obtain ⟨wired,whole⟩ := element_eq_ok.mp one
        obtain ⟨all,same⟩ := (ih (shorter wired whole)).mp more
        refine ⟨List.forall_mem_cons.mpr ⟨wired,all⟩,?_⟩
        rw [List.flatMap_cons,← same]
        exact whole
      · rintro ⟨wired,whole⟩
        cases blocks with
        | nil => cases whole
        | cons first others =>
          rw [List.flatMap_cons] at whole
          obtain ⟨here,all⟩ := List.forall_mem_cons.mp wired
          refine bind_eq_ok.mpr ⟨⟨first,others.flatMap wire⟩,element_eq_ok.mpr ⟨here,whole⟩,?_⟩
          exact bind_eq_ok.mpr ⟨others,(ih (shorter here whole)).mpr ⟨all,rfl⟩,rfl⟩

theorem parse_eq_ok {block : Block} {blocks : List Block} :
    block.parse = .ok blocks ↔ (∀ inner ∈ blocks, inner.HasWire) ∧ block.value = blocks.flatMap wire :=
  elements_eq_ok (Nat.le_refl _)

end Block

end Ncfcc.Encoding
