import Ncfcc.Encoding.Record
import Ncfcc.NdnCxx.ExcludeWire

/-! The wire encoding of Interests, with their selectors and key locators. What an object has read
before stays where a field is absent: the link object and the delegation selected in it. -/
namespace Ncfcc.NdnCxx.Wire
open Ncfcc.Encoding Ncfcc.Encoding.Block Ncfcc.Library Ncfcc.Library.Marks

namespace Tlv

abbrev Interest : Nat := 5
abbrev Data : Nat := 6
abbrev Selectors : Nat := 9
abbrev Nonce : Nat := 10
abbrev InterestLifetime : Nat := 12
abbrev MinSuffixComponents : Nat := 13
abbrev MaxSuffixComponents : Nat := 14
abbrev ChildSelector : Nat := 17
abbrev MustBeFresh : Nat := 18
abbrev Content : Nat := 21
abbrev KeyLocator : Nat := 28
abbrev KeyDigest : Nat := 29
abbrev SelectedDelegation : Nat := 32

end Tlv

/-- The elements of a name with their types, which are not looked at in reading a name. -/
abbrev Name := List (Nat × List UInt8)

namespace Name

def wireEncode (name : Name) : Block :=
  Block.make NdnCxx.Tlv.Name (name.flatMap fun component => (Block.make component.1 component.2).wire)

def wireDecode (wire : Block) : Except String Name :=
  if wire.type ≠ NdnCxx.Tlv.Name then .error "Unexpected TLV type when decoding Name"
  else wire.parse.map fun elements => elements.map fun element => (element.type,element.value)

end Name

/-- `unknown` is what a locator of another type is read as. -/
inductive KeyLocator
  | none
  | name (name : Name)
  | keyDigest (digest : Block)
  | unknown
  deriving DecidableEq

namespace KeyLocator

def wireEncode : KeyLocator → Except String Block
  | .none => .ok (Block.make Tlv.KeyLocator [])
  | .name named => .ok (Block.make Tlv.KeyLocator named.wireEncode.wire)
  | .keyDigest digest => .ok (Block.make Tlv.KeyLocator digest.wire)
  | .unknown => .error "Unsupported KeyLocator type"

def wireDecode (wire : Block) : Except String KeyLocator :=
  if wire.type ≠ Tlv.KeyLocator then .error "Unexpected TLV type during KeyLocator decoding"
  else do
    match ← wire.parse with
    | [] => .ok .none
    | first :: _ =>
      if first.type = NdnCxx.Tlv.Name then (Name.wireDecode first).map .name
      else if first.type = Tlv.KeyDigest then .ok (.keyDigest first)
      else .ok .unknown

end KeyLocator

/-- A number that is not given is negative. -/
structure Selectors where
  minSuffixComponents : Int
  maxSuffixComponents : Int
  publisherPublicKeyLocator : KeyLocator
  exclude : { entries : ExcludeMap // Descending entries }
  childSelector : Int
  mustBeFresh : Bool

def numberField (type : Nat) (number : Int) : Field :=
  (type,if 0 ≤ number then some (Block.make type (nonNegativeInteger number.toNat)) else none)

namespace Selectors

private theorem descending_nil : Descending ([] : ExcludeMap) := List.Pairwise.nil

def new : Selectors := ⟨-1,-1,.none,⟨[],descending_nil⟩,-1,false⟩

def isEmpty (selectors : Selectors) : Bool :=
  selectors.minSuffixComponents < 0 && selectors.maxSuffixComponents < 0 &&
    selectors.publisherPublicKeyLocator == .none && selectors.exclude.val.isEmpty && selectors.childSelector < 0 &&
    !selectors.mustBeFresh

def locatorField (keyLocator : KeyLocator) : Except String (Option Block) :=
  if keyLocator = .none then .ok none else keyLocator.wireEncode.map some

def excludeField (entries : ExcludeMap) : Except String (Option Block) :=
  if entries.isEmpty then .ok none else entries.wireEncode.map some

def fieldsWith (selectors : Selectors) (keyLocator exclude : Option Block) : List Field :=
  [numberField Tlv.MinSuffixComponents selectors.minSuffixComponents,
    numberField Tlv.MaxSuffixComponents selectors.maxSuffixComponents,(Tlv.KeyLocator,keyLocator),
    (NdnCxx.Tlv.Exclude,exclude),numberField Tlv.ChildSelector selectors.childSelector,
    (Tlv.MustBeFresh,if selectors.mustBeFresh then some (Block.make Tlv.MustBeFresh []) else none)]

def fields (selectors : Selectors) : Except String (List Field) := do
  let keyLocator ← locatorField selectors.publisherPublicKeyLocator
  let exclude ← excludeField selectors.exclude.val
  .ok (selectors.fieldsWith keyLocator exclude)

def wireEncode (selectors : Selectors) : Except String Block := selectors.fields.map (Block.record Tlv.Selectors)

/-- A number of 64 bits that is stored in one of so many. -/
def readNumber (bits : Nat) (default : Int) : Option Block → Except String Int
  | none => .ok default
  | some element => (readNonNegativeInteger element.value).map fun number => Int.bmod number (2^bits)

def readKeyLocator : Option Block → Except String KeyLocator
  | none => .ok .none
  | some element => KeyLocator.wireDecode element

def readExclude : Option Block → Except String { entries : ExcludeMap // Descending entries }
  | none => .ok ⟨[],descending_nil⟩
  | some element => (Exclude.read element).2.map fun _ => ⟨(Exclude.read element).1,Exclude.descending_read element⟩

def wireDecode (wire : Block) : Except String Selectors :=
  if wire.type ≠ Tlv.Selectors then .error "Unexpected TLV type when decoding Selectors"
  else do
    let elements ← wire.parse
    let minSuffixComponents ← readNumber 32 (-1) (find Tlv.MinSuffixComponents elements)
    let maxSuffixComponents ← readNumber 32 (-1) (find Tlv.MaxSuffixComponents elements)
    let publisherPublicKeyLocator ← readKeyLocator (find Tlv.KeyLocator elements)
    let exclude ← readExclude (find NdnCxx.Tlv.Exclude elements)
    let childSelector ← readNumber 32 (-1) (find Tlv.ChildSelector elements)
    .ok ⟨minSuffixComponents,maxSuffixComponents,publisherPublicKeyLocator,exclude,childSelector,
      (find Tlv.MustBeFresh elements).isSome⟩

end Selectors

/-- How many delegations a link object has. -/
def countDelegationsFromWire (link : Block) : Except String Nat := do
  let content ← Block.get Tlv.Content (← link.parse)
  return (← content.parse).length

structure Interest where
  name : Name
  selectors : Selectors
  nonce : Block
  /-- In milliseconds, negative if it is not given. -/
  interestLifetime : Int
  link : Option Block
  selectedDelegation : Option Nat

namespace Interest

def defaultInterestLifetime : Int := 4000

def selectorsField (selectors : Selectors) : Except String (Option Block) :=
  if selectors.isEmpty then .ok none else selectors.wireEncode.map some

def fieldsWith (interest : Interest) (selectors : Option Block) : List Field :=
  [(NdnCxx.Tlv.Name,some interest.name.wireEncode),(Tlv.Selectors,selectors),(Tlv.Nonce,some interest.nonce),
    numberField Tlv.InterestLifetime
      (if interest.interestLifetime = defaultInterestLifetime then -1 else interest.interestLifetime),
    (Tlv.Data,interest.link),
    (Tlv.SelectedDelegation,interest.link.bind fun _ => interest.selectedDelegation.map fun index =>
      Block.make Tlv.SelectedDelegation (nonNegativeInteger index))]

def fields (interest : Interest) : Except String (List Field) :=
  (selectorsField interest.selectors).map interest.fieldsWith

def wireEncode (interest : Interest) : Except String Block := interest.fields.map (Block.record Tlv.Interest)

def readSelectors : Option Block → Except String Selectors
  | none => .ok .new
  | some element => Selectors.wireDecode element

def readSelectedDelegation (link : Option Block) (known : Option Nat) : Option Block → Except String (Option Nat)
  | none => .ok known
  | some element =>
    match link with
    | none => .error "Interest contains selectedDelegation, but no LINK object"
    | some link => do
      let selectedDelegation ← readNonNegativeInteger element.value
      let count ← countDelegationsFromWire link
      if selectedDelegation < count then .ok (some selectedDelegation)
      else .error "Invalid selected delegation index when decoding Interest"

/-- Into an object that may have been read before. -/
def wireDecode (interest : Interest) (wire : Block) : Except String Interest := do
  let elements ← wire.parse
  if wire.type ≠ Tlv.Interest then .error "Unexpected TLV number when decoding Interest"
  else do
    let name ← Block.get NdnCxx.Tlv.Name elements >>= Name.wireDecode
    let selectors ← readSelectors (find Tlv.Selectors elements)
    let nonce ← Block.get Tlv.Nonce elements
    let interestLifetime ← Selectors.readNumber 64 defaultInterestLifetime (find Tlv.InterestLifetime elements)
    let link := (find Tlv.Data elements).or interest.link
    let selectedDelegation ← readSelectedDelegation link interest.selectedDelegation (find Tlv.SelectedDelegation elements)
    .ok ⟨name,selectors,nonce,interestLifetime,link,selectedDelegation⟩

end Interest

/-! What is encoded is read back. -/

def Name.Formed (name : Name) : Prop := ∀ component ∈ name, component.1 < 2^32

theorem Name.name_readBack {name : Name} (formed : name.Formed) (small : name.wireEncode.wire.length < 2^64) :
    Name.wireDecode name.wireEncode = .ok name := by
  have parsed : name.wireEncode.parse = .ok (name.map fun component => Block.make component.1 component.2) := by
    refine parse_eq_ok.mpr ⟨fun block inside => ?_,(List.flatMap_map ..).symm⟩
    obtain ⟨component,listed,rfl⟩ := List.mem_map.mp inside
    refine readable_make (formed component listed) (element_small inside ?_)
    rw [List.flatMap_map]
    exact value_small small
  have typed : ¬ name.wireEncode.type ≠ NdnCxx.Tlv.Name := not_not.mpr rfl
  rw [wireDecode,if_neg typed,parsed]
  refine congrArg Except.ok ?_
  change List.map _ (List.map _ name) = name
  rw [List.map_map]
  exact List.map_id _

def KeyLocator.Formed : KeyLocator → Prop
  | .none => True
  | .name named => named.Formed
  | .keyDigest digest => digest.type = Tlv.KeyDigest ∧ digest.HasWire
  | .unknown => True

theorem KeyLocator.keyLocator_readBack {keyLocator : KeyLocator} {wire : Block} (formed : keyLocator.Formed)
    (encoded : keyLocator.wireEncode = .ok wire) (small : wire.wire.length < 2^64) :
    KeyLocator.wireDecode wire = .ok keyLocator := by
  have typed : ∀ value, ¬ (Block.make Tlv.KeyLocator value).type ≠ Tlv.KeyLocator := fun _ => not_not.mpr rfl
  cases keyLocator with
  | none =>
    cases encoded
    rfl
  | unknown => cases encoded
  | name named =>
    cases encoded
    have inner : named.wireEncode.wire.length < 2^64 := value_small small
    have parsed : (Block.make Tlv.KeyLocator named.wireEncode.wire).parse = .ok [named.wireEncode] := by
      refine parse_eq_ok.mpr ⟨fun block inside => ?_,by simp [Block.make]⟩
      rw [List.mem_singleton.mp inside]
      exact readable_make (by decide) inner
    rw [wireDecode,if_neg (typed _),parsed]
    change (if named.wireEncode.type = NdnCxx.Tlv.Name then (Name.wireDecode named.wireEncode).map KeyLocator.name
      else if named.wireEncode.type = Tlv.KeyDigest then .ok (.keyDigest named.wireEncode) else .ok .unknown) = _
    have called : named.wireEncode.type = NdnCxx.Tlv.Name := rfl
    rw [if_pos called,Name.name_readBack formed inner]
    rfl
  | keyDigest digest =>
    cases encoded
    obtain ⟨digested,readable⟩ := formed
    have parsed : (Block.make Tlv.KeyLocator digest.wire).parse = .ok [digest] := by
      refine parse_eq_ok.mpr ⟨fun block inside => ?_,by simp [Block.make]⟩
      rwa [List.mem_singleton.mp inside]
    rw [wireDecode,if_neg (typed _),parsed]
    change (if digest.type = NdnCxx.Tlv.Name then (Name.wireDecode digest).map KeyLocator.name
      else if digest.type = Tlv.KeyDigest then .ok (.keyDigest digest) else .ok .unknown) = _
    rw [digested,if_neg (by decide),if_pos rfl]

theorem readNumber_numberField {bits : Nat} (type : Nat) {number default : Int} (small : number < 2^64)
    (fits : 2 * number < 2^bits) :
    Selectors.readNumber bits default (numberField type number).2 = .ok (if 0 ≤ number then number else default) := by
  unfold numberField
  split
  · rename_i given
    have read : readNonNegativeInteger (Block.make type (nonNegativeInteger number.toNat)).value = .ok number.toNat :=
      readNonNegativeInteger_nonNegativeInteger (by omega)
    have whole : Int.bmod (number.toNat : Int) (2^bits) = number := by
      rw [Int.toNat_of_nonneg given]
      refine Int.bmod_eq_of_le_mul_two ?_ ?_
      · have positive : (0 : Int) ≤ ((2^bits : Nat) : Int) := Int.natCast_nonneg _
        omega
      · rw [Nat.cast_pow,Nat.cast_ofNat,Int.mul_comm]
        exact fits
    dsimp only [Selectors.readNumber]
    rw [read]
    exact congrArg Except.ok whole
  · rfl

theorem numberField_made {type : Nat} {number : Int} (block : Block) (present : (numberField type number).2 = some block) :
    ∃ value, block = Block.make (numberField type number).1 value := by
  unfold numberField at present
  split at present
  · exact ⟨_,(Option.some.inj present).symm⟩
  · cases present

theorem KeyLocator.wireEncode_made {keyLocator : KeyLocator} {wire : Block} (encoded : keyLocator.wireEncode = .ok wire) :
    ∃ value, wire = Block.make Tlv.KeyLocator value := by
  cases keyLocator <;> cases encoded <;> exact ⟨_,rfl⟩

private theorem exclude_made {entries : ExcludeMap} {wire : Block} (encoded : entries.wireEncode = .ok wire) :
    ∃ value, wire = Block.make NdnCxx.Tlv.Exclude value := by
  unfold ExcludeMap.wireEncode at encoded
  split at encoded
  · cases encoded
  · cases encoded
    exact ⟨_,rfl⟩

namespace Selectors

private theorem fields_eq_ok {selectors : Selectors} {fields : List Field} (made : selectors.fields = .ok fields) :
    ∃ keyLocator exclude, fields = selectors.fieldsWith keyLocator exclude ∧
      (keyLocator = none ∧ selectors.publisherPublicKeyLocator = .none ∨
        ∃ wire, keyLocator = some wire ∧ selectors.publisherPublicKeyLocator.wireEncode = .ok wire) ∧
      (exclude = none ∧ selectors.exclude.val = [] ∨
        ∃ wire, exclude = some wire ∧ selectors.exclude.val.wireEncode = .ok wire) := by
  obtain ⟨keyLocator,located,made⟩ := bind_eq_ok.mp made
  obtain ⟨exclude,excluded,made⟩ := bind_eq_ok.mp made
  refine ⟨keyLocator,exclude,(Except.ok.inj made).symm,?_,?_⟩
  · unfold locatorField at located
    split at located
    · rename_i empty
      exact Or.inl ⟨(Except.ok.inj located).symm,empty⟩
    · obtain ⟨wire,encoded,same⟩ := map_eq_ok.mp located
      exact Or.inr ⟨wire,same.symm,encoded⟩
  · unfold excludeField at excluded
    split at excluded
    · rename_i empty
      exact Or.inl ⟨(Except.ok.inj excluded).symm,List.isEmpty_iff.mp empty⟩
    · obtain ⟨wire,encoded,same⟩ := map_eq_ok.mp excluded
      exact Or.inr ⟨wire,same.symm,encoded⟩

/-- Numbers that fit in an `int`, a locator and a filter that can be read back. -/
structure Formed (selectors : Selectors) : Prop where
  minSuffixComponents : selectors.minSuffixComponents < 2^31
  maxSuffixComponents : selectors.maxSuffixComponents < 2^31
  keyLocator : selectors.publisherPublicKeyLocator.Formed
  exclude : selectors.exclude.val.Plain
  childSelector : selectors.childSelector < 2^31

/-- What is not given is read as -1. -/
def received (selectors : Selectors) : Selectors :=
  { selectors with
    minSuffixComponents := if 0 ≤ selectors.minSuffixComponents then selectors.minSuffixComponents else -1
    maxSuffixComponents := if 0 ≤ selectors.maxSuffixComponents then selectors.maxSuffixComponents else -1
    childSelector := if 0 ≤ selectors.childSelector then selectors.childSelector else -1 }

private theorem selectors_readBack {selectors : Selectors} {wire : Block} (formed : selectors.Formed)
    (encoded : selectors.wireEncode = .ok wire) (small : wire.wire.length < 2^64) : wireDecode wire = .ok selectors.received := by
  obtain ⟨fields,made,rfl⟩ := map_eq_ok.mp encoded
  obtain ⟨keyLocator,exclude,rfl,located,excluded⟩ := fields_eq_ok made
  have known : ∀ field ∈ selectors.fieldsWith keyLocator exclude, field.1 < 2^32 := by
    have types : (selectors.fieldsWith keyLocator exclude).map Prod.fst = [13,14,28,16,17,18] := rfl
    intro field inside
    have listed : field.1 ∈ [13,14,28,16,17,18] := types ▸ List.mem_map_of_mem inside
    have small : ∀ type ∈ [13,14,28,16,17,18], type < 2^32 := by decide
    exact small _ listed
  have made : ∀ field ∈ selectors.fieldsWith keyLocator exclude, ∀ block, field.2 = some block →
      ∃ value, block = Block.make field.1 value := by
    simp only [fieldsWith,List.forall_mem_cons]
    refine ⟨numberField_made,numberField_made,?_,?_,numberField_made,?_,fun _ inside => absurd inside List.not_mem_nil⟩
    · rintro block rfl
      rcases located with ⟨none,-⟩ | ⟨wire,same,encoded⟩
      · cases none
      · cases same
        exact KeyLocator.wireEncode_made encoded
    · rintro block rfl
      rcases excluded with ⟨none,-⟩ | ⟨wire,same,encoded⟩
      · cases none
      · cases same
        exact exclude_made encoded
    · intro block present
      split at present
      · exact ⟨[],(Option.some.inj present).symm⟩
      · cases present
  have readable : ∀ field ∈ selectors.fieldsWith keyLocator exclude, field.Readable := fun field inside =>
    readable_of_made small inside (known field inside) (made field inside)
  have distinct : ((selectors.fieldsWith keyLocator exclude).map Prod.fst).Nodup := by
    change ([13,14,28,16,17,18] : List Nat).Nodup
    decide
  have found : ∀ field ∈ selectors.fieldsWith keyLocator exclude,
      find field.1 ((selectors.fieldsWith keyLocator exclude).filterMap Prod.snd) = field.2 := fun field inside =>
    find_record readable distinct inside
  have short : ∀ field ∈ selectors.fieldsWith keyLocator exclude, ∀ block, field.2 = some block → block.wire.length < 2^64 :=
    fun field inside block present => field_small small inside present
  have parsed := parse_record readable Tlv.Selectors
  generalize (selectors.fieldsWith keyLocator exclude).filterMap Prod.snd = elements at found parsed
  simp only [fieldsWith,List.forall_mem_cons] at found short
  obtain ⟨minimum,maximum,keyed,filtered,child,fresh,-⟩ := found
  obtain ⟨-,-,keyShort,filterShort,-⟩ := short
  have locator : readKeyLocator keyLocator = .ok selectors.publisherPublicKeyLocator := by
    rcases located with ⟨rfl,empty⟩ | ⟨inner,rfl,written⟩
    · rw [empty]
      rfl
    · exact KeyLocator.keyLocator_readBack formed.keyLocator written (keyShort inner rfl)
  have filter : readExclude exclude = .ok selectors.exclude := by
    rcases excluded with ⟨rfl,empty⟩ | ⟨inner,rfl,written⟩
    · exact congrArg Except.ok (Subtype.ext empty.symm)
    · have back := (Exclude.read_wireEncode selectors.exclude.property written (filterShort inner rfl)).mpr formed.exclude
      exact map_eq_ok.mpr ⟨(),congrArg Prod.snd back,Subtype.ext (congrArg Prod.fst back)⟩
  have number : ∀ type (number : Int), number < 2^31 → find (numberField type number).1 elements = (numberField type number).2 →
      readNumber 32 (-1) (find type elements) = .ok (if 0 ≤ number then number else -1) := by
    intro type number fits same
    change find type elements = _ at same
    rw [same]
    exact readNumber_numberField type (by omega) (by omega)
  have flag : (find Tlv.MustBeFresh elements).isSome = selectors.mustBeFresh := by
    rw [fresh]
    cases selectors.mustBeFresh <;> rfl
  have typed : ¬ (Block.record Tlv.Selectors (selectors.fieldsWith keyLocator exclude)).type ≠ Tlv.Selectors := not_not.mpr rfl
  rw [wireDecode,if_neg typed]
  refine bind_eq_ok.mpr ⟨elements,parsed,?_⟩
  refine bind_eq_ok.mpr ⟨_,number _ _ formed.minSuffixComponents minimum,?_⟩
  refine bind_eq_ok.mpr ⟨_,number _ _ formed.maxSuffixComponents maximum,?_⟩
  refine bind_eq_ok.mpr ⟨_,(congrArg readKeyLocator keyed).trans locator,?_⟩
  refine bind_eq_ok.mpr ⟨_,(congrArg readExclude filtered).trans filter,?_⟩
  refine bind_eq_ok.mpr ⟨_,number _ _ formed.childSelector child,?_⟩
  rw [flag]
  rfl

end Selectors

namespace Interest

/-- What the fields are to be for the Interest to be read back: a link object with the type of Data, and a delegation of it. -/
structure Formed (interest : Interest) : Prop where
  name : interest.name.Formed
  selectors : interest.selectors.Formed
  nonce : interest.nonce.type = Tlv.Nonce ∧ interest.nonce.HasWire
  interestLifetime : interest.interestLifetime < 2^63
  link : ∀ link, interest.link = some link → link.type = Tlv.Data ∧ link.HasWire
  selectedDelegation : ∀ link index, interest.link = some link → interest.selectedDelegation = some index →
    index < 2^64 ∧ ∃ count, countDelegationsFromWire link = .ok count ∧ index < count

def received (interest known : Interest) : Interest where
  name := interest.name
  selectors := interest.selectors.received
  nonce := interest.nonce
  interestLifetime := if 0 ≤ interest.interestLifetime then interest.interestLifetime else defaultInterestLifetime
  link := interest.link.or known.link
  selectedDelegation := (interest.link.bind fun _ => interest.selectedDelegation).or known.selectedDelegation

private theorem received_of_isEmpty {selectors : Selectors} (empty : selectors.isEmpty = true) : selectors.received = .new := by
  obtain ⟨minimum,maximum,keyLocator,⟨entries,ordered⟩,child,fresh⟩ := selectors
  simp only [Selectors.isEmpty,Bool.and_eq_true,decide_eq_true_eq,beq_iff_eq,List.isEmpty_iff,Bool.not_eq_true'] at empty
  obtain ⟨⟨⟨⟨⟨low,high⟩,rfl⟩,rfl⟩,leaf⟩,rfl⟩ := empty
  simp only [Selectors.received,Selectors.new,if_neg (not_le.mpr low),if_neg (not_le.mpr high),if_neg (not_le.mpr leaf)]

theorem wireEncode_made {selectors : Selectors} {wire : Block} (encoded : selectors.wireEncode = .ok wire) :
    ∃ value, wire = Block.make Tlv.Selectors value := by
  obtain ⟨fields,-,rfl⟩ := map_eq_ok.mp encoded
  exact ⟨_,rfl⟩

/-- An Interest that was encoded is read as it was, but that an absent link object and an absent delegation leave those
that the object had read before. -/
theorem interest_readBack {interest : Interest} {wire : Block} (formed : interest.Formed)
    (encoded : interest.wireEncode = .ok wire) (small : wire.wire.length < 2^64) (known : Interest) :
    known.wireDecode wire = .ok (interest.received known) := by
  obtain ⟨fields,made,rfl⟩ := map_eq_ok.mp encoded
  obtain ⟨selectors,selected,rfl⟩ := map_eq_ok.mp made
  have written : selectors = none ∧ interest.selectors.isEmpty = true ∨
      ∃ inner, selectors = some inner ∧ interest.selectors.wireEncode = .ok inner := by
    unfold selectorsField at selected
    split at selected
    · rename_i empty
      exact Or.inl ⟨(Except.ok.inj selected).symm,empty⟩
    · obtain ⟨inner,back,same⟩ := map_eq_ok.mp selected
      exact Or.inr ⟨inner,same.symm,back⟩
  have short : ∀ field ∈ interest.fieldsWith selectors, ∀ block, field.2 = some block → block.wire.length < 2^64 :=
    fun _ inside _ present => field_small small inside present
  have readable : ∀ field ∈ interest.fieldsWith selectors, field.Readable := by
    have made := fun field (inside : field ∈ interest.fieldsWith selectors) => readable_of_made small inside
    simp only [fieldsWith,List.forall_mem_cons] at made ⊢
    obtain ⟨named,selects,-,lifetime,-,delegation,-⟩ := made
    have type_known : Tlv.InterestLifetime < 2^32 := by decide
    refine ⟨named (by decide) ?_,selects (by decide) ?_,?_,lifetime type_known numberField_made,?_,delegation (by decide) ?_,
      fun _ inside => absurd inside List.not_mem_nil⟩
    · rintro block ⟨⟩
      exact ⟨_,rfl⟩
    · rintro block rfl
      rcases written with ⟨none,-⟩ | ⟨inner,same,back⟩
      · cases none
      · cases same
        exact wireEncode_made back
    · rintro block ⟨⟩
      exact formed.nonce
    · exact formed.link
    · intro block present
      obtain ⟨link,-,present⟩ := Option.bind_eq_some_iff.mp present
      obtain ⟨index,-,rfl⟩ := Option.map_eq_some_iff.mp present
      exact ⟨_,rfl⟩
  have distinct : ((interest.fieldsWith selectors).map Prod.fst).Nodup := by
    change ([7,9,10,12,6,32] : List Nat).Nodup
    decide
  have found : ∀ field ∈ interest.fieldsWith selectors,
      find field.1 ((interest.fieldsWith selectors).filterMap Prod.snd) = field.2 := fun field inside =>
    find_record readable distinct inside
  have parsed := parse_record readable Tlv.Interest
  generalize (interest.fieldsWith selectors).filterMap Prod.snd = elements at found parsed
  simp only [fieldsWith,List.forall_mem_cons] at found short
  obtain ⟨named,selects,nonce,lifetime,link,delegation,-⟩ := found
  obtain ⟨nameShort,selectsShort,-⟩ := short
  have typed : ¬ (Block.record Tlv.Interest (interest.fieldsWith selectors)).type ≠ Tlv.Interest := not_not.mpr rfl
  have getName : (Block.get NdnCxx.Tlv.Name elements >>= Name.wireDecode) = .ok interest.name :=
    bind_eq_ok.mpr ⟨interest.name.wireEncode,get_of_find named,Name.name_readBack formed.name (nameShort _ rfl)⟩
  have getNonce : Block.get Tlv.Nonce elements = .ok interest.nonce := get_of_find nonce
  have getSelectors : readSelectors (find Tlv.Selectors elements) = .ok interest.selectors.received := by
    rw [selects]
    rcases written with ⟨rfl,empty⟩ | ⟨inner,rfl,back⟩
    · exact congrArg Except.ok (received_of_isEmpty empty).symm
    · exact Selectors.selectors_readBack formed.selectors back (selectsShort inner rfl)
  have getLifetime : Selectors.readNumber 64 defaultInterestLifetime (find Tlv.InterestLifetime elements) =
      .ok (if 0 ≤ interest.interestLifetime then interest.interestLifetime else defaultInterestLifetime) := by
    have fits := formed.interestLifetime
    change find Tlv.InterestLifetime elements = _ at lifetime
    rw [lifetime]
    split
    · rename_i default
      rw [default]
      rfl
    · exact readNumber_numberField _ (by omega) (by omega)
  have getDelegation : readSelectedDelegation (interest.link.or known.link) known.selectedDelegation
      (find Tlv.SelectedDelegation elements) =
        .ok ((interest.link.bind fun _ => interest.selectedDelegation).or known.selectedDelegation) := by
    rw [delegation]
    cases linked : interest.link with
    | none => rfl
    | some link =>
      cases selected : interest.selectedDelegation with
      | none => rfl
      | some index =>
        obtain ⟨small,count,counted,below⟩ := formed.selectedDelegation link index linked selected
        refine bind_eq_ok.mpr ⟨index,readNonNegativeInteger_nonNegativeInteger small,?_⟩
        refine bind_eq_ok.mpr ⟨count,counted,?_⟩
        exact if_pos below
  refine bind_eq_ok.mpr ⟨elements,parsed,?_⟩
  rw [if_neg typed]
  refine bind_eq_ok.mpr ⟨_,getName,?_⟩
  refine bind_eq_ok.mpr ⟨_,getSelectors,?_⟩
  refine bind_eq_ok.mpr ⟨_,getNonce,?_⟩
  refine bind_eq_ok.mpr ⟨_,getLifetime,?_⟩
  change (readSelectedDelegation ((find Tlv.Data elements).or known.link) known.selectedDelegation _ >>= _) = _
  rw [link]
  exact bind_eq_ok.mpr ⟨_,getDelegation,rfl⟩

/-- `/1` with the selectors MustBeFresh and ChildSelector 1. -/
def fresh : Interest where
  name := [(NdnCxx.Tlv.NameComponent,[1])]
  selectors := {Selectors.new with childSelector := 1, mustBeFresh := true}
  nonce := Block.make Tlv.Nonce [1,2,3,4]
  interestLifetime := -1
  link := none
  selectedDelegation := none

theorem interest_readBack_fresh : fresh.wireEncode =
      .ok (Block.make Tlv.Interest [7,3,8,1,1,9,5,17,1,1,18,0,10,4,1,2,3,4]) ∧
    fresh.wireDecode (Block.make Tlv.Interest [7,3,8,1,1,9,5,17,1,1,18,0,10,4,1,2,3,4]) = .ok (fresh.received fresh) := by
  have encoded : fresh.wireEncode = .ok (Block.make Tlv.Interest [7,3,8,1,1,9,5,17,1,1,18,0,10,4,1,2,3,4]) := rfl
  have formed : fresh.Formed := by
    refine ⟨?_,⟨by decide,by decide,trivial,?_,by decide⟩,⟨rfl,by decide⟩,by decide,?_,?_⟩
    · intro component inside
      rw [List.mem_singleton.mp inside]
      decide
    · exact fun inside => absurd inside List.not_mem_nil
    · intro link linked
      cases linked
    · intro link index linked
      cases linked
  exact ⟨encoded,interest_readBack formed encoded (by decide) fresh⟩

end Interest

end Ncfcc.NdnCxx.Wire
