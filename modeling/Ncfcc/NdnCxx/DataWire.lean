import Ncfcc.NdnCxx.InterestWire

/-! The wire encoding of Data. The application's blocks of the meta information are added to those that the object had
before, also where an object reads what itself has written. -/
namespace Ncfcc.NdnCxx.Wire
open Ncfcc.Encoding Ncfcc.Encoding.Block

namespace Tlv

abbrev MetaInfo : Nat := 20
abbrev SignatureInfo : Nat := 22
abbrev SignatureValue : Nat := 23
abbrev ContentType : Nat := 24
abbrev FreshnessPeriod : Nat := 25
abbrev FinalBlockId : Nat := 26
abbrev SignatureType : Nat := 27

/-- `ContentType_Blob`. -/
abbrev Blob : Nat := 0

end Tlv

/-- The final block is none where its component is empty. -/
structure MetaInfo where
  type : Nat
  /-- In milliseconds, negative if it is not given. -/
  freshnessPeriod : Int
  finalBlockId : Option Component
  appMetaInfo : List Block

namespace MetaInfo

def new : MetaInfo := ⟨Tlv.Blob,-1,none,[]⟩

/-- `time::milliseconds::min()`. -/
def minimum : Int := -2^63

def typeField (type : Nat) : Field :=
  (Tlv.ContentType,if type = Tlv.Blob then none else some (Block.make Tlv.ContentType (nonNegativeInteger type)))

def finalField (finalBlockId : Option Component) : Field :=
  (Tlv.FinalBlockId,(finalBlockId.filter fun component => !component.isEmpty).map fun component =>
    Block.make Tlv.FinalBlockId component.wireEncode)

def elements (metaInfo : MetaInfo) : List Block :=
  (typeField metaInfo.type).2.toList ++ ((numberField Tlv.FreshnessPeriod metaInfo.freshnessPeriod).2.toList ++
    ((finalField metaInfo.finalBlockId).2.toList ++ metaInfo.appMetaInfo))

def wireEncode (metaInfo : MetaInfo) : Block := Block.make Tlv.MetaInfo (metaInfo.elements.flatMap wire)

def addAppMetaInfo (metaInfo : MetaInfo) (block : Block) : Except String MetaInfo :=
  if 128 ≤ block.type ∧ block.type ≤ 252 then .ok {metaInfo with appMetaInfo := metaInfo.appMetaInfo ++ [block]}
  else .error "AppMetaInfo block has type outside the application range [128, 252]"

def setAppMetaInfo (metaInfo : MetaInfo) (info : List Block) : Except String MetaInfo :=
  if info.all fun block => 128 ≤ block.type && block.type ≤ 252 then .ok {metaInfo with appMetaInfo := info}
  else .error "AppMetaInfo block has type outside the application range [128, 252]"

def removeAppMetaInfo (metaInfo : MetaInfo) (type : Nat) : Bool × MetaInfo :=
  (metaInfo.appMetaInfo.any fun block => block.type = type,
    {metaInfo with appMetaInfo := metaInfo.appMetaInfo.eraseP fun block => block.type = type})

/-- The type is stored in 32 bits. -/
def readType : Option Block → Except String Nat
  | none => .ok Tlv.Blob
  | some element => (readNonNegativeInteger element.value).map fun number => number % 2^32

def readFinalBlockId : Option Block → Except String (Option Component)
  | none => .ok none
  | some element => do
    let block ← element.blockFromValue
    let component ← Component.ofBlock block.type block.value
    .ok (if component.type = NdnCxx.Tlv.NameComponent then some component else none)

/-- Into an object that may have been read before. -/
def wireDecode (metaInfo : MetaInfo) (wire : Block) : Except String MetaInfo := do
  let elements ← wire.parse
  let contentType := takeFirst Tlv.ContentType elements
  let type ← readType contentType.1
  let period := takeFirst Tlv.FreshnessPeriod contentType.2
  let freshnessPeriod ← Selectors.readNumber 64 minimum period.1
  let final := takeFirst Tlv.FinalBlockId period.2
  let finalBlockId ← readFinalBlockId final.1
  .ok ⟨type,freshnessPeriod,finalBlockId,metaInfo.appMetaInfo ++ final.2⟩

end MetaInfo

structure Data where
  name : Name
  metaInfo : MetaInfo
  content : Block
  signatureInfo : Option Block
  signatureValue : Block

namespace Data

def fieldsWith (data : Data) (signatureInfo : Block) : List Field :=
  [(NdnCxx.Tlv.Name,some data.name.wireEncode),(Tlv.MetaInfo,some data.metaInfo.wireEncode),(Tlv.Content,some data.content),
    (Tlv.SignatureInfo,some signatureInfo),(Tlv.SignatureValue,some data.signatureValue)]

def wireEncode (data : Data) : Except String Block :=
  match data.signatureInfo with
  | none => .error "Requested wire format, but data packet has not been signed yet"
  | some signatureInfo => .ok (Block.record Tlv.Data (data.fieldsWith signatureInfo))

/-- `SignatureInfo::wireDecode`, where the block is kept. -/
def readSignatureInfo (wire : Block) : Except String Block := do
  let elements ← wire.parse
  if wire.type ≠ Tlv.SignatureInfo then .error "Unexpected TLV type when decoding Name"
  else
    let first := takeFirst Tlv.SignatureType elements
    match first.1 with
    | none => .error "SignatureInfo does not have sub-TLV or the first sub-TLV is not SignatureType"
    | some signatureType => do
      let _ ← readNonNegativeInteger signatureType.value
      let _ ← Selectors.readKeyLocator (takeFirst Tlv.KeyLocator first.2).1
      .ok wire

/-- Into an object that may have been read before, as `wireEncode` does with what it has written. -/
def wireDecode (data : Data) (wire : Block) : Except String Data := do
  let elements ← wire.parse
  let name ← Block.get NdnCxx.Tlv.Name elements >>= Name.wireDecode
  let metaInfo ← Block.get Tlv.MetaInfo elements >>= data.metaInfo.wireDecode
  let content ← Block.get Tlv.Content elements
  let signatureInfo ← Block.get Tlv.SignatureInfo elements >>= readSignatureInfo
  .ok ⟨name,metaInfo,content,some signatureInfo,(find Tlv.SignatureValue elements).getD data.signatureValue⟩

end Data

/-! What is read back. -/

namespace MetaInfo

/-- The fields have the ranges that the setters and the types allow. -/
structure Formed (metaInfo : MetaInfo) : Prop where
  type : metaInfo.type < 2^32
  freshnessPeriod : metaInfo.freshnessPeriod < 2^63
  appMetaInfo : ∀ block ∈ metaInfo.appMetaInfo, 128 ≤ block.type ∧ block.type ≤ 252 ∧ block.HasWire

section
variable {metaInfo after : MetaInfo}

theorem Formed.addAppMetaInfo (formed : metaInfo.Formed) {block : Block} (readable : block.HasWire)
    (added : metaInfo.addAppMetaInfo block = .ok after) : after.Formed := by
  unfold MetaInfo.addAppMetaInfo at added
  split at added
  · rename_i range
    cases added
    refine ⟨formed.type,formed.freshnessPeriod,fun other inside => ?_⟩
    rcases List.mem_append.mp inside with old | new
    · exact formed.appMetaInfo other old
    · rw [List.mem_singleton.mp new]
      exact ⟨range.1,range.2,readable⟩
  · cases added

theorem Formed.setAppMetaInfo (formed : metaInfo.Formed) {info : List Block} (readable : ∀ block ∈ info, block.HasWire)
    (changed : metaInfo.setAppMetaInfo info = .ok after) : after.Formed := by
  unfold MetaInfo.setAppMetaInfo at changed
  split at changed
  · rename_i range
    cases changed
    refine ⟨formed.type,formed.freshnessPeriod,fun block inside => ?_⟩
    have within := List.all_eq_true.mp range block inside
    rw [Bool.and_eq_true,decide_eq_true_eq,decide_eq_true_eq] at within
    exact ⟨within.1,within.2,readable block inside⟩
  · cases changed

theorem Formed.removeAppMetaInfo (formed : metaInfo.Formed) (type : Nat) : (metaInfo.removeAppMetaInfo type).2.Formed :=
  ⟨formed.type,formed.freshnessPeriod,fun block inside => formed.appMetaInfo block (List.mem_of_mem_eraseP inside)⟩

end

/-- What an object is after reading the meta information: a final block that is a digest is dropped. -/
def received (metaInfo known : MetaInfo) : MetaInfo where
  type := metaInfo.type
  freshnessPeriod := if 0 ≤ metaInfo.freshnessPeriod then metaInfo.freshnessPeriod else minimum
  finalBlockId := metaInfo.finalBlockId.filter fun component => !component.isEmpty && component.isGeneric
  appMetaInfo := known.appMetaInfo ++ metaInfo.appMetaInfo

private theorem typeField_made {type : Nat} (block : Block) (present : (typeField type).2 = some block) :
    ∃ value, block = Block.make (typeField type).1 value := by
  unfold typeField at present
  split at present
  · cases present
  · exact ⟨_,(Option.some.inj present).symm⟩

private theorem finalField_made {finalBlockId : Option Component} (block : Block) (present : (finalField finalBlockId).2 = some block) :
    ∃ value, block = Block.make (finalField finalBlockId).1 value := by
  obtain ⟨component,-,rfl⟩ := Option.map_eq_some_iff.mp present
  exact ⟨_,rfl⟩

private theorem readType_typeField {type : Nat} (small : type < 2^32) : readType (typeField type).2 = .ok type := by
  unfold typeField
  split
  · rename_i blob
    rw [blob]
    rfl
  · have read : readNonNegativeInteger (Block.make Tlv.ContentType (nonNegativeInteger type)).value = .ok type :=
      readNonNegativeInteger_nonNegativeInteger (by omega)
    dsimp only [readType]
    rw [read]
    exact congrArg Except.ok (Nat.mod_eq_of_lt small)

private theorem readFinalBlockId_finalField {finalBlockId : Option Component}
    (small : ∀ block, (finalField finalBlockId).2 = some block → block.wire.length < 2^64) :
    readFinalBlockId (finalField finalBlockId).2 =
      .ok (finalBlockId.filter fun component => !component.isEmpty && component.isGeneric) := by
  cases finalBlockId with
  | none => rfl
  | some component =>
    cases empty : component.isEmpty with
    | true =>
      have written : (finalField (some component)).2 = none := by
        simp [finalField,Option.filter,empty]
      rw [written]
      simp [Option.filter,empty,readFinalBlockId]
    | false =>
      have written : (finalField (some component)).2 = some (Block.make Tlv.FinalBlockId component.wireEncode) := by
        simp [finalField,Option.filter,empty]
      have short := value_small (value_small (small _ written))
      have known : component.type < 2^32 := by
        rcases component.formed with generic | ⟨digest,-⟩
        · rw [generic]
          decide
        · rw [digest]
          decide
      have inner : (Block.make Tlv.FinalBlockId component.wireEncode).blockFromValue =
          .ok (Block.make component.type component.value) :=
        blockFromValue_of_ofOctets (hasWire_make component.type component.value known short)
      rw [written]
      refine bind_eq_ok.mpr ⟨_,inner,bind_eq_ok.mpr ⟨component,dif_pos component.formed,?_⟩⟩
      refine congrArg Except.ok ?_
      by_cases generic : component.type = NdnCxx.Tlv.NameComponent
      · simp [Option.filter,empty,generic,Component.isGeneric]
      · simp [Option.filter,empty,generic,Component.isGeneric]

private theorem metaInfo_readBack {metaInfo : MetaInfo} (formed : metaInfo.Formed) (small : metaInfo.wireEncode.wire.length < 2^64)
    (known : MetaInfo) : known.wireDecode metaInfo.wireEncode = .ok (metaInfo.received known) := by
  have short : ∀ block ∈ metaInfo.elements, block.wire.length < 2^64 := fun block inside =>
    element_small inside (value_small small)
  have typed : (typeField metaInfo.type).Readable := fun block present =>
    made_readable (show Tlv.ContentType < 2^32 by decide) (typeField_made block present)
      (short block (by simp [elements,present]))
  have timed : (numberField Tlv.FreshnessPeriod metaInfo.freshnessPeriod).Readable := fun block present =>
    made_readable (show Tlv.FreshnessPeriod < 2^32 by decide) (numberField_made block present)
      (short block (by simp [elements,present]))
  have final : (finalField metaInfo.finalBlockId).Readable := fun block present =>
    made_readable (show Tlv.FinalBlockId < 2^32 by decide) (finalField_made block present)
      (short block (by simp [elements,present]))
  have application : ∀ {type : Nat}, type < 128 → ∀ block ∈ metaInfo.appMetaInfo, block.type ≠ type := by
    intro type below block inside same
    have range := (formed.appMetaInfo block inside).1
    omega
  have parsed : metaInfo.wireEncode.parse = .ok metaInfo.elements := by
    refine parse_eq_ok.mpr ⟨fun block inside => ?_,rfl⟩
    simp only [elements,List.mem_append,Option.mem_toList] at inside
    rcases inside with present | present | present | inside
    · exact (typed block present).2
    · exact (timed block present).2
    · exact (final block present).2
    · exact (formed.appMetaInfo block inside).2.2
  have third : takeFirst Tlv.FinalBlockId ((finalField metaInfo.finalBlockId).2.toList ++ metaInfo.appMetaInfo) =
      ((finalField metaInfo.finalBlockId).2,metaInfo.appMetaInfo) :=
    takeFirst_field final (application (show Tlv.FinalBlockId < 128 by decide))
  have second : takeFirst Tlv.FreshnessPeriod ((numberField Tlv.FreshnessPeriod metaInfo.freshnessPeriod).2.toList ++
      ((finalField metaInfo.finalBlockId).2.toList ++ metaInfo.appMetaInfo)) =
        ((numberField Tlv.FreshnessPeriod metaInfo.freshnessPeriod).2,
          (finalField metaInfo.finalBlockId).2.toList ++ metaInfo.appMetaInfo) :=
    takeFirst_field timed (others_append final (show Tlv.FinalBlockId ≠ Tlv.FreshnessPeriod by decide)
      (application (show Tlv.FreshnessPeriod < 128 by decide)))
  have first : takeFirst Tlv.ContentType metaInfo.elements = ((typeField metaInfo.type).2,
      (numberField Tlv.FreshnessPeriod metaInfo.freshnessPeriod).2.toList ++
        ((finalField metaInfo.finalBlockId).2.toList ++ metaInfo.appMetaInfo)) :=
    takeFirst_field typed (others_append timed (show Tlv.FreshnessPeriod ≠ Tlv.ContentType by decide)
      (others_append final (show Tlv.FinalBlockId ≠ Tlv.ContentType by decide)
        (application (show Tlv.ContentType < 128 by decide))))
  have fits := formed.freshnessPeriod
  refine bind_eq_ok.mpr ⟨_,parsed,?_⟩
  dsimp only
  rw [first]
  refine bind_eq_ok.mpr ⟨_,readType_typeField formed.type,?_⟩
  dsimp only
  rw [second]
  refine bind_eq_ok.mpr ⟨_,readNumber_numberField _ (by omega) (by omega),?_⟩
  dsimp only
  rw [third]
  refine bind_eq_ok.mpr ⟨_,readFinalBlockId_finalField fun block present => short block (by simp [elements,present]),?_⟩
  rfl

end MetaInfo

namespace Data

structure Formed (data : Data) : Prop where
  name : data.name.Formed
  metaInfo : data.metaInfo.Formed
  content : data.content.type = Tlv.Content ∧ data.content.HasWire
  signatureInfo : ∀ info, data.signatureInfo = some info →
    info.type = Tlv.SignatureInfo ∧ info.HasWire ∧ readSignatureInfo info = .ok info
  signatureValue : data.signatureValue.type = Tlv.SignatureValue ∧ data.signatureValue.HasWire

/-- What an object is after reading the Data. -/
def received (data known : Data) : Data := { data with metaInfo := data.metaInfo.received known.metaInfo }

/-- Data that were encoded are read as they were, but that the application's blocks stand behind those that the object had. -/
theorem data_readBack {data : Data} {wire : Block} (formed : data.Formed) (encoded : data.wireEncode = .ok wire)
    (small : wire.wire.length < 2^64) (known : Data) : known.wireDecode wire = .ok (data.received known) := by
  unfold wireEncode at encoded
  split at encoded
  · cases encoded
  · rename_i signatureInfo signed
    cases encoded
    obtain ⟨informs,written,reads⟩ := formed.signatureInfo signatureInfo signed
    have short : ∀ field ∈ data.fieldsWith signatureInfo, ∀ block, field.2 = some block → block.wire.length < 2^64 :=
      fun _ inside _ present => field_small small inside present
    have readable : ∀ field ∈ data.fieldsWith signatureInfo, field.Readable := by
      simp only [fieldsWith,List.forall_mem_cons] at short ⊢
      obtain ⟨nameShort,metaShort,-⟩ := short
      refine ⟨?_,?_,?_,?_,?_,fun _ inside => absurd inside List.not_mem_nil⟩
      · rintro block ⟨⟩
        exact ⟨rfl,readable_make (by decide) (nameShort _ rfl)⟩
      · rintro block ⟨⟩
        exact ⟨rfl,readable_make (by decide) (metaShort _ rfl)⟩
      · rintro block ⟨⟩
        exact formed.content
      · rintro block ⟨⟩
        exact ⟨informs,written⟩
      · rintro block ⟨⟩
        exact formed.signatureValue
    have distinct : ((data.fieldsWith signatureInfo).map Prod.fst).Nodup := by
      change ([7,20,21,22,23] : List Nat).Nodup
      decide
    have found : ∀ field ∈ data.fieldsWith signatureInfo,
        find field.1 ((data.fieldsWith signatureInfo).filterMap Prod.snd) = field.2 := fun field inside =>
      find_record readable distinct inside
    have parsed := parse_record readable Tlv.Data
    generalize (data.fieldsWith signatureInfo).filterMap Prod.snd = elements at found parsed
    simp only [fieldsWith,List.forall_mem_cons] at found short
    obtain ⟨named,informed,filled,signs,valued,-⟩ := found
    obtain ⟨nameShort,metaShort,-⟩ := short
    refine bind_eq_ok.mpr ⟨elements,parsed,?_⟩
    refine bind_eq_ok.mpr ⟨data.name,?_,?_⟩
    · exact bind_eq_ok.mpr ⟨_,get_of_find named,Name.name_readBack formed.name (nameShort _ rfl)⟩
    refine bind_eq_ok.mpr ⟨data.metaInfo.received known.metaInfo,?_,?_⟩
    · exact bind_eq_ok.mpr ⟨_,get_of_find informed,MetaInfo.metaInfo_readBack formed.metaInfo (metaShort _ rfl) _⟩
    refine bind_eq_ok.mpr ⟨data.content,get_of_find filled,?_⟩
    refine bind_eq_ok.mpr ⟨signatureInfo,?_,?_⟩
    · exact bind_eq_ok.mpr ⟨_,get_of_find signs,reads⟩
    · rw [valued,received,signed]
      rfl

/-- After reading several Data an object is as the last of them, but with the application's blocks of all. -/
theorem reads_collect {items : List (Data × Block)} (encoded : ∀ item ∈ items,
      item.1.Formed ∧ item.1.wireEncode = .ok item.2 ∧ item.2.wire.length < 2^64) (known : Data) :
    ∃ after, (items.map Prod.snd).foldlM wireDecode known = .ok after ∧
      after.metaInfo.appMetaInfo = known.metaInfo.appMetaInfo ++ items.flatMap (fun item => item.1.metaInfo.appMetaInfo) ∧
      ∀ last, items.getLast? = some last → ∃ before, after = last.1.received before := by
  induction items generalizing known with
  | nil => exact ⟨known,rfl,by simp,fun last ends => absurd ends (by simp)⟩
  | cons item items ih =>
    obtain ⟨⟨formed,wired,small⟩,others⟩ := List.forall_mem_cons.mp encoded
    have first := data_readBack formed wired small known
    obtain ⟨after,rest,blocks,lastly⟩ := ih others (item.1.received known)
    refine ⟨after,?_,?_,?_⟩
    · rw [List.map_cons,List.foldlM_cons,first]
      exact rest
    · rw [blocks,List.flatMap_cons,← List.append_assoc]
      rfl
    · intro last ends
      cases items with
      | nil =>
        cases rest
        cases ends
        exact ⟨known,rfl⟩
      | cons next items =>
        rw [List.getLast?_cons_cons] at ends
        exact lastly last ends

/-- What becomes of an object that is encoded so many times. What has been encoded is kept until a setter is called, so
before each time there are changes, here any but those of the application's blocks. The object reads what it has written. -/
inductive Encodings (data : Data) : Nat → Data → Prop
  | start : Encodings data 0 data
  | encode {count : Nat} {before changed after : Data} {wire : Block} : Encodings data count before → changed.Formed →
    changed.metaInfo.appMetaInfo = before.metaInfo.appMetaInfo → changed.wireEncode = .ok wire →
    wire.wire.length < 2^64 → changed.wireDecode wire = .ok after → Encodings data (count + 1) after

/-- Every encoding doubles the application's blocks. -/
theorem encodings_double {data after : Data} {count : Nat} (encodings : Encodings data count after) :
    after.metaInfo.appMetaInfo = (List.replicate (2^count) data.metaInfo.appMetaInfo).flatten := by
  induction encodings with
  | start => simp
  | @encode count before changed after wire _ formed same encoded small read ih =>
    rw [data_readBack formed encoded small changed] at read
    cases read
    change changed.metaInfo.appMetaInfo ++ changed.metaInfo.appMetaInfo = _
    rw [same,ih,← List.flatten_append,List.replicate_append_replicate,pow_succ,Nat.mul_two]

/-- `/1`, with a block of the application and a signature. -/
def annotated : Data where
  name := [(NdnCxx.Tlv.NameComponent,[1])]
  metaInfo := {MetaInfo.new with freshnessPeriod := 10, appMetaInfo := [Block.make 128 [5]]}
  content := Block.make Tlv.Content [6]
  signatureInfo := some (Block.make Tlv.SignatureInfo [27,1,1])
  signatureValue := Block.make Tlv.SignatureValue [7]

private theorem annotated_formed : annotated.Formed := by
  refine ⟨?_,⟨by decide,by decide,?_⟩,⟨rfl,by decide⟩,?_,⟨rfl,by decide⟩⟩
  · intro component inside
    rw [List.mem_singleton.mp inside]
    decide
  · intro block inside
    rw [List.mem_singleton.mp inside]
    exact ⟨by decide,by decide,by decide⟩
  · rintro info ⟨⟩
    exact ⟨rfl,by decide,rfl⟩

def annotatedWire : Block :=
  Block.make Tlv.Data [7,3,8,1,1,20,6,25,1,10,128,1,5,21,1,6,22,3,27,1,1,23,1,7]

private theorem annotated_encoded : annotated.wireEncode = .ok annotatedWire := rfl

theorem reads_collect_annotated : ∃ after, [annotatedWire,annotatedWire].foldlM wireDecode annotated = .ok after ∧
    after.metaInfo.appMetaInfo = [Block.make 128 [5],Block.make 128 [5],Block.make 128 [5]] ∧
    after.name = [(NdnCxx.Tlv.NameComponent,[1])] := by
  have encoded : ∀ item ∈ [(annotated,annotatedWire),(annotated,annotatedWire)],
      item.1.Formed ∧ item.1.wireEncode = .ok item.2 ∧ item.2.wire.length < 2^64 := by
    intro item inside
    rw [List.mem_pair,or_self] at inside
    rw [inside]
    exact ⟨annotated_formed,annotated_encoded,by decide⟩
  obtain ⟨after,read,blocks,last⟩ := reads_collect encoded annotated
  obtain ⟨before,same⟩ := last _ rfl
  exact ⟨after,read,blocks,congrArg Data.name same⟩

theorem encodings_double_annotated :
    (annotated.received annotated).metaInfo.appMetaInfo = [Block.make 128 [5],Block.make 128 [5]] := by
  have read := data_readBack annotated_formed annotated_encoded (by decide) annotated
  have once : Encodings annotated 1 (annotated.received annotated) :=
    .encode .start annotated_formed rfl annotated_encoded (by decide) read
  exact encodings_double once

end Data

end Ncfcc.NdnCxx.Wire
