import Ncfcc.Encoding.Tlv

/-! Blocks that are records: their elements are fields, some of which may be absent, told apart by their types. -/
namespace Ncfcc.Encoding
open Ncfcc.Library

theorem map_eq_ok {α β : Type} {first : Except String α} {change : α → β} {result : β} :
    first.map change = .ok result ↔ ∃ middle, first = .ok middle ∧ change middle = result := by
  cases first with
  | error message => simp [Except.map]
  | ok middle => simp [Except.map]

namespace Block

/-- A field with its type, if it is there. -/
abbrev Field := Nat × Option Block

def record (type : Nat) (fields : List Field) : Block := make type ((fields.filterMap Prod.snd).flatMap wire)

def find (type : Nat) (elements : List Block) : Option Block := elements.find? fun element => element.type = type

def get (type : Nat) (elements : List Block) : Except String Block :=
  match find type elements with
  | some element => .ok element
  | none => .error s!"(Block::get) Requested a non-existed type [{type}] from Block"

/-- A field that may only stand here: the element at the start if it has the type, and what follows it. -/
def takeFirst (type : Nat) : List Block → Option Block × List Block
  | [] => (none,[])
  | first :: rest => if first.type = type then (some first,rest) else (none,first :: rest)

def Field.Readable (field : Field) : Prop := ∀ block, field.2 = some block → block.type = field.1 ∧ block.HasWire

theorem get_of_find {type : Nat} {elements : List Block} {block : Block} (found : find type elements = some block) :
    get type elements = .ok block := by
  rw [get,found]

theorem find_record {fields : List Field} (readable : ∀ field ∈ fields, field.Readable)
    (distinct : (fields.map Prod.fst).Nodup) {field : Field} (inside : field ∈ fields) :
    find field.1 (fields.filterMap Prod.snd) = field.2 := by
  induction fields with
  | nil => exact absurd inside List.not_mem_nil
  | cons first fields ih =>
    obtain ⟨here,later⟩ := List.forall_mem_cons.mp readable
    rw [List.map_cons,List.nodup_cons] at distinct
    have others := ih later distinct.2
    have missing : find first.1 (fields.filterMap Prod.snd) = none := by
      refine List.find?_eq_none.mpr fun block there typed => distinct.1 ?_
      obtain ⟨other,listed,same⟩ := List.mem_filterMap.mp there
      rw [← of_decide_eq_true typed,(later other listed block same).1]
      exact List.mem_map_of_mem listed
    cases present : first.2 with
    | none =>
      rw [List.filterMap_cons_none present]
      rcases List.mem_cons.mp inside with rfl | listed
      · rw [missing,present]
      · exact others listed
    | some block =>
      rw [List.filterMap_cons_some present,find,List.find?_cons]
      rcases List.mem_cons.mp inside with rfl | listed
      · rw [decide_eq_true (here block present).1,present]
      · have differs : decide (block.type = field.1) = false := by
          refine decide_eq_false fun same => distinct.1 ?_
          rw [← (here block present).1,same]
          exact List.mem_map_of_mem listed
        rw [differs]
        exact others listed

theorem takeFirst_field {field : Field} (readable : field.Readable) {rest : List Block}
    (others : ∀ block ∈ rest, block.type ≠ field.1) : takeFirst field.1 (field.2.toList ++ rest) = (field.2,rest) := by
  cases present : field.2 with
  | some block => exact if_pos (readable block present).1
  | none =>
    cases rest with
    | nil => rfl
    | cons first rest => exact if_neg (others first List.mem_cons_self)

theorem others_append {field : Field} (readable : field.Readable) {type : Nat} (differs : field.1 ≠ type) {rest : List Block}
    (others : ∀ block ∈ rest, block.type ≠ type) : ∀ block ∈ field.2.toList ++ rest, block.type ≠ type := by
  intro block inside
  rcases List.mem_append.mp inside with here | there
  · rw [(readable block (Option.mem_toList.mp here)).1]
    exact differs
  · exact others block there

theorem parse_record {fields : List Field} (readable : ∀ field ∈ fields, field.Readable) (type : Nat) :
    (record type fields).parse = .ok (fields.filterMap Prod.snd) := by
  refine parse_eq_ok.mpr ⟨fun block inside => ?_,rfl⟩
  obtain ⟨field,listed,same⟩ := List.mem_filterMap.mp inside
  exact (readable field listed block same).2

/-- Where a block is not too long, neither is its value. -/
theorem value_small {type : Nat} {value : List UInt8} (small : (make type value).wire.length < 2^64) : value.length < 2^64 := by
  rw [make_length] at small
  omega

theorem element_small {blocks : List Block} {block : Block} (inside : block ∈ blocks)
    (small : (blocks.flatMap wire).length < 2^64) : block.wire.length < 2^64 := by
  have member : block.wire ∈ blocks.map wire := List.mem_map_of_mem inside
  rw [List.flatMap_def] at small
  exact ((List.sublist_flatten_of_mem member).length_le).trans_lt small

theorem field_small {type : Nat} {fields : List Field} (small : (record type fields).wire.length < 2^64)
    {field : Field} (inside : field ∈ fields) {block : Block} (present : field.2 = some block) : block.wire.length < 2^64 :=
  element_small (List.mem_filterMap.mpr ⟨field,inside,present⟩) (value_small small)

/-- A block that was made and is not too long can be read. -/
theorem readable_make {type : Nat} {value : List UInt8} (known : type < 2^32) (small : (make type value).wire.length < 2^64) :
    (make type value).HasWire := hasWire_make type value known (value_small small)

/-- A block that was made with its type and is not too long can be read. -/
theorem made_readable {type : Nat} (known : type < 2^32) {block : Block} (made : ∃ value, block = make type value)
    (short : block.wire.length < 2^64) : block.type = type ∧ block.HasWire := by
  obtain ⟨value,rfl⟩ := made
  exact ⟨rfl,readable_make known short⟩

/-- Fields that were made for a record that is not too long can be read. -/
theorem readable_of_made {type : Nat} {fields : List Field} (small : (record type fields).wire.length < 2^64)
    {field : Field} (inside : field ∈ fields) (known : field.1 < 2^32)
    (made : ∀ block, field.2 = some block → ∃ value, block = make field.1 value) : field.Readable := by
  intro block present
  exact made_readable known (made block present) (field_small small inside present)

end Block

end Ncfcc.Encoding
