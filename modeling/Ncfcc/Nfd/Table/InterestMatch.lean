import Ncfcc.Nfd.Table.PitEntry

/-! Whether an Interest matches Data. Here a component of a name is its whole TLV, so that
the implicit digest of a packet differs from generic components by its type. The order of
components and the hashes of the name tree go by the TLV, their equality goes by the octets. -/
namespace Ncfcc.Nfd.Table

abbrev Digest := { octets : List UInt8 // octets.length = 32 }

/-- Data with the digest of their wire encoding and the key locator of their signature. -/
structure Data where
  name : Name
  digest : Digest
  keyLocator : Option (List UInt8)
  deriving DecidableEq

/-- The TLV of an implicit digest has type 1. -/
def digestComponent (digest : Digest) : Component := 1 :: 32 :: digest.val

def isImplicitSha256Digest (component : Component) : Bool :=
  component.take 2 == [1,32] && component.length == 34

def Data.fullName (data : Data) : Name := data.name ++ [digestComponent data.digest]

/-- The octets of a component, behind its type and length. -/
def componentValue : Component → List UInt8
  | _ :: length :: rest =>
    if length < 253 then rest else rest.drop (if length = 253 then 2 else if length = 254 then 4 else 8)
  | _ => []

/-- What `Component::equals` compares, and with it `Name::equals` and `Name::isPrefixOf`. -/
def octets (name : Name) : List (List UInt8) := name.map componentValue

theorem octets_length (name : Name) : (octets name).length = name.length := List.length_map _

private theorem prefix_octets {first second : Name} (inside : first <+: second) : octets first <+: octets second := inside.map _

/-- No two of the names begin with components of the same octets and different types. -/
def ToldApart (names : List Name) : Prop :=
  ∀ first ∈ names, ∀ second ∈ names, ∀ size ≤ first.length,
    octets (first.take size) = octets (second.take size) → first.take size = second.take size

instance (names : List Name) : Decidable (ToldApart names) :=
  inferInstanceAs (Decidable (∀ first ∈ names, ∀ second ∈ names, ∀ size ≤ first.length, _ → _))

namespace ToldApart

variable {names : List Name} {first second whole other : Name}

theorem subset {fewer : List Name} (apart : ToldApart names) (inside : fewer ⊆ names) : ToldApart fewer :=
  fun first here second there => apart first (inside here) second (inside there)

theorem eq (apart : ToldApart names) (here : whole ∈ names) (there : other ∈ names) (left : first <+: whole)
    (right : second <+: other) (same : octets first = octets second) : first = second := by
  have size : first.length = second.length := by
    rw [← octets_length first,same,octets_length]
  have front : first = whole.take first.length := List.prefix_iff_eq_take.mp left
  have back : second = other.take first.length := size ▸ List.prefix_iff_eq_take.mp right
  rw [front,back] at same
  rw [back]
  refine front.trans (apart whole here other there first.length left.length_le ?_)
  rw [← front] at same ⊢
  exact same

theorem prefix_iff (apart : ToldApart names) (here : whole ∈ names) (there : other ∈ names) (left : first <+: whole)
    (right : second <+: other) : octets first <+: octets second ↔ first <+: second := by
  refine ⟨fun inside => ?_,prefix_octets⟩
  have cut : octets first = octets (second.take first.length) := by
    rw [List.prefix_iff_eq_take.mp inside,octets_length]
    exact (List.map_take ..).symm
  rw [apart.eq here there left ((List.take_prefix _ _).trans right) cut]
  exact List.take_prefix _ _

end ToldApart

/-- `Component::compare`: by type, then by length, then by the octets. The length of a TLV
grows with that of its value. -/
def componentLess (first second : Component) : Bool :=
  decide ((first.headD 0).toNat :: first.length :: first.map UInt8.toNat <
    (second.headD 0).toNat :: second.length :: second.map UInt8.toNat)

/-- `Exclude::isExcluded`, on the entries in descending order. -/
def isExcluded (exclude : List (Component × Bool)) (component : Component) : Bool :=
  match exclude.find? (fun entry => !componentLess component entry.1) with
  | none => false
  | some (bound,any) => if any then true else componentValue bound == componentValue component

namespace Interest

def matchesSuffixes (interest : Interest) (data : Data) : Bool :=
  let fullNameLength := data.name.length + 1
  interest.name.length + interest.selectors.minSuffixComponents.getD 0 ≤ fullNameLength &&
    interest.selectors.maxSuffixComponents.all fun limit => fullNameLength ≤ interest.name.length + limit

/-- The name of an Interest is the full name of the Data, or a strict prefix of it. -/
def matchesPrefix (interest : Interest) (data : Data) : Bool :=
  if interest.name.length = data.name.length + 1 then
    interest.name.getLast?.any isImplicitSha256Digest && octets interest.name == octets data.fullName
  else (octets interest.name).isPrefixOf (octets data.name)

def matchesExclude (interest : Interest) (data : Data) : Bool :=
  if !interest.selectors.exclude.isEmpty && data.name.length + 1 > interest.name.length then
    if interest.name.length = data.name.length then
      !isExcluded interest.selectors.exclude (digestComponent data.digest)
    else !isExcluded interest.selectors.exclude (data.name.getD interest.name.length [])
  else true

def matchesKeyLocator (interest : Interest) (data : Data) : Bool :=
  if interest.selectors.publisherPublicKeyLocator.isEmpty then true
  else data.keyLocator == some interest.selectors.publisherPublicKeyLocator

def matchesData (interest : Interest) (data : Data) : Bool :=
  interest.matchesSuffixes data && interest.matchesPrefix data && interest.matchesExclude data &&
    interest.matchesKeyLocator data

/-- A matching Interest has a prefix of the Data's name, or their full name, up to the types of components. -/
theorem octets_of_matchesData {interest : Interest} {data : Data} (matching : interest.matchesData data = true) :
    octets interest.name <+: octets data.name ∨ octets interest.name = octets data.fullName := by
  simp only [matchesData,Bool.and_eq_true] at matching
  have named := matching.1.1.2
  unfold matchesPrefix at named
  split at named
  · rw [Bool.and_eq_true,beq_iff_eq] at named
    exact Or.inr named.2
  · exact Or.inl (List.isPrefixOf_iff_prefix.mp named)

/-- Where names are told apart by their octets, a matching Interest has a prefix of the Data's name, or their full name. -/
theorem name_of_matchesData {interest : Interest} {data : Data} {names : List Name} {whole : Name} (apart : ToldApart names)
    (here : whole ∈ names) (inside : interest.name <+: whole) (there : data.fullName ∈ names)
    (matching : interest.matchesData data = true) : interest.name <+: data.name ∨ interest.name = data.fullName := by
  rcases octets_of_matchesData matching with under | same
  · exact Or.inl ((apart.prefix_iff here there inside (List.prefix_append _ _)).mp under)
  · exact Or.inr (apart.eq here there inside List.prefix_rfl same)

end Interest

end Ncfcc.Nfd.Table
