import Mathlib.Data.List.Lex
import Ncfcc.Encoding.Tlv

/-! Name components with their types. A generic component has any octets, an implicit digest
has those of a SHA-256 digest. -/
namespace Ncfcc.NdnCxx
open Ncfcc.Encoding Ncfcc.Library

namespace Tlv

abbrev Name : Nat := 7
abbrev ImplicitSha256DigestComponent : Nat := 1
abbrev NameComponent : Nat := 8
abbrev Exclude : Nat := 16
abbrev Any : Nat := 19

end Tlv

structure Component where
  type : Nat
  value : List UInt8
  formed : type = Tlv.NameComponent ∨ type = Tlv.ImplicitSha256DigestComponent ∧ value.length = 32
  deriving DecidableEq

namespace Component

def generic (value : List UInt8) : Component := ⟨Tlv.NameComponent,value,Or.inl rfl⟩

/-- `Component::Component()`. -/
def empty : Component := generic []

def isEmpty (component : Component) : Bool := component.value.isEmpty

def isGeneric (component : Component) : Bool := component.type == Tlv.NameComponent

def isImplicitSha256Digest (component : Component) : Bool :=
  component.type == Tlv.ImplicitSha256DigestComponent && component.value.length == 32

def fromImplicitSha256Digest (digest : List UInt8) : Except String Component :=
  if size : digest.length = 32 then .ok ⟨Tlv.ImplicitSha256DigestComponent,digest,Or.inr ⟨rfl,size⟩⟩
  else .error "Cannot create ImplicitSha256DigestComponent (input digest must be 32 octets)"

/-- `Component::Component(const Block&)`. -/
def ofBlock (type : Nat) (value : List UInt8) : Except String Component :=
  if formed : type = Tlv.NameComponent ∨ type = Tlv.ImplicitSha256DigestComponent ∧ value.length = 32 then
    .ok ⟨type,value,formed⟩
  else .error "Cannot construct name::Component from not a NameComponent or ImplicitSha256DigestComponent TLV wire block"

def wireEncode (component : Component) : List UInt8 := (Block.make component.type component.value).wire

/-- What `compare` goes by: the type, the length, then the octets. -/
def key (component : Component) : List Nat :=
  component.type :: component.value.length :: component.value.map UInt8.toNat

theorem key_injective : Function.Injective key := by
  intro first second same
  obtain ⟨type,value,_⟩ := first
  obtain ⟨types,values,_⟩ := second
  simp only [key,List.cons.injEq] at same
  obtain ⟨rfl,-,octets⟩ := same
  obtain rfl := (List.map_injective_iff.mpr fun _ _ => UInt8.toNat_inj.mp) octets
  rfl

instance order : LinearOrder Component := LinearOrder.lift' key key_injective

theorem lt_iff {first second : Component} : first < second ↔ first.key < second.key := Iff.rfl

/-- `operator==` looks at the octets only. -/
def equals (first second : Component) : Bool := first.value == second.value

theorem eq_of_equals {first second : Component} (types : first.type = second.type)
    (same : first.equals second = true) : first = second := by
  obtain ⟨type,value,_⟩ := first
  obtain ⟨types,values,_⟩ := second
  simp only [equals,beq_iff_eq] at same
  subst same
  subst types
  rfl

theorem ofBlock_eq_ok {type : Nat} {value : List UInt8} {component : Component} :
    ofBlock type value = .ok component ↔ component.type = type ∧ component.value = value := by
  obtain ⟨types,values,formed⟩ := component
  unfold ofBlock
  split
  · simp only [Except.ok.injEq,Component.mk.injEq]
    exact and_congr eq_comm eq_comm
  · rename_i unformed
    refine iff_of_false (fun same => by cases same) ?_
    rintro ⟨rfl,rfl⟩
    exact unformed formed

theorem type_le_of_le {first second : Component} (le : first ≤ second) : first.type ≤ second.type := by
  by_contra more
  refine not_lt.mpr le (lt_iff.mpr ?_)
  exact List.cons_lt_cons_iff.mpr (Or.inl (not_le.mp more))

end Component

end Ncfcc.NdnCxx
