import Mathlib.Algebra.Group.Nat.Defs
import Mathlib.Data.List.Infix

/-! Names as sequences of generic components, each a string of octets. -/
namespace Ncfcc

abbrev Component := List UInt8

abbrev Name := List Component

/-- The variable-length number of a type or a length. -/
def varNumber (number : Nat) : List UInt8 :=
  let octets (count : Nat) := (List.range count).reverse.map fun index => UInt8.ofNat (number / 256^index)
  if number < 253 then octets 1
  else if number < 2^16 then 253 :: octets 2
  else if number < 2^32 then 254 :: octets 4
  else 255 :: octets 8

def Component.wire (component : Component) : List UInt8 := varNumber 8 ++ varNumber component.length ++ component

/-- What components are ordered by: shorter ones first, then by their octets. -/
def Component.key (component : Component) : List Nat := component.length :: component.map UInt8.toNat

def Component.less (first second : Component) : Bool := decide (Component.key first < Component.key second)

namespace Name

/-- What names are ordered by, component by component; a name comes before those it is a prefix of. -/
def key (name : Name) : List (List Nat) := name.map Component.key

def less (first second : Name) : Bool := decide (key first < key second)

/-- `Name::getPrefix` with a non-negative count. -/
def getPrefix (name : Name) (count : Nat) : Name := name.take count

def wire (name : Name) : List UInt8 :=
  let components := name.flatMap Component.wire
  varNumber 7 ++ varNumber components.length ++ components

/-- The name `/RSR` of a reduce-send-rate message. -/
def rsr : Name := [[0x52,0x53,0x52]]

end Name

end Ncfcc
