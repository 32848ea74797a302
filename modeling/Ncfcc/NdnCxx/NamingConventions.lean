import Ncfcc.NdnCxx.Component

/-! Numbers in name components: a marker octet, then the number in as few octets as hold it. -/
namespace Ncfcc.NdnCxx
open Ncfcc.Encoding

abbrev segmentMarker : UInt8 := 0x00
abbrev segmentOffsetMarker : UInt8 := 0xFB
abbrev versionMarker : UInt8 := 0xFD
abbrev sequenceNumberMarker : UInt8 := 0xFE

namespace Component

def isNumberWithMarker (component : Component) (marker : UInt8) : Bool :=
  !component.isEmpty && component.value.head? == some marker &&
    (component.value.length == 2 || component.value.length == 3 || component.value.length == 5 ||
      component.value.length == 9)

def toNumberWithMarker (component : Component) (marker : UInt8) : Except String Nat :=
  if component.isNumberWithMarker marker then readNonNegativeInteger component.value.tail
  else .error ("Name component does not have the requested marker " ++ "or the value is not a nonNegativeInteger")

def fromNumberWithMarker (marker : UInt8) (number : Nat) : Component := generic (marker :: nonNegativeInteger number)

def isSegment (component : Component) : Bool := component.isNumberWithMarker segmentMarker

def toSegment (component : Component) : Except String Nat := component.toNumberWithMarker segmentMarker

def fromSegment (segmentNo : Nat) : Component := fromNumberWithMarker segmentMarker segmentNo

def toSegmentOffset (component : Component) : Except String Nat := component.toNumberWithMarker segmentOffsetMarker

def fromSegmentOffset (offset : Nat) : Component := fromNumberWithMarker segmentOffsetMarker offset

def toVersion (component : Component) : Except String Nat := component.toNumberWithMarker versionMarker

def fromVersion (version : Nat) : Component := fromNumberWithMarker versionMarker version

def toSequenceNumber (component : Component) : Except String Nat := component.toNumberWithMarker sequenceNumberMarker

def fromSequenceNumber (seqNo : Nat) : Component := fromNumberWithMarker sequenceNumberMarker seqNo

private theorem fromNumberWithMarker_isNumber (marker : UInt8) (number : Nat) :
    (fromNumberWithMarker marker number).isNumberWithMarker marker = true := by
  have length := nonNegativeInteger_length number
  unfold sizeOfNonNegativeInteger at length
  unfold isNumberWithMarker fromNumberWithMarker generic isEmpty
  simp only [List.isEmpty_cons,List.head?_cons,List.length_cons,length]
  split_ifs <;> simp

theorem toNumberWithMarker_fromNumberWithMarker (marker : UInt8) {number : Nat} (small : number < 2^64) :
    (fromNumberWithMarker marker number).toNumberWithMarker marker = .ok number := by
  unfold toNumberWithMarker
  rw [if_pos (fromNumberWithMarker_isNumber marker number)]
  exact readNonNegativeInteger_nonNegativeInteger small

theorem fromNumberWithMarker_inj {marker : UInt8} {first second : Nat} (small : first < 2^64) (little : second < 2^64)
    (same : fromNumberWithMarker marker first = fromNumberWithMarker marker second) : first = second := by
  have read := toNumberWithMarker_fromNumberWithMarker marker small
  rw [same,toNumberWithMarker_fromNumberWithMarker marker little] at read
  exact (Except.ok.inj read).symm

end Component

end Ncfcc.NdnCxx
