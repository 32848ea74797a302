import Ncfcc.NdnCxx.NamingConventions

/-! The publisher of a status dataset: an octet stream cut into segments, of which the last
carries its own number as the final block id. -/
namespace Ncfcc.Nfd.Core

/-- Data before they are signed. The final block id is an empty component if there is none. -/
structure SegmentData where
  name : List NdnCxx.Component
  content : List UInt8
  freshnessPeriod : Int
  finalBlockId : NdnCxx.Component

namespace SegmentPublisher

def maxNdnPacketSize : Nat := 8800

def getMaxSegmentSize : Nat := maxNdnPacketSize / 2

def getDefaultFreshness : Int := 1000

def publishFrom (segmentPrefix : List NdnCxx.Component) (freshnessPeriod : Int) (segmentNo : Nat) (octets : List UInt8) :
    List SegmentData :=
  let segmentName := segmentPrefix ++ [.fromSegment segmentNo]
  let rest := octets.drop getMaxSegmentSize
  if rest.isEmpty then [⟨segmentName,octets.take getMaxSegmentSize,freshnessPeriod,.fromSegment segmentNo⟩]
  else ⟨segmentName,octets.take getMaxSegmentSize,freshnessPeriod,.empty⟩ ::
    publishFrom segmentPrefix freshnessPeriod (segmentNo + 1) rest
termination_by octets.length
decreasing_by
  rename_i more
  have positive : 0 < (octets.drop getMaxSegmentSize).length := List.length_pos_iff.mpr (mt List.isEmpty_iff.mpr more)
  have shorter : (octets.drop getMaxSegmentSize).length = octets.length - getMaxSegmentSize := List.length_drop
  unfold getMaxSegmentSize maxNdnPacketSize at *
  omega

def publish (name : List NdnCxx.Component) (freshnessPeriod : Int) (version : Nat) (octets : List UInt8) : List SegmentData :=
  publishFrom (name ++ [.fromVersion version]) freshnessPeriod 0 octets

variable (segmentPrefix : List NdnCxx.Component) (freshnessPeriod : Int)

/-- The segments hold the octets, in order. -/
theorem content_publishFrom (segmentNo : Nat) (octets : List UInt8) :
    (publishFrom segmentPrefix freshnessPeriod segmentNo octets).flatMap SegmentData.content = octets := by
  fun_induction publishFrom segmentPrefix freshnessPeriod segmentNo octets with
  | case1 segmentNo octets name rest last =>
    have none : octets.drop getMaxSegmentSize = [] := List.isEmpty_iff.mp last
    have whole := List.take_append_drop getMaxSegmentSize octets
    rw [none,List.append_nil] at whole
    exact (List.append_nil _).trans whole
  | case2 segmentNo octets name rest more ih =>
    rw [List.flatMap_cons,ih,List.take_append_drop]

theorem length_publishFrom (segmentNo : Nat) (octets : List UInt8) :
    (publishFrom segmentPrefix freshnessPeriod segmentNo octets).length ≤ octets.length / getMaxSegmentSize + 1 := by
  fun_induction publishFrom segmentPrefix freshnessPeriod segmentNo octets with
  | case1 => simp
  | case2 segmentNo octets name rest more ih =>
    have positive : 0 < rest.length := List.length_pos_iff.mpr (mt List.isEmpty_iff.mpr more)
    have shorter : rest.length = octets.length - getMaxSegmentSize := List.length_drop
    rw [List.length_cons]
    unfold getMaxSegmentSize maxNdnPacketSize at *
    omega

/-- The segments are numbered, and the last one alone says that it is the last. -/
theorem getElem_publishFrom (segmentNo : Nat) (octets : List UInt8) {index : Nat} {segment : SegmentData}
    (found : (publishFrom segmentPrefix freshnessPeriod segmentNo octets)[index]? = some segment) :
    segment.name = segmentPrefix ++ [.fromSegment (segmentNo + index)] ∧
      segment.finalBlockId = if index + 1 = (publishFrom segmentPrefix freshnessPeriod segmentNo octets).length then
        .fromSegment (segmentNo + index) else .empty := by
  fun_induction publishFrom segmentPrefix freshnessPeriod segmentNo octets generalizing index with
  | case1 =>
    cases index with
    | zero =>
      cases found
      exact ⟨rfl,rfl⟩
    | succ index => cases found
  | case2 =>
    rename_i segmentNo octets name rest more ih
    cases index with
    | zero =>
      cases found
      have others : publishFrom segmentPrefix freshnessPeriod (segmentNo + 1) rest ≠ [] := by
        unfold publishFrom
        dsimp only
        split <;> exact List.cons_ne_nil _ _
      refine ⟨rfl,(if_neg ?_).symm⟩
      rw [List.length_cons]
      have positive := List.length_pos_iff.mpr others
      omega
    | succ index =>
      obtain ⟨named,final⟩ := ih found
      simp only [List.length_cons,Nat.add_right_cancel_iff]
      rw [Nat.add_assoc,Nat.add_comm 1 index] at named final
      exact ⟨named,final⟩

end SegmentPublisher

end Ncfcc.Nfd.Core
