import Ncfcc.Library.Run
import Ncfcc.Nfd.Core.SegmentPublisher
import Ncfcc.Nfd.Table.NameSuccessor

/-! Fetching what a publisher has cut into segments. The first Interest may be answered with any
segment of any version; the segments of that version are then asked for one by one. -/
namespace Ncfcc.NdnCxx
open Ncfcc.Library Ncfcc.Nfd.Core
open Ncfcc.Nfd.Table (Interest Digest octets_length octets_tlvs tlvs)

structure Segment extends SegmentData where
  digest : Digest
  keyLocator : Option (List UInt8)

def Segment.data (segment : Segment) : Nfd.Table.Data := ⟨tlvs segment.name,segment.digest,segment.keyLocator⟩

inductive FetchError
  | interestTimeout
  | dataHasNoSegment
  | segmentVerificationFail
  deriving DecidableEq

def FetchError.code : FetchError → Nat
  | .interestTimeout => 1
  | .dataHasNoSegment => 2
  | .segmentVerificationFail => 3

/-- An Interest is pending, or one of the callbacks was called. -/
inductive FetchStatus
  | pending (interest : Interest) (isSegmentZeroExpected : Bool)
  | completed
  | failed (error : FetchError) (message : String)

structure SegmentFetcher where
  buffer : List UInt8
  status : FetchStatus

namespace SegmentFetcher

def fetchFirstSegment (baseInterest : Interest) : SegmentFetcher :=
  ⟨[],.pending {baseInterest with
    selectors := {baseInterest.selectors with childSelector := some 1, mustBeFresh := true}} true⟩

/-- `refreshNonce` draws a nonce. -/
def fetchNextSegment (fetcher : SegmentFetcher) (origInterest : Interest) (dataName : List Component) (segmentNo : Nat)
    (nonce : UInt32) : SegmentFetcher :=
  { fetcher with
    status := .pending {origInterest with
      nonce := nonce
      selectors := {origInterest.selectors with childSelector := some 0, mustBeFresh := false}
      name := tlvs (dataName.dropLast ++ [.fromSegment segmentNo])} false }

def fail (fetcher : SegmentFetcher) (error : FetchError) (message : String) : SegmentFetcher :=
  {fetcher with status := .failed error message}

/-- There is no behaviour for Data with an empty name. -/
def onSegmentReceived (verifySegment : Segment → Bool) (fetcher : SegmentFetcher) (origInterest : Interest)
    (data : Segment) (isSegmentZeroExpected : Bool) (nonce : UInt32) : Option SegmentFetcher :=
  if !verifySegment data then some (fetcher.fail .segmentVerificationFail "Segment validation fail")
  else
    data.name.getLast?.map fun last =>
      match last.toSegment with
      | .error what => fetcher.fail .dataHasNoSegment ("Error while decoding segment: " ++ what)
      | .ok currentSegment =>
        if isSegmentZeroExpected && currentSegment != 0 then
          fetcher.fetchNextSegment origInterest data.name 0 nonce
        else
          let fetcher := {fetcher with buffer := fetcher.buffer ++ data.content}
          let next := fetcher.fetchNextSegment origInterest data.name ((currentSegment + 1) % 2^64) nonce
          if data.finalBlockId.isEmpty then next
          else
            match data.finalBlockId.toSegment with
            | .error what => fetcher.fail .dataHasNoSegment ("Error while decoding segment: " ++ what)
            | .ok finalSegment =>
              if currentSegment < finalSegment then next
              else {fetcher with status := .completed}

inductive FetchEvent
  | data (segment : Segment) (nonce : UInt32)
  | timeout

def step (verifySegment : Segment → Bool) (fetcher : SegmentFetcher) (event : FetchEvent) : Option SegmentFetcher :=
  match fetcher.status, event with
  | .pending interest isSegmentZeroExpected, .data segment nonce =>
    if interest.matchesData segment.data then
      fetcher.onSegmentReceived verifySegment interest segment isSegmentZeroExpected nonce
    else none
  | .pending _ _, .timeout => some (fetcher.fail .interestTimeout "Timeout")
  | .completed, _ => none
  | .failed _ _, _ => none

structure Publication where
  version : Nat
  octets : List UInt8

structure Dataset where
  name : List Component
  freshnessPeriod : Int
  publications : List Publication
  versions : (publications.map Publication.version).Nodup
  small : ∀ publication ∈ publications, publication.version < 2^64 ∧ publication.octets.length < 2^64

def Dataset.segments (dataset : Dataset) (publication : Publication) : List SegmentData :=
  SegmentPublisher.publish dataset.name dataset.freshnessPeriod publication.version publication.octets

def Dataset.Holds (dataset : Dataset) (segment : Segment) : Prop :=
  ∃ publication ∈ dataset.publications, segment.toSegmentData ∈ dataset.segments publication

def Dataset.segmentName (dataset : Dataset) (publication : Publication) (segmentNo : Nat) : List Component :=
  dataset.name ++ [.fromVersion publication.version] ++ [.fromSegment segmentNo]

section
variable {dataset : Dataset} {publication other : Publication} {index : Nat} {segment : SegmentData}

private theorem segments_length (inside : publication ∈ dataset.publications) : (dataset.segments publication).length < 2^64 := by
  have few := SegmentPublisher.length_publishFrom (dataset.name ++ [.fromVersion publication.version])
    dataset.freshnessPeriod 0 publication.octets
  have short := (dataset.small publication inside).2
  unfold SegmentPublisher.getMaxSegmentSize SegmentPublisher.maxNdnPacketSize at few
  unfold Dataset.segments SegmentPublisher.publish
  omega

private theorem name_of_index (found : (dataset.segments publication)[index]? = some segment) :
    segment.name = dataset.segmentName publication index := by
  have named := (SegmentPublisher.getElem_publishFrom _ _ 0 _ found).1
  rwa [Nat.zero_add] at named

private theorem final_of_index (found : (dataset.segments publication)[index]? = some segment) :
    segment.finalBlockId = if index + 1 = (dataset.segments publication).length then .fromSegment index else .empty := by
  have final := (SegmentPublisher.getElem_publishFrom _ _ 0 _ found).2
  simp only [Nat.zero_add] at final
  exact final

private theorem content_segments : (dataset.segments publication).flatMap SegmentData.content = publication.octets :=
  SegmentPublisher.content_publishFrom _ _ 0 _

/-- Names of segments differ in the octets of their versions or numbers. -/
theorem segmentName_eq {sought number : Nat} (here : publication ∈ dataset.publications)
    (there : other ∈ dataset.publications) (small : sought < 2^64) (little : number < 2^64)
    (same : (dataset.segmentName publication sought).map Component.value = (dataset.segmentName other number).map Component.value) :
    publication = other ∧ sought = number := by
  unfold Dataset.segmentName at same
  simp only [List.map_append,List.map_singleton] at same
  obtain ⟨front,last⟩ := List.append_inj' same rfl
  obtain ⟨-,versions⟩ := List.append_inj' front rfl
  have version := Component.fromNumberWithMarker_inj (dataset.small publication here).1 (dataset.small other there).1
    (Component.eq_of_equals rfl (beq_iff_eq.mpr (List.singleton_inj.mp versions)))
  have numbers := Component.fromNumberWithMarker_inj small little
    (Component.eq_of_equals rfl (beq_iff_eq.mpr (List.singleton_inj.mp last)))
  exact ⟨List.inj_on_of_nodup_map dataset.versions here there version,numbers⟩

/-- An Interest for a segment is answered by that segment. -/
theorem answered {interest : Interest} {data : Segment} {sought : Nat} (here : publication ∈ dataset.publications)
    (small : sought < 2^64) (named : interest.name = tlvs (dataset.segmentName publication sought))
    (there : other ∈ dataset.publications) (found : (dataset.segments other)[index]? = some data.toSegmentData)
    (matching : interest.matchesData data.data = true) : publication = other ∧ sought = index := by
  have name : data.data.name = tlvs (dataset.segmentName other index) := congrArg tlvs (name_of_index found)
  have length : interest.name.length = data.data.name.length := by
    rw [named,name]
    simp [tlvs,Dataset.segmentName]
  have little : index < 2^64 := (List.getElem?_eq_some_iff.mp found).1.trans (segments_length there)
  rcases Nfd.Table.Interest.octets_of_matchesData matching with front | full
  · have same := front.eq_of_length (by rw [octets_length,octets_length,length])
    rw [named,name,octets_tlvs,octets_tlvs] at same
    exact segmentName_eq here there small little same
  · have lengths := congrArg List.length full
    rw [octets_length,octets_length,length,Nfd.Table.Data.fullName,List.length_append,List.length_singleton] at lengths
    omega

def FetchEvent.isData : FetchEvent → Bool
  | .data _ _ => true
  | .timeout => false

def FetchEvent.FromDataset (dataset : Dataset) : FetchEvent → Prop
  | .data segment _ => dataset.Holds segment
  | .timeout => True

structure Awaits (dataset : Dataset) (received : Nat) (fetcher : SegmentFetcher) (interest : Interest)
    (publication : Publication) (index : Nat) : Prop where
  inside : publication ∈ dataset.publications
  less : index < (dataset.segments publication).length
  named : interest.name = tlvs (dataset.segmentName publication index)
  buffer : fetcher.buffer = ((dataset.segments publication).take index).flatMap SegmentData.content
  few : received ≤ index + 1

def Fetched (dataset : Dataset) (received : Nat) (fetcher : SegmentFetcher) : Prop :=
  match fetcher.status with
  | .pending _ true => fetcher.buffer = [] ∧ received = 0
  | .pending interest false => ∃ publication index, Awaits dataset received fetcher interest publication index
  | .completed => ∃ publication ∈ dataset.publications,
      fetcher.buffer = publication.octets ∧ received ≤ (dataset.segments publication).length + 1
  | .failed error _ => error ≠ .dataHasNoSegment

variable {fetcher after : SegmentFetcher} {received : Nat} {verifySegment : Segment → Bool}

/-- The segment that is pending, or segment zero of any version at the beginning. -/
theorem fetched_segment {interest : Interest} {data : Segment} {nonce : UInt32} {isSegmentZeroExpected : Bool}
    (inside : publication ∈ dataset.publications) (found : (dataset.segments publication)[index]? = some data.toSegmentData)
    (buffer : fetcher.buffer = ((dataset.segments publication).take index).flatMap SegmentData.content)
    (expected : (isSegmentZeroExpected && index != 0) = false) (few : received ≤ index + 1)
    (done : fetcher.onSegmentReceived verifySegment interest data isSegmentZeroExpected nonce = some after) :
    Fetched dataset (received + 1) after := by
  obtain ⟨less,here⟩ := List.getElem?_eq_some_iff.mp found
  have name : data.name = dataset.segmentName publication index := name_of_index found
  have final : data.finalBlockId = _ := final_of_index found
  have small : index < 2^64 := less.trans (segments_length inside)
  have read : (Component.fromSegment index).toSegment = .ok index := Component.toNumberWithMarker_fromNumberWithMarker _ small
  have content : fetcher.buffer ++ data.content =
      ((dataset.segments publication).take (index + 1)).flatMap SegmentData.content := by
    rw [List.take_add_one,found,List.flatMap_append,buffer]
    exact congrArg (_ ++ ·) (List.append_nil _).symm
  unfold onSegmentReceived at done
  split at done
  · cases done
    intro same
    cases same
  · rw [name,Dataset.segmentName,List.getLast?_concat] at done
    simp only [Option.map_some,read,expected,Bool.false_eq_true,if_false,Option.some.injEq] at done
    by_cases last : index + 1 = (dataset.segments publication).length
    · rw [if_pos last] at final
      have written : (Component.fromSegment index).isEmpty = false := rfl
      simp only [final,written,read,Bool.false_eq_true,if_false,lt_irrefl] at done
      rw [← done]
      refine ⟨publication,inside,?_,?_⟩
      · change fetcher.buffer ++ data.content = _
        rw [content,last,List.take_length,content_segments]
      · omega
    · rw [if_neg last] at final
      have written : Component.empty.isEmpty = true := rfl
      simp only [final,written,if_true] at done
      rw [← done]
      have next : (index + 1) % 2^64 = index + 1 := Nat.mod_eq_of_lt (by have := segments_length inside; omega)
      refine ⟨publication,index + 1,inside,by omega,?_,content,by omega⟩
      rw [next]
      change tlvs (List.dropLast _ ++ _) = _
      rw [List.dropLast_concat]
      rfl

/-- A segment of any version comes first: if it is not segment zero, that one is asked for. -/
theorem fetched_first {interest : Interest} {data : Segment} {nonce : UInt32} (held : dataset.Holds data)
    (buffer : fetcher.buffer = [])
    (done : fetcher.onSegmentReceived verifySegment interest data true nonce = some after) : Fetched dataset 1 after := by
  obtain ⟨publication,inside,member⟩ := held
  obtain ⟨index,found⟩ := List.mem_iff_getElem?.mp member
  by_cases zero : index = 0
  · subst zero
    exact fetched_segment inside found (by rw [buffer]; rfl) rfl (Nat.zero_le _) done
  · have less := (List.getElem?_eq_some_iff.mp found).1
    have name : data.name = dataset.segmentName publication index := name_of_index found
    have read : (Component.fromSegment index).toSegment = .ok index :=
      Component.toNumberWithMarker_fromNumberWithMarker _ (less.trans (segments_length inside))
    have other : (index != 0) = true := bne_iff_ne.mpr zero
    unfold onSegmentReceived at done
    split at done
    · cases done
      intro same
      cases same
    · rw [name,Dataset.segmentName,List.getLast?_concat] at done
      simp only [Option.map_some,read,other,Bool.and_self,if_true,Option.some.injEq] at done
      rw [← done]
      refine ⟨publication,0,inside,by omega,?_,buffer,Nat.le_refl _⟩
      change tlvs (List.dropLast _ ++ _) = _
      rw [List.dropLast_concat]
      rfl

private theorem fetched_step {event : FetchEvent} (fetched : Fetched dataset received fetcher) (held : event.FromDataset dataset)
    (stepped : step verifySegment fetcher event = some after) :
    Fetched dataset (received + [event].countP FetchEvent.isData) after := by
  unfold Fetched at fetched
  unfold step at stepped
  cases status : fetcher.status with
  | pending interest isSegmentZeroExpected =>
    rw [status] at fetched stepped
    cases event with
    | timeout =>
      cases stepped
      intro same
      cases same
    | data segment nonce =>
      obtain ⟨matching,done⟩ := Option.ite_none_right_eq_some.mp stepped
      cases isSegmentZeroExpected with
      | true =>
        obtain ⟨buffer,rfl⟩ := fetched
        exact fetched_first held buffer done
      | false =>
        obtain ⟨publication,index,awaits⟩ := fetched
        obtain ⟨other,there,member⟩ := held
        obtain ⟨number,found⟩ := List.mem_iff_getElem?.mp member
        obtain ⟨rfl,rfl⟩ := answered awaits.inside (awaits.less.trans (segments_length awaits.inside)) awaits.named there
          found matching
        exact fetched_segment there found awaits.buffer rfl awaits.few done
  | completed =>
    rw [status] at stepped
    cases stepped
  | failed error message =>
    rw [status] at stepped
    cases stepped

end

/-- Three octets in version 5 of `/1`. -/
def short : Dataset where
  name := [.generic [1]]
  freshnessPeriod := SegmentPublisher.getDefaultFreshness
  publications := [⟨5,[1,2,3]⟩]
  versions := List.nodup_singleton _
  small := by simp

private theorem shortDigest_length : (List.replicate 32 (0 : UInt8)).length = 32 := rfl

def shortSegment : Segment :=
  ⟨⟨[.generic [1],.fromVersion 5,.fromSegment 0],[1,2,3],SegmentPublisher.getDefaultFreshness,.fromSegment 0⟩,
    ⟨List.replicate 32 0,shortDigest_length⟩,none⟩

end SegmentFetcher

end Ncfcc.NdnCxx
