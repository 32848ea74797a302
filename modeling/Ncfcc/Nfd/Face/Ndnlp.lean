import Ncfcc.Encoding.Tlv

/-! The link protocol: a slicer cuts network-layer blocks into numbered packets, and a
store of partial messages puts them together again at the receiver. -/
namespace Ncfcc.Nfd.Face
open Ncfcc.Library Ncfcc.Encoding

/-! Slicing. -/

def fragmentElements (seq : UInt64) (fragIndex fragCount : Nat) (payload : List UInt8) : List (Nat × List UInt8) :=
  [(81,bigEndian 8 seq.toNat)] ++
    (if 1 < fragCount then [(82,nonNegativeInteger fragIndex),(83,nonNegativeInteger fragCount)] else []) ++
    [(84,payload)]

/-- `encodeFragment` into a buffer. -/
def encodeFragment (seq : UInt64) (fragIndex fragCount : Nat) (payload : List UInt8) : Block :=
  .make 80 ((fragmentElements seq fragIndex fragCount payload).flatMap fun part => (Block.make part.1 part.2).wire)

/-- `encodeFragment` with an estimator: the sum of the sizes alone. -/
def estimateFragment (fragIndex fragCount payloadSize : Nat) : Nat :=
  let field (type size : Nat) := size + sizeOfVarNumber size + sizeOfVarNumber type
  let fragment := if 1 < fragCount then
    field 83 (sizeOfNonNegativeInteger fragCount) + field 82 (sizeOfNonNegativeInteger fragIndex) else 0
  let totalLength := (field 84 payloadSize + fragment + field 81 8) % 2^64
  (totalLength + sizeOfVarNumber totalLength + sizeOfVarNumber 80) % 2^64

structure Slicer where
  mtu : Nat
  maxPayload : Nat
  /-- The next sequence number. -/
  next : UInt64
  deriving DecidableEq

namespace Slicer

/-- The header at its largest, in the arithmetic of `size_t`. -/
def overhead (mtu : Nat) : Nat := (estimateFragment 65534 65535 mtu + 2^64 - mtu) % 2^64

def new (mtu : Nat) : Slicer := ⟨mtu,(mtu + 2^64 - overhead mtu) % 2^64,0⟩

def maxBufferSize : Nat := 2^63 - 1

/-- The number of fragments before it is cut to sixteen bits. -/
def fragments (slicer : Slicer) (networkPacketSize : Nat) : Nat :=
  networkPacketSize / slicer.maxPayload + if networkPacketSize % slicer.maxPayload = 0 then 0 else 1

def payload (slicer : Slicer) (networkPacket : List UInt8) (fragIndex : Nat) : List UInt8 :=
  let payloadOffset := fragIndex * slicer.maxPayload
  (networkPacket.drop payloadOffset).take (min slicer.maxPayload (networkPacket.length - payloadOffset))

/-- No result if a buffer for a packet cannot be made. -/
def slice (block : Block) (slicer : Slicer) : Option (List Block × Slicer) :=
  if maxBufferSize < slicer.mtu then none
  else
    let fragCount := slicer.fragments block.wire.length % 2^16
    let packets := (List.range fragCount).map fun fragIndex =>
      encodeFragment (slicer.next + UInt64.ofNat fragIndex) fragIndex fragCount (slicer.payload block.wire fragIndex)
    some (packets,{ slicer with next := slicer.next + UInt64.ofNat fragCount })

def sliceAll : List Block → Slicer → Option (List (List Block))
  | [], _ => some []
  | block :: blocks, slicer => do
    let (packets,slicer) ← slicer.slice block
    let others ← sliceAll blocks slicer
    some (packets :: others)

end Slicer

/-! Parsing. -/

structure NdnlpData where
  seq : UInt64
  fragIndex : Nat
  fragCount : Nat
  payload : Block
  deriving DecidableEq

namespace NdnlpData

/-- No result for a packet that is not accepted; an exception where the TLVs inside are
malformed. -/
def fromBlock (wire : Block) : Except String (Option NdnlpData) := do
  if wire.type ≠ 80 then return none
  let elements ← wire.parse
  if elements.length < 2 then return none
  let (some sequenceElement,some payloadElement) := (elements.head?,elements.getLast?) | return none
  if sequenceElement.type ≠ 81 then return none
  if sequenceElement.value.length ≠ 8 then return none
  let seq := UInt64.ofNat (fromBigEndian sequenceElement.value)
  if payloadElement.type ≠ 84 then return none
  if elements.length = 2 then return some ⟨seq,0,1,payloadElement⟩
  if elements.length ≠ 4 then return none
  let (some fragIndexElement,some fragCountElement) := (elements[1]?,elements[2]?) | return none
  if fragIndexElement.type ≠ 82 then return none
  let fragIndex ← readNonNegativeInteger fragIndexElement.value
  if 65535 < fragIndex then return none
  if fragCountElement.type ≠ 83 then return none
  let fragCount ← readNonNegativeInteger fragCountElement.value
  if 65535 < fragCount then return none
  if fragCount ≤ fragIndex then return none
  return some ⟨seq,fragIndex,fragCount,payloadElement⟩

end NdnlpData

/-! Reassembly. -/

structure PartialMessage where
  fragCount : Nat
  received : Nat
  payloads : List (Option Block)
  totalLength : Nat
  deriving DecidableEq

namespace PartialMessage

def new : PartialMessage := ⟨0,0,[],0⟩

/-- Nothing changes for a fragment that does not fit or is a duplicate. -/
def add (fragIndex fragCount : Nat) (payload : Block) (message : PartialMessage) : PartialMessage :=
  let message := if message.received = 0 then
    { message with fragCount, payloads := List.replicate fragCount none } else message
  if message.fragCount ≠ fragCount ∨ message.fragCount ≤ fragIndex then message
  else if message.payloads[fragIndex]?.join.isSome then message
  else
    { message with
      payloads := message.payloads.set fragIndex (some payload)
      received := message.received + 1
      totalLength := message.totalLength + payload.value.length }

def isComplete (message : PartialMessage) : Bool := message.received = message.fragCount

/-- The payloads fill a buffer of the total length. -/
def reassemble (message : PartialMessage) : Option Block :=
  let buffer := message.payloads.flatMap fun payload => (payload.map Block.value).getD []
  if buffer.length = message.totalLength then Block.fromBuffer buffer else none

def reassembleSingle (fragment : NdnlpData) : Option Block := fragment.payload.blockFromValue.toOption

end PartialMessage

abbrev PartialMessageStore := UInt64 → Option PartialMessage

namespace PartialMessageStore

def new : PartialMessageStore := fun _ => none

def receive (pkt : NdnlpData) (store : PartialMessageStore) : Option Block × PartialMessageStore :=
  if pkt.fragCount = 1 then (PartialMessage.reassembleSingle pkt,store)
  else
    let messageIdentifier := pkt.seq - UInt64.ofNat pkt.fragIndex
    let message := ((store messageIdentifier).getD .new).add pkt.fragIndex pkt.fragCount pkt.payload
    if message.isComplete then (message.reassemble,Function.update store messageIdentifier none)
    else (none,Function.update store messageIdentifier (some message))

/-- A packet is parsed and received; one that is not accepted is dropped. -/
def accept (packet : Block) (store : PartialMessageStore) : Except String (Option Block × PartialMessageStore) := do
  match ← NdnlpData.fromBlock packet with
  | some pkt => return store.receive pkt
  | none => return (none,store)

def acceptAll : List Block → PartialMessageStore → Except String (List Block × PartialMessageStore)
  | [], store => return ([],store)
  | packet :: packets, store => do
    let (delivered,store) ← store.accept packet
    let (others,store) ← acceptAll packets store
    return (delivered.toList ++ others,store)

end PartialMessageStore

end Ncfcc.Nfd.Face
