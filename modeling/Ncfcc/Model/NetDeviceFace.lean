import Ncfcc.Library.Run
import Ncfcc.Nfd.Table.PitEntry

/-! Data in a network: Data objects, the ns-3 packets that their tags hold, and the way they take
through faces, forwarders and content stores. Faces of net devices are non-local, faces of
applications are local. To which faces a forwarder hands a Data, and which Data of a content
store answers an Interest, comes with the events. -/
namespace Ncfcc.Model
open Ncfcc.Library Ncfcc.Nfd.Table

structure Packet where
  header : Option Name
  hopCountTag : Option UInt32
  /-- The calls of `send` for this copy since it was produced or a content store answered with it;
  no function reads this. -/
  sends : Nat
  deriving DecidableEq

/-- A Data object; a tag may hold the packet it was received in. -/
structure Data where
  name : Name
  ns3PacketTag : Option Nat
  /-- As for packets. -/
  sends : Nat
  deriving DecidableEq

/-- Packets and Data objects are known by their places. -/
structure Network where
  packets : List Packet
  datas : List Data
  /-- The Data objects in the content store of each node. -/
  contentStores : Nat → List Nat
  /-- The packets that were given to net devices. -/
  sent : List Nat
  /-- The calls of `OnData` that are scheduled for applications. -/
  scheduled : List (Nat × Nat)

namespace Network

def new : Network := ⟨[],[],fun _ => [],[],[]⟩

section
variable (network : Network)

def packet (id : Nat) : Packet := network.packets.getD id ⟨none,none,0⟩

def data (id : Nat) : Data := network.datas.getD id ⟨[],none,0⟩

def addPacket (packet : Packet) : Network := { network with packets := network.packets ++ [packet] }

def modifyPacket (id : Nat) (change : Packet → Packet) : Network :=
  { network with packets := network.packets.modify id change }

def addData (data : Data) : Network := { network with datas := network.datas ++ [data] }

def modifyData (id : Nat) (change : Data → Data) : Network := { network with datas := network.datas.modify id change }

/-! Faces. -/

/-- `ToPacket`: a copy of the packet that the Data is tagged with, or an empty one. -/
def toPacket (data : Nat) : Nat × Network :=
  let packet := ((network.data data).ns3PacketTag.map network.packet).getD ⟨none,none,0⟩
  (network.packets.length,network.addPacket
    { packet with header := some (network.data data).name, sends := (network.data data).sends })

/-- `NetDeviceFace::send`: the tag is removed, incremented and added again. -/
def send (packet : Nat) : Network :=
  let tagged := network.modifyPacket packet fun packet =>
    { packet with hopCountTag := some (packet.hopCountTag.getD 0 + 1), sends := packet.sends + 1 }
  { tagged with sent := tagged.sent ++ [packet] }

/-- The face of an application schedules a call, that of a net device sends a packet. -/
def sendData (face : Face) (data : Nat) : Network :=
  if face.isLocal then { network with scheduled := network.scheduled ++ [(face.number,data)] }
  else
    let (packet,network) := network.toPacket data
    network.send packet

/-! Forwarders. -/

def onOutgoingData (data : Nat) (outFace : Face) : Network :=
  if violatesLocalhost outFace (network.data data).name then network else network.sendData outFace data

def csInsert (node data : Nat) : Network :=
  { network with contentStores := Function.update network.contentStores node (data :: network.contentStores node) }

def onDataUnsolicited (node : Nat) (inFace : Face) (data : Nat) : Network :=
  if inFace.isLocal then network.csInsert node data else network

/-- A copy without the packet goes into the content store. Without downstreams no PIT entry matches. -/
def onIncomingData (node : Nat) (inFace : Face) (data : Nat) (pendingDownstreams : Option (List Face)) : Network :=
  if violatesLocalhost inFace (network.data data).name then network
  else
    match pendingDownstreams with
    | none => network.onDataUnsolicited node inFace data
    | some faces =>
      let dataCopyWithoutPacket := network.datas.length
      let copied := (network.addData (network.data data)).modifyData dataCopyWithoutPacket fun data =>
        { data with ns3PacketTag := none }
      faces.foldl (fun network face => network.onOutgoingData data face) (copied.csInsert node dataCopyWithoutPacket)

/-- `onContentStoreHit` with a Data of the content store. -/
def onContentStoreHit (node data : Nat) (inFace : Face) : Network :=
  if data ∈ network.contentStores node then
    (network.modifyData data fun data => { data with sends := 0 }).onOutgoingData data inFace
  else network

/-- `receiveFromNetDevice`: the Data is decoded from a copy of the packet and tagged with it. -/
def receiveFromNetDevice (node device packet : Nat) (pendingDownstreams : Option (List Face)) : Network :=
  match (network.packet packet).header with
  | none => network
  | some name =>
    let copy := network.packets.length
    let data := network.datas.length
    let received := (network.addPacket { network.packet packet with header := none }).addData
      ⟨name,some copy,(network.packet packet).sends⟩
    received.onIncomingData node ⟨device,false⟩ data pendingDownstreams

/-! Applications. -/

/-- `Producer::OnInterest` creates a Data and hands it to the forwarder. -/
def produce (node app : Nat) (dataName : Name) (pendingDownstreams : Option (List Face)) : Network :=
  (network.addData ⟨dataName,none,0⟩).onIncomingData node ⟨app,true⟩ network.datas.length pendingDownstreams

/-- The hop count that `Consumer::OnData` reads, an `int`. -/
def hopCount (data : Nat) : Int :=
  match (network.data data).ns3PacketTag with
  | none => 0
  | some packet =>
    match (network.packet packet).hopCountTag with
    | none => 0
    | some count => count.toInt32.toInt

end

inductive Event where
  | produce (node app : Nat) (dataName : Name) (pendingDownstreams : Option (List Face))
  | receive (node device packet : Nat) (pendingDownstreams : Option (List Face))
  | contentStoreHit (node data : Nat) (inFace : Face)
  | evict (node data : Nat)
  | onData (app data : Nat)

/-- A net device may deliver what it was given to any number of receivers, at any time. -/
def step (network : Network) : Event → Network
  | .produce node app dataName pendingDownstreams => network.produce node app dataName pendingDownstreams
  | .receive node device packet pendingDownstreams =>
    if packet ∈ network.sent then network.receiveFromNetDevice node device packet pendingDownstreams else network
  | .contentStoreHit node data inFace => network.onContentStoreHit node data inFace
  | .evict node data => { network with
      contentStores := Function.update network.contentStores node ((network.contentStores node).erase data) }
  | .onData app data => { network with scheduled := network.scheduled.erase (app,data) }

end Network

end Ncfcc.Model
