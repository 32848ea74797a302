import Mathlib.Algebra.Group.Nat.Defs
import Ncfcc.Model.NetDeviceFace

/-! The hop counts that consumers read. A packet is changed only before it is given to a net
device, and what a content store keeps has no packet: so the tags of packets and Data
objects that are on their way count the calls of `send`, modulo 2^32. -/
namespace Ncfcc.Model.Network
open Ncfcc.Library Ncfcc.Nfd.Table

section
variable (network : Network)

/-- The count in the tag of a packet; without a tag it is zero. -/
def tagCount (packet : Nat) : UInt32 := (network.packet packet).hopCountTag.getD 0

/-- The count in the packet that a Data is tagged with; without a packet it is zero. -/
def dataCount (data : Nat) : UInt32 := (network.data data).ns3PacketTag.elim 0 network.tagCount

/-- A Data object on its way is tagged with the number of calls of `send`. -/
def Exact (data : Nat) : Prop :=
  data < network.datas.length ∧ network.dataCount data = UInt32.ofNat (network.data data).sends

structure Counted : Prop where
  tags : ∀ data packet, (network.data data).ns3PacketTag = some packet → packet < network.packets.length
  sent : ∀ packet ∈ network.sent, packet < network.packets.length ∧
    network.tagCount packet = UInt32.ofNat (network.packet packet).sends
  scheduled : ∀ call ∈ network.scheduled, network.Exact call.2
  stored : ∀ node, ∀ data ∈ network.contentStores node, data < network.datas.length ∧
    (network.data data).ns3PacketTag = none

private theorem hopCount_eq (data : Nat) : network.hopCount data = (network.dataCount data).toInt32.toInt := by
  unfold hopCount dataCount tagCount
  cases (network.data data).ns3PacketTag with
  | none => rfl
  | some packet =>
    dsimp only [Option.elim_some]
    cases (network.packet packet).hopCountTag <;> rfl

theorem Exact.hopCount {network : Network} {data : Nat} (exact : network.Exact data) :
    network.hopCount data = Int.bmod (network.data data).sends (2^32) := by
  rw [hopCount_eq,exact.2]
  simp

/-! Reading after a change. -/

private theorem packet_addPacket (packet : Packet) (id : Nat) (older : id < network.packets.length) :
    (network.addPacket packet).packet id = network.packet id := by
  unfold Network.packet addPacket
  simp [List.getD_eq_getElem?_getD,List.getElem?_append_left older]

private theorem packet_addPacket_new (packet : Packet) : (network.addPacket packet).packet network.packets.length = packet := by
  simp [Network.packet,addPacket]

private theorem data_addData (data : Data) (id : Nat) (other : id ≠ network.datas.length) :
    (network.addData data).data id = network.data id := by
  unfold Network.data addData
  rw [List.getD_eq_getElem?_getD,List.getD_eq_getElem?_getD,List.getElem?_append]
  split
  · rfl
  · rename_i beyond
    rw [List.getElem?_eq_none (by simp; omega),List.getElem?_eq_none (Nat.le_of_not_lt beyond)]

private theorem data_addData_new (data : Data) : (network.addData data).data network.datas.length = data := by
  simp [Network.data,addData]

private theorem modify_last {α : Type} (items : List α) (item : α) (change : α → α) :
    (items ++ [item]).modify items.length change = items ++ [change item] := by
  induction items with
  | nil => rfl
  | cons first rest ih => simpa using ih

private theorem addData_modifyData (data : Data) (change : Data → Data) :
    (network.addData data).modifyData network.datas.length change = network.addData (change data) := by
  unfold modifyData addData
  dsimp only
  rw [modify_last]

private theorem data_modifyData (id : Nat) (change : Data → Data) (bound : id < network.datas.length) (other : Nat) :
    (network.modifyData id change).data other = if other = id then change (network.data id) else network.data other := by
  unfold Network.data modifyData
  simp only [List.getD_eq_getElem?_getD,List.getElem?_modify]
  split
  · rename_i same
    subst same
    simp [List.getElem?_eq_getElem bound]
  · rename_i different
    rw [if_neg (Ne.symm different)]
    simp

/-! Sending. -/

def sentPacket (data : Nat) : Packet :=
  ⟨some (network.data data).name,some (network.dataCount data + 1),(network.data data).sends + 1⟩

private theorem sendData_remote (face : Face) (data : Nat) (remote : face.isLocal = false) : network.sendData face data =
    { network.addPacket (network.sentPacket data) with sent := network.sent ++ [network.packets.length] } := by
  unfold sendData
  rw [if_neg (by simp [remote])]
  unfold toPacket send modifyPacket addPacket sentPacket dataCount tagCount
  dsimp only
  rw [modify_last]
  cases (network.data data).ns3PacketTag <;> rfl

end

section
variable {network next : Network}

/-- New packets do not change the counts of those that are there. -/
theorem Counted.dataCount_addPacket (counted : network.Counted) (packet : Packet) (data : Nat) :
    (network.addPacket packet).dataCount data = network.dataCount data := by
  change (network.data data).ns3PacketTag.elim 0 (network.addPacket packet).tagCount = _
  unfold dataCount
  cases tagged : (network.data data).ns3PacketTag with
  | none => rfl
  | some held =>
    change (network.addPacket packet).tagCount held = network.tagCount held
    unfold tagCount
    rw [packet_addPacket network packet held (counted.tags data held tagged)]

theorem Exact.addPacket {data : Nat} (exact : network.Exact data) (counted : network.Counted) (packet : Packet) :
    (network.addPacket packet).Exact data :=
  ⟨exact.1,(counted.dataCount_addPacket packet data).trans exact.2⟩

private theorem length_addPacket (packet : Packet) : (network.addPacket packet).packets.length = network.packets.length + 1 := by
  simp [Network.addPacket]

theorem Counted.addPacket (counted : network.Counted) (packet : Packet) : (network.addPacket packet).Counted := by
  refine ⟨?_,?_,fun call inside => (counted.scheduled call inside).addPacket counted packet,counted.stored⟩
  · intro data held tagged
    rw [length_addPacket]
    exact Nat.lt_succ_of_lt (counted.tags data held tagged)
  · intro given inside
    obtain ⟨older,count⟩ := counted.sent given inside
    unfold tagCount at count ⊢
    rw [packet_addPacket network packet given older,length_addPacket]
    exact ⟨Nat.lt_succ_of_lt older,count⟩

theorem Counted.sendData (counted : network.Counted) {data : Nat} (exact : network.Exact data) (face : Face) :
    (network.sendData face data).Counted ∧ (network.sendData face data).Exact data := by
  cases remote : face.isLocal with
  | true =>
    unfold Network.sendData
    rw [if_pos remote]
    refine ⟨⟨counted.tags,counted.sent,?_,counted.stored⟩,exact⟩
    intro call inside
    rcases List.mem_append.mp inside with before | last
    · exact counted.scheduled call before
    · rw [List.mem_singleton.mp last]
      exact exact
  | false =>
    have added := counted.addPacket (network.sentPacket data)
    rw [sendData_remote network face data remote]
    refine ⟨⟨added.tags,?_,added.scheduled,added.stored⟩,exact.addPacket counted _⟩
    intro packet inside
    rcases List.mem_append.mp inside with before | last
    · exact added.sent packet before
    · have fresh := packet_addPacket_new network (network.sentPacket data)
      rw [List.mem_singleton.mp last]
      change network.packets.length < (network.addPacket (network.sentPacket data)).packets.length ∧
        (network.addPacket (network.sentPacket data)).tagCount network.packets.length =
          UInt32.ofNat ((network.addPacket (network.sentPacket data)).packet network.packets.length).sends
      unfold tagCount
      rw [fresh,length_addPacket]
      refine ⟨Nat.lt_succ_self _,?_⟩
      change network.dataCount data + 1 = UInt32.ofNat ((network.data data).sends + 1)
      rw [exact.2,UInt32.ofNat_add]
      rfl

theorem Counted.onOutgoingData (counted : network.Counted) {data : Nat} (exact : network.Exact data) (outFace : Face) :
    (network.onOutgoingData data outFace).Counted ∧ (network.onOutgoingData data outFace).Exact data := by
  unfold Network.onOutgoingData
  split
  · exact ⟨counted,exact⟩
  · exact counted.sendData exact outFace

theorem Counted.downstreams (counted : network.Counted) {data : Nat} (exact : network.Exact data) (faces : List Face) :
    (faces.foldl (fun network face => network.onOutgoingData data face) network).Counted := by
  induction faces generalizing network with
  | nil => exact counted
  | cons face faces ih =>
    obtain ⟨kept,still⟩ := counted.onOutgoingData exact face
    exact ih kept still

/-! Objects are made. -/

private theorem dataCount_addData (data : Data) {id : Nat} (older : id < network.datas.length) :
    (network.addData data).dataCount id = network.dataCount id := by
  unfold dataCount
  rw [data_addData network data id (Nat.ne_of_lt older)]
  rfl

theorem Exact.addData {id : Nat} (exact : network.Exact id) (data : Data) : (network.addData data).Exact id := by
  refine ⟨?_,?_⟩
  · unfold Network.addData
    rw [List.length_append]
    exact Nat.lt_add_right _ exact.1
  · rw [dataCount_addData data exact.1,data_addData network data id (Nat.ne_of_lt exact.1)]
    exact exact.2

theorem Counted.addData (counted : network.Counted) {data : Data}
    (tag : ∀ packet, data.ns3PacketTag = some packet → packet < network.packets.length) : (network.addData data).Counted := by
  refine ⟨?_,counted.sent,fun call inside => (counted.scheduled call inside).addData data,?_⟩
  · intro id packet tagged
    by_cases last : id = network.datas.length
    · rw [last,data_addData_new] at tagged
      exact tag packet tagged
    · rw [data_addData network data id last] at tagged
      exact counted.tags id packet tagged
  · intro node id inside
    obtain ⟨older,none⟩ := counted.stored node id inside
    rw [data_addData network data id (Nat.ne_of_lt older)]
    refine ⟨?_,none⟩
    unfold Network.addData
    rw [List.length_append]
    exact Nat.lt_add_right _ older

private theorem exact_of_untagged {data : Nat} (bound : data < network.datas.length) (untagged : (network.data data).ns3PacketTag = none)
    (unsent : (network.data data).sends = 0) : network.Exact data := by
  refine ⟨bound,?_⟩
  unfold dataCount
  rw [untagged,unsent]
  rfl

theorem Counted.csInsert (counted : network.Counted) (node : Nat) {data : Nat} (bound : data < network.datas.length)
    (untagged : (network.data data).ns3PacketTag = none) : (network.csInsert node data).Counted := by
  refine ⟨counted.tags,counted.sent,counted.scheduled,?_⟩
  intro other id inside
  change id ∈ Function.update network.contentStores node (data :: network.contentStores node) other at inside
  rw [Function.update_apply] at inside
  split at inside
  · rcases List.mem_cons.mp inside with rfl | before
    · exact ⟨bound,untagged⟩
    · exact counted.stored node id before
  · exact counted.stored other id inside

/-- The incoming Data pipeline, for a Data that is exact and has no packet if it comes from an application. -/
theorem Counted.onIncomingData (counted : network.Counted) (node : Nat) {inFace : Face} {data : Nat}
    (exact : network.Exact data) (produced : inFace.isLocal = true → (network.data data).ns3PacketTag = none)
    (pendingDownstreams : Option (List Face)) : (network.onIncomingData node inFace data pendingDownstreams).Counted := by
  unfold Network.onIncomingData
  split
  · exact counted
  · cases pendingDownstreams with
    | none =>
      dsimp only
      unfold onDataUnsolicited
      split
      · rename_i here
        exact counted.csInsert node exact.1 (produced here)
      · exact counted
    | some faces =>
      dsimp only
      rw [addData_modifyData]
      have added : (network.addData { network.data data with ns3PacketTag := none }).Counted := counted.addData nofun
      have last : network.datas.length < (network.addData { network.data data with ns3PacketTag := none }).datas.length := by
        unfold Network.addData
        simp
      refine (added.csInsert node last ?_).downstreams (exact.addData _) faces
      rw [data_addData_new]

/-! Steps. -/

theorem Counted.receiveFromNetDevice (counted : network.Counted) (node device : Nat) {packet : Nat} (given : packet ∈ network.sent)
    (pendingDownstreams : Option (List Face)) :
    (network.receiveFromNetDevice node device packet pendingDownstreams).Counted := by
  unfold Network.receiveFromNetDevice
  split
  · exact counted
  · rename_i name header
    obtain ⟨-,count⟩ := counted.sent packet given
    have added := counted.addPacket { network.packet packet with header := none }
    have held := packet_addPacket_new network { network.packet packet with header := none }
    have size : (network.addPacket { network.packet packet with header := none }).packets.length =
        network.packets.length + 1 := length_addPacket _
    dsimp only
    have known : network.datas = (network.addPacket { network.packet packet with header := none }).datas := rfl
    rw [known]
    generalize network.addPacket { network.packet packet with header := none } = copied at added held size ⊢
    have fresh := data_addData_new copied ⟨name,some network.packets.length,(network.packet packet).sends⟩
    refine (added.addData ?_).onIncomingData node ⟨?_,?_⟩ (fun isLocal => absurd isLocal Bool.false_ne_true)
      pendingDownstreams
    · rintro copy ⟨⟩
      rw [size]
      exact Nat.lt_succ_self _
    · unfold Network.addData
      simp
    · unfold dataCount
      rw [fresh]
      change copied.tagCount network.packets.length = _
      unfold tagCount at count ⊢
      rw [held]
      exact count

theorem Counted.onContentStoreHit (counted : network.Counted) (node data : Nat) (inFace : Face) :
    (network.onContentStoreHit node data inFace).Counted := by
  unfold Network.onContentStoreHit
  split
  · rename_i inside
    obtain ⟨bound,untagged⟩ := counted.stored node data inside
    have read := data_modifyData network data (fun data => { data with sends := 0 }) bound
    have length : (network.modifyData data fun data => { data with sends := 0 }).datas.length = network.datas.length := by
      unfold modifyData
      rw [List.length_modify]
    generalize changed : (network.modifyData data fun data => { data with sends := 0 }) = answering at read length ⊢
    have tags : ∀ id, (answering.data id).ns3PacketTag = (network.data id).ns3PacketTag := by
      intro id
      rw [read]
      split
      · rename_i same
        rw [same]
      · rfl
    have answer : answering.Exact data := by
      refine exact_of_untagged (length ▸ bound) ((tags data).trans untagged) ?_
      rw [read,if_pos rfl]
    have kept : ∀ id, network.Exact id → answering.Exact id := by
      intro id exact
      by_cases same : id = data
      · exact same ▸ answer
      · refine ⟨length ▸ exact.1,?_⟩
        have counts : answering.dataCount id = network.dataCount id := by
          unfold dataCount
          rw [tags,← changed]
          rfl
        rw [counts,read,if_neg same]
        exact exact.2
    have still : answering.Counted := by
      refine ⟨?_,?_,?_,?_⟩
      · intro id packet tagged
        rw [tags] at tagged
        have older := counted.tags id packet tagged
        rw [← changed]
        exact older
      · rw [← changed]
        exact counted.sent
      · intro call inside
        rw [← changed] at inside
        exact kept call.2 (counted.scheduled call inside)
      · intro other id inside
        rw [← changed] at inside
        rw [tags,length]
        exact counted.stored other id inside
    exact (still.onOutgoingData answer inFace).1
  · exact counted

theorem Counted.produce (counted : network.Counted) (node app : Nat) (dataName : Name) (pendingDownstreams : Option (List Face)) :
    (network.produce node app dataName pendingDownstreams).Counted := by
  have added : (network.addData ⟨dataName,none,0⟩).Counted := counted.addData nofun
  have fresh := data_addData_new network ⟨dataName,none,0⟩
  refine added.onIncomingData node (exact_of_untagged ?_ ?_ ?_) ?_ pendingDownstreams
  · unfold Network.addData
    simp
  · rw [fresh]
  · rw [fresh]
  · intro _
    rw [fresh]

theorem step_counted (counted : network.Counted) (event : Event) : (network.step event).Counted := by
  cases event with
  | produce node app dataName pendingDownstreams => exact counted.produce node app dataName pendingDownstreams
  | receive node device packet pendingDownstreams =>
    unfold step
    dsimp only
    split
    · rename_i given
      exact counted.receiveFromNetDevice node device given pendingDownstreams
    · exact counted
  | contentStoreHit node data inFace => exact counted.onContentStoreHit node data inFace
  | evict node data =>
    refine ⟨counted.tags,counted.sent,counted.scheduled,?_⟩
    intro other id inside
    change id ∈ Function.update network.contentStores node ((network.contentStores node).erase data) other at inside
    rw [Function.update_apply] at inside
    split at inside
    · exact counted.stored node id (List.mem_of_mem_erase inside)
    · exact counted.stored other id inside
  | onData app data =>
    refine ⟨counted.tags,counted.sent,?_,counted.stored⟩
    exact fun call inside => counted.scheduled call (List.mem_of_mem_erase inside)

end

theorem new_counted : new.Counted := by
  refine ⟨?_,?_,?_,?_⟩
  · intro data packet tagged
    cases tagged
  · exact fun packet inside => absurd inside List.not_mem_nil
  · exact fun call inside => absurd inside List.not_mem_nil
  · exact fun node data inside => absurd inside List.not_mem_nil

private theorem run_counted (events : List Event) : Along step Counted new events := by
  have always : Steps step (fun _ _ => True) new events := fun _ _ _ => trivial
  exact along_of_steps (fun network event counted _ => step_counted counted event) new_counted always

/-- In every run, a Data that is handed to an application shows the number of calls of `send` for
it as a signed number of 32 bits, and so the number itself below 2^31. -/
theorem hopCount_exact (events : List Event) : Along step (fun network => ∀ call ∈ network.scheduled,
    network.hopCount call.2 = Int.bmod (network.data call.2).sends (2^32) ∧
      ((network.data call.2).sends < 2^31 → network.hopCount call.2 = (network.data call.2).sends)) new events := by
  intro before inside call waiting
  have count := ((run_counted events before inside).scheduled call waiting).hopCount
  refine ⟨count,?_⟩
  intro small
  rw [count]
  apply Int.bmod_eq_of_le <;> omega

/-! A long way. -/

section
variable {network : Network}

private theorem onIncomingData_single (node : Nat) (inFace : Face) {data : Nat} (bound : data < network.datas.length)
    (name : (network.data data).name = []) (outFace : Face) :
    ∃ middle : Network, network.onIncomingData node inFace data (some [outFace]) = middle.sendData outFace data ∧
      middle.data data = network.data data := by
  have open_ : ∀ face, violatesLocalhost face [] = false := by
    intro face
    unfold violatesLocalhost
    cases face.isLocal <;> rfl
  have copied : (network.addData (network.data data)).modifyData network.datas.length
      (fun data => { data with ns3PacketTag := none }) = network.addData { network.data data with ns3PacketTag := none } :=
    addData_modifyData network _ _
  have same : ((network.addData { network.data data with ns3PacketTag := none }).csInsert node network.datas.length).data data =
      network.data data := data_addData network _ data (Nat.ne_of_lt bound)
  refine ⟨_,?_,same⟩
  unfold Network.onIncomingData
  rw [name,open_]
  change ((network.addData (network.data data)).modifyData network.datas.length _ |>.csInsert node _).onOutgoingData data outFace = _
  rw [copied]
  unfold onOutgoingData
  rw [same,name,open_]
  rfl

/-- A packet that waits for the receiver, after a number of calls of `send`. -/
def Waits (sends : Nat) (network : Network) : Prop :=
  ∃ packet ∈ network.sent, (network.packet packet).header = some [] ∧ (network.packet packet).sends = sends

private theorem sendData_waits {data : Nat} (name : (network.data data).name = []) {face : Face} (remote : face.isLocal = false) :
    (network.sendData face data).Waits ((network.data data).sends + 1) := by
  rw [sendData_remote network face data remote]
  have fresh := packet_addPacket_new network (network.sentPacket data)
  refine ⟨network.packets.length,by simp,?_,?_⟩
  · refine (congrArg Packet.header fresh).trans ?_
    exact congrArg some name
  · exact congrArg Packet.sends fresh

private theorem receive_single {sends : Nat} (waits : network.Waits sends) (outFace : Face) :
    ∃ event, ∃ middle : Network, ∃ data, network.step event = middle.sendData outFace data ∧
      (middle.data data).name = [] ∧ (middle.data data).sends = sends := by
  obtain ⟨packet,given,header,rfl⟩ := waits
  generalize made : (network.addPacket { network.packet packet with header := none }).addData
    ⟨[],some network.packets.length,(network.packet packet).sends⟩ = received
  have fresh : received.data network.datas.length =
      ⟨[],some network.packets.length,(network.packet packet).sends⟩ := by
    rw [← made]
    exact data_addData_new _ _
  have bound : network.datas.length < received.datas.length := by
    rw [← made]
    unfold addData addPacket
    simp
  obtain ⟨middle,handed,same⟩ := onIncomingData_single 0 ⟨0,false⟩ bound (by rw [fresh]) outFace
  refine ⟨.receive 0 0 packet (some [outFace]),middle,network.datas.length,?_,?_,?_⟩
  · unfold step
    dsimp only
    rw [if_pos given]
    unfold receiveFromNetDevice
    rw [header]
    dsimp only
    rw [made]
    exact handed
  · rw [same,fresh]
  · rw [same,fresh]

end

private theorem exists_waits (sends : Nat) : ∃ events, (run step new events).Waits (sends + 1) := by
  induction sends with
  | zero =>
    refine ⟨[.produce 0 0 [] (some [⟨0,false⟩])],0,?_,?_,?_⟩
    · decide
    · decide
    · decide
  | succ sends ih =>
    obtain ⟨events,waits⟩ := ih
    obtain ⟨event,middle,data,handed,name,count⟩ := receive_single waits ⟨1,false⟩
    refine ⟨events ++ [event],?_⟩
    rw [run_concat,handed,← count]
    exact sendData_waits name rfl

/-- After 2^31 calls of `send` the `int` is negative. -/
theorem hopCount_overflows : ¬ ∀ events : List Event, Along step (fun network => ∀ call ∈ network.scheduled,
    network.hopCount call.2 = (network.data call.2).sends) new events := by
  intro exact
  obtain ⟨events,waits⟩ := exists_waits (2^31 - 1)
  obtain ⟨event,middle,data,handed,-,count⟩ := receive_single waits ⟨0,true⟩
  have reached : run step new (events ++ [event]) = { middle with scheduled := middle.scheduled ++ [(0,data)] } := by
    rw [run_concat,handed]
    rfl
  have waiting : (0,data) ∈ (run step new (events ++ [event])).scheduled := by
    rw [reached]
    simp
  have claimed := exact (events ++ [event]) _ List.prefix_rfl (0,data) waiting
  have counted := ((run_counted (events ++ [event]) _ List.prefix_rfl).scheduled (0,data) waiting).hopCount
  have sends : ((run step new (events ++ [event])).data data).sends = 2^31 := by
    rw [reached]
    exact count
  rw [claimed,sends] at counted
  revert counted
  decide

end Ncfcc.Model.Network
