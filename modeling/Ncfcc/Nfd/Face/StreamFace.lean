import Ncfcc.Encoding.Tlv
import Ncfcc.Library.Framing
import Ncfcc.Library.Run

/-! Two stream faces with a byte stream from one to the other. Packets are written one at a time,
and read from whatever octets have arrived, into a buffer of the size of a packet. -/
namespace Ncfcc.Nfd.Face
open Ncfcc.Library Ncfcc.Encoding

/-- A block that has its wire encoding, as `wireEncode` makes it. -/
abbrev WireBlock := { block : Block // block.HasWire }

private theorem fromBuffer_eq_some {octets : List UInt8} {block : Block} :
    Block.fromBuffer octets = some block ↔ block.HasWire ∧ block.wire <+: octets := by
  have same : Block.fromBuffer octets = some block ↔ ∃ rest, Block.element octets = .ok (block,rest) := by
    unfold Block.fromBuffer Block.element
    constructor
    · intro read
      obtain ⟨typed,typeRead,read⟩ := Option.bind_eq_some_iff.mp read
      obtain ⟨sized,sizeRead,read⟩ := Option.bind_eq_some_iff.mp read
      dsimp only at sizeRead read
      split at read
      · cases read
      · rename_i enough
        cases read
        refine ⟨sized.2.drop sized.1,?_⟩
        refine bind_eq_ok.mpr ⟨typed,throwType_eq_ok.mpr typeRead,bind_eq_ok.mpr ⟨sized,throwVarNumber_eq_ok.mpr sizeRead,?_⟩⟩
        exact if_neg enough
    · rintro ⟨rest,read⟩
      obtain ⟨typed,typeRead,read⟩ := bind_eq_ok.mp read
      obtain ⟨sized,sizeRead,read⟩ := bind_eq_ok.mp read
      dsimp only at sizeRead read
      split at read
      · cases read
      · rename_i enough
        cases read
        refine Option.bind_eq_some_iff.mpr ⟨typed,throwType_eq_ok.mp typeRead,?_⟩
        exact Option.bind_eq_some_iff.mpr ⟨sized,throwVarNumber_eq_ok.mp sizeRead,if_neg enough⟩
  rw [same]
  constructor
  · rintro ⟨rest,read⟩
    obtain ⟨wired,whole⟩ := Block.element_eq_ok.mp read
    exact ⟨wired,rest,whole.symm⟩
  · rintro ⟨wired,rest,whole⟩
    exact ⟨rest,Block.element_eq_ok.mpr ⟨wired,whole.symm⟩⟩

def blocks : Framing WireBlock UInt8 where
  wire block := block.val.wire
  first octets := (Block.fromBuffer octets).pmap (fun block wired => ⟨block,wired⟩) fun _ read =>
    Block.hasWire_of_fromBuffer read
  wire_ne_nil block := Block.wire_ne_nil block.property
  first_eq_some := by
    intro octets block
    rw [Option.pmap_eq_some_iff]
    constructor
    · rintro ⟨inner,wired,read,rfl⟩
      exact (fromBuffer_eq_some.mp read).2
    · exact fun inside => ⟨block.val,block.property,fromBuffer_eq_some.mpr ⟨block.property,inside⟩,rfl⟩

def maxNdnPacketSize : Nat := 8800

structure Connection where
  sendQueue : List WireBlock
  /-- How many octets of the front of the queue are written, while `async_write` runs. -/
  writing : Option Nat
  stream : List UInt8
  inputBuffer : List UInt8
  failed : Option String
  /-- What was given to the sending face, and what the receiving face was to decode and dispatch. -/
  sent : List WireBlock
  dispatched : List WireBlock

inductive StreamEvent where
  /-- `sendInterest` or `sendData` -/
  | send (packet : WireBlock)
  /-- The socket takes some octets. -/
  | transfer (count : Nat)
  | handleSend
  | handleReceive (nBytesReceived : Nat)
  | close

def StreamEvent.packet : StreamEvent → Option WireBlock
  | .send packet => some packet
  | _ => none

namespace Connection

def new : Connection := ⟨[],none,[],[],none,[],[]⟩

def tooLarge : String := "Failed to parse incoming packet or packet too large to process"

def sendFromQueue (connection : Connection) : Connection := { connection with writing := some 0 }

def send (packet : WireBlock) (connection : Connection) : Connection :=
  let wasQueueEmpty := connection.sendQueue.isEmpty
  let pushed := { connection with
    sendQueue := connection.sendQueue ++ [packet]
    sent := connection.sent ++ [packet] }
  if wasQueueEmpty then pushed.sendFromQueue else pushed

/-- Undefined where no write runs or the packet does not have that many octets left. -/
def transfer (count : Nat) (connection : Connection) : Option Connection := do
  let written ← connection.writing
  let front ← connection.sendQueue.head?
  if 0 < count ∧ written + count ≤ front.val.wire.length then
    some { connection with
      writing := some (written + count)
      stream := connection.stream ++ (front.val.wire.drop written).take count }
  else none

/-- The write is complete with the last octet of the packet. -/
def handleSend (connection : Connection) : Option Connection := do
  let written ← connection.writing
  let front ← connection.sendQueue.head?
  if written = front.val.wire.length then
    let popped := { connection with
      sendQueue := connection.sendQueue.tail
      writing := none }
    some (if popped.sendQueue.isEmpty then popped else popped.sendFromQueue)
  else none

/-- Octets arrive as there is room for; none any more once the face has failed. -/
def handleReceive (nBytesReceived : Nat) (connection : Connection) : Option Connection :=
  if connection.failed = none ∧ 0 < nBytesReceived ∧ nBytesReceived ≤ connection.stream.length ∧
      connection.inputBuffer.length + nBytesReceived ≤ maxNdnPacketSize then
    let received := connection.inputBuffer ++ connection.stream.take nBytesReceived
    let (elements,rest) := blocks.extract received.length received
    let dispatched := { connection with
      stream := connection.stream.drop nBytesReceived
      inputBuffer := rest
      dispatched := connection.dispatched ++ elements }
    if rest ≠ [] ∧ received.length = maxNdnPacketSize ∧ elements = [] then
      some { dispatched with failed := some tooLarge }
    else some dispatched
  else none

def close (connection : Connection) : Connection :=
  { connection with failed := connection.failed <|> some "Face closed" }

def step (connection : Connection) : StreamEvent → Option Connection
  | .send packet => some (connection.send packet)
  | .transfer count => connection.transfer count
  | .handleSend => connection.handleSend
  | .handleReceive nBytesReceived => connection.handleReceive nBytesReceived
  | .close => some connection.close

/-! What holds at all times. -/

def unwritten (connection : Connection) : List UInt8 :=
  (blocks.written connection.sendQueue).drop (connection.writing.getD 0)

structure Sound (connection : Connection) : Prop where
  /-- No octet is lost, repeated or moved. -/
  octets : blocks.written connection.dispatched ++ (connection.inputBuffer ++ (connection.stream ++ connection.unwritten)) =
    blocks.written connection.sent
  /-- A write runs just while there is something to write. -/
  writing : match connection.sendQueue with
    | [] => connection.writing = none
    | front :: _ => ∃ written, connection.writing = some written ∧ written ≤ front.val.wire.length
  /-- No whole packet waits in the buffer. -/
  partial_packet : blocks.first connection.inputBuffer = none
  room : connection.failed = none → connection.inputBuffer.length < maxNdnPacketSize
  full : connection.failed = some tooLarge → connection.inputBuffer.length = maxNdnPacketSize
  small : ∀ packet ∈ connection.dispatched, packet.val.wire.length ≤ maxNdnPacketSize

private theorem never_first : blocks.first [] = none := rfl

theorem sound_new : Sound new where
  octets := rfl
  writing := rfl
  partial_packet := never_first
  room := fun _ => by decide
  full := fun failed => by cases failed
  small := fun packet inside => absurd inside List.not_mem_nil

variable {connection after : Connection}

private theorem sound_send (sound : connection.Sound) (packet : WireBlock) : (connection.send packet).Sound := by
  have whole := sound.octets
  have writing := sound.writing
  unfold unwritten at whole
  unfold send
  cases queue : connection.sendQueue with
  | nil =>
    rw [queue] at writing whole
    dsimp only at writing
    simp only [List.isEmpty_nil,if_true]
    refine ⟨?_,⟨0,rfl,Nat.zero_le _⟩,sound.partial_packet,sound.room,sound.full,sound.small⟩
    simp only [unwritten,sendFromQueue,Framing.written_append,← whole,writing]
    simp
  | cons front later =>
    rw [queue] at writing whole
    obtain ⟨written,runs,enough⟩ := writing
    simp only [List.isEmpty_cons,Bool.false_eq_true,if_false]
    refine ⟨?_,⟨written,runs,enough⟩,sound.partial_packet,sound.room,sound.full,sound.small⟩
    have inside : written ≤ (blocks.written (front :: later)).length := by
      rw [Framing.written_cons,List.length_append]
      exact enough.trans (Nat.le_add_right _ _)
    simp only [unwritten,Framing.written_append,← whole,runs,Option.getD_some,List.drop_append_of_le_length inside,
      List.append_assoc]

private theorem sound_transfer (sound : connection.Sound) {count : Nat} (stepped : connection.transfer count = some after) :
    after.Sound := by
  unfold transfer at stepped
  obtain ⟨written,runs,stepped⟩ := Option.bind_eq_some_iff.mp stepped
  obtain ⟨front,head,stepped⟩ := Option.bind_eq_some_iff.mp stepped
  obtain ⟨later,queue⟩ := List.head?_eq_some_iff.mp head
  split at stepped
  · rename_i inside
    cases stepped
    have whole := sound.octets
    refine ⟨?_,?_,sound.partial_packet,sound.room,sound.full,sound.small⟩
    · rw [← whole]
      simp only [unwritten,runs,queue,Option.getD_some,Framing.written_cons]
      have moved : (front.val.wire.drop written).take count ++ (front.val.wire ++ blocks.written later).drop (written + count) =
          (front.val.wire ++ blocks.written later).drop written := by
        rw [List.drop_append_of_le_length (by omega),List.drop_append_of_le_length (by omega),← List.append_assoc,
          ← List.drop_drop,List.take_append_drop]
      change _ ++ (_ ++ ((_ ++ _) ++ (front.val.wire ++ blocks.written later).drop (written + count))) = _
      rw [List.append_assoc connection.stream,moved]
      rfl
    · rw [queue]
      exact ⟨_,rfl,inside.2⟩
  · cases stepped

private theorem sound_handleSend (sound : connection.Sound) (stepped : connection.handleSend = some after) : after.Sound := by
  unfold handleSend at stepped
  obtain ⟨written,runs,stepped⟩ := Option.bind_eq_some_iff.mp stepped
  obtain ⟨front,head,stepped⟩ := Option.bind_eq_some_iff.mp stepped
  obtain ⟨later,queue⟩ := List.head?_eq_some_iff.mp head
  split at stepped
  · rename_i complete
    have whole := sound.octets
    simp only [unwritten,runs,queue,Option.getD_some,Framing.written_cons,complete] at whole
    change _ ++ (_ ++ (_ ++ (front.val.wire ++ blocks.written later).drop front.val.wire.length)) = _ at whole
    rw [List.drop_left] at whole
    rw [queue] at stepped
    cases later with
    | nil =>
      cases stepped
      exact ⟨whole,rfl,sound.partial_packet,sound.room,sound.full,sound.small⟩
    | cons next later =>
      cases stepped
      exact ⟨whole,⟨0,rfl,Nat.zero_le _⟩,sound.partial_packet,sound.room,sound.full,sound.small⟩
  · cases stepped

private theorem wire_length_le {items : List WireBlock} {packet : WireBlock} (inside : packet ∈ items) :
    packet.val.wire.length ≤ (blocks.written items).length := by
  have member : packet.val.wire ∈ items.map blocks.wire := List.mem_map.mpr ⟨packet,inside,rfl⟩
  unfold Framing.written
  rw [List.flatMap_def]
  exact (List.sublist_flatten_of_mem member).length_le

private theorem sound_handleReceive (sound : connection.Sound) {count : Nat}
    (stepped : connection.handleReceive count = some after) : after.Sound := by
  unfold handleReceive at stepped
  split at stepped
  · rename_i possible
    obtain ⟨alive,positive,available,fits⟩ := possible
    dsimp only at stepped
    generalize arrived : connection.inputBuffer ++ connection.stream.take count = received at stepped
    obtain ⟨split,stuck⟩ := blocks.extract_spec (Nat.le_refl received.length)
    generalize blocks.extract received.length received = result at stepped split stuck
    obtain ⟨elements,rest⟩ := result
    dsimp only at stepped split stuck
    have size : received.length = connection.inputBuffer.length + count := by
      rw [← arrived,List.length_append,List.length_take_of_le available]
    have octets : blocks.written (connection.dispatched ++ elements) ++ (rest ++ (connection.stream.drop count ++
        connection.unwritten)) = blocks.written connection.sent := by
      rw [← sound.octets,Framing.written_append,List.append_assoc,← List.append_assoc (blocks.written elements),split,
        ← arrived,List.append_assoc,← List.append_assoc (connection.stream.take count),List.take_append_drop]
    have small : ∀ packet ∈ connection.dispatched ++ elements, packet.val.wire.length ≤ maxNdnPacketSize := by
      intro packet inside
      rcases List.mem_append.mp inside with before | now
      · exact sound.small packet before
      · have within := wire_length_le now
        have lengths := congrArg List.length split
        rw [List.length_append] at lengths
        omega
    split at stepped
    · rename_i blocked
      obtain ⟨left,whole,none⟩ := blocked
      cases stepped
      subst none
      have same : rest = received := split
      refine ⟨octets,sound.writing,stuck,fun failed => (by cases failed),fun _ => ?_,small⟩
      change rest.length = _
      rw [same]
      exact whole
    · rename_i going
      cases stepped
      refine ⟨octets,sound.writing,stuck,fun _ => ?_,fun failed => ?_,small⟩
      · change rest.length < maxNdnPacketSize
        by_contra full
        have lengths := congrArg List.length split
        rw [List.length_append] at lengths
        have nothing : blocks.written elements = [] := List.length_eq_zero_iff.mp (by omega)
        have none : elements = [] := by
          cases elements with
          | nil => rfl
          | cons first others =>
            exact absurd (List.append_eq_nil_iff.mp nothing).1 (blocks.wire_ne_nil first)
        refine going ⟨?_,by omega,none⟩
        rintro rfl
        exact full (by decide)
      · rw [alive] at failed
        cases failed
  · cases stepped

private theorem sound_close (sound : connection.Sound) : connection.close.Sound := by
  refine ⟨sound.octets,sound.writing,sound.partial_packet,fun failed => ?_,fun failed => ?_,sound.small⟩
  · unfold close at failed
    cases before : connection.failed with
    | none =>
      rw [before] at failed
      cases failed
    | some reason =>
      rw [before] at failed
      cases failed
  · unfold close at failed
    cases before : connection.failed with
    | none =>
      rw [before] at failed
      exact absurd (Option.some.inj failed) (by decide)
    | some reason =>
      rw [before] at failed
      exact sound.full (before.trans failed)

private theorem sound_step {event : StreamEvent} (sound : connection.Sound) (stepped : connection.step event = some after) :
    after.Sound := by
  cases event with
  | send packet =>
    cases stepped
    exact sound_send sound packet
  | transfer count => exact sound_transfer sound stepped
  | handleSend => exact sound_handleSend sound stepped
  | handleReceive count => exact sound_handleReceive sound stepped
  | close =>
    cases stepped
    exact sound_close sound

/-! What arrives. -/

def Fits (packet : WireBlock) : Bool := packet.val.wire.length ≤ maxNdnPacketSize

private theorem sent_of_sound (sound : connection.Sound) : ∃ later, connection.sent = connection.dispatched ++ later ∧
    connection.inputBuffer ++ (connection.stream ++ connection.unwritten) = blocks.written later :=
  Framing.prefix_of_written sound.octets

/-- What is dispatched are the packets sent, in their order and up to one that does not fit. -/
theorem dispatched_in_order (sound : connection.Sound) : connection.dispatched <+: connection.sent.takeWhile Fits := by
  obtain ⟨later,sent,-⟩ := sent_of_sound sound
  have fits : ∀ packet ∈ connection.dispatched, Fits packet = true := fun packet inside =>
    decide_eq_true (sound.small packet inside)
  rw [sent,List.takeWhile_append_of_pos fits]
  exact List.prefix_append _ _

/-- Once all octets are written and received, all packets have been dispatched. -/
theorem dispatched_all (sound : connection.Sound) (idle : connection.sendQueue = []) (drained : connection.stream = []) :
    connection.dispatched = connection.sent := by
  obtain ⟨later,sent,octets⟩ := sent_of_sound sound
  have rest : connection.unwritten = [] := by
    unfold unwritten
    rw [idle,Framing.written_nil,List.drop_nil]
  rw [drained,rest,List.append_nil,List.append_nil] at octets
  cases later with
  | nil => rw [sent,List.append_nil]
  | cons packet later =>
    have found : blocks.first connection.inputBuffer = some packet := by
      rw [octets]
      exact blocks.first_eq_some.mpr (List.prefix_append _ _)
    rw [sound.partial_packet] at found
    cases found

/-- The face gives up on a packet only if that does not fit. -/
theorem oversize_of_failed (sound : connection.Sound) (failed : connection.failed = some tooLarge) :
    ∃ packet, connection.sent[connection.dispatched.length]? = some packet ∧ Fits packet = false := by
  obtain ⟨later,sent,octets⟩ := sent_of_sound sound
  have full := sound.full failed
  cases later with
  | nil =>
    have empty := (List.append_eq_nil_iff.mp octets).1
    rw [empty] at full
    exact absurd full (by decide)
  | cons packet later =>
    refine ⟨packet,by rw [sent]; simp,?_⟩
    have longer := Framing.longer_of_first_eq_none sound.partial_packet octets
    rw [full] at longer
    exact decide_eq_false (not_le.mpr longer)

/-- As long as the face has not failed, and there is anything to write or to receive, some octets move
or a write is completed. -/
theorem progress (sound : connection.Sound) (alive : connection.failed = none)
    (left : connection.sendQueue ≠ [] ∨ connection.stream ≠ []) :
    (connection.transfer 1).isSome ∨ connection.handleSend.isSome ∨ (connection.handleReceive 1).isSome := by
  have writing := sound.writing
  cases queue : connection.sendQueue with
  | nil =>
    refine Or.inr (Or.inr ?_)
    have some_octet := List.length_pos_iff.mpr (left.resolve_left (not_not.mpr queue))
    have room := sound.room alive
    unfold handleReceive
    rw [if_pos ⟨alive,Nat.one_pos,some_octet,room⟩]
    dsimp only
    split <;> rfl
  | cons front later =>
    rw [queue] at writing
    obtain ⟨written,runs,enough⟩ := writing
    rcases enough.lt_or_eq with less | complete
    · refine Or.inl ?_
      unfold transfer
      rw [runs,queue]
      change Option.isSome (if _ then _ else _) = true
      rw [if_pos ⟨Nat.one_pos,less⟩]
      rfl
    · refine Or.inr (Or.inl ?_)
      unfold handleSend
      rw [runs,queue]
      change Option.isSome (if _ then _ else _) = true
      rw [if_pos complete]
      rfl

private theorem sent_step {event : StreamEvent} (stepped : connection.step event = some after) :
    after.sent = connection.sent ++ event.packet.toList := by
  cases event with
  | send packet =>
    cases stepped
    change (connection.send packet).sent = connection.sent ++ [packet]
    unfold send
    cases connection.sendQueue <;> rfl
  | transfer count =>
    obtain ⟨written,-,stepped⟩ := Option.bind_eq_some_iff.mp stepped
    obtain ⟨front,-,stepped⟩ := Option.bind_eq_some_iff.mp stepped
    split at stepped
    · cases stepped
      exact (List.append_nil _).symm
    · cases stepped
  | handleSend =>
    obtain ⟨written,-,stepped⟩ := Option.bind_eq_some_iff.mp stepped
    obtain ⟨front,-,stepped⟩ := Option.bind_eq_some_iff.mp stepped
    split at stepped
    · cases stepped
      split <;> exact (List.append_nil _).symm
    · cases stepped
  | handleReceive count =>
    change connection.handleReceive count = some after at stepped
    unfold handleReceive at stepped
    split at stepped
    · dsimp only at stepped
      split at stepped <;> cases stepped <;> exact (List.append_nil _).symm
    · cases stepped
  | close =>
    cases stepped
    exact (List.append_nil _).symm

private theorem sent_run {events : List StreamEvent} {initial final : Connection}
    (reached : run (attempt step) (some initial) events = some final) :
    final.sent = initial.sent ++ events.filterMap StreamEvent.packet := by
  induction events generalizing initial with
  | nil =>
    cases reached
    exact (List.append_nil _).symm
  | cons event events ih =>
    rw [run_cons] at reached
    cases next : attempt step (some initial) event with
    | none =>
      rw [next,run_attempt_none] at reached
      cases reached
    | some middle =>
      rw [next] at reached
      rw [ih reached,sent_step next,List.append_assoc,List.filterMap_cons]
      cases event.packet <;> rfl

/-- Whatever the order in which packets are sent and octets move: the receiving face dispatches the
packets in the order they were sent, none lost or repeated, up to one that is too large, on
which it fails; and nothing is left behind. -/
theorem connection_run (events : List StreamEvent) (connection : Connection)
    (reached : run (attempt step) (some new) events = some connection) :
    let sent := events.filterMap StreamEvent.packet
    connection.dispatched <+: sent.takeWhile Fits ∧
    (connection.sendQueue = [] → connection.stream = [] → connection.dispatched = sent) ∧
    (connection.failed = some tooLarge →
      ∃ packet, sent[connection.dispatched.length]? = some packet ∧ Fits packet = false) ∧
    (connection.failed = none → connection.sendQueue ≠ [] ∨ connection.stream ≠ [] →
      (connection.transfer 1).isSome ∨ connection.handleSend.isSome ∨ (connection.handleReceive 1).isSome) := by
  have sound : connection.Sound :=
    attempt_invariant (fun _ _ _ sound stepped => sound_step sound stepped) sound_new reached
  have sent : connection.sent = events.filterMap StreamEvent.packet := sent_run reached
  rw [← sent]
  exact ⟨dispatched_in_order sound,dispatched_all sound,oversize_of_failed sound,progress sound⟩

def interest : WireBlock := ⟨.make 5 [],Block.hasWire_make 5 [] (by decide) (by decide)⟩

def pieces : List StreamEvent := [.send interest,.transfer 1,.handleReceive 1,.transfer 1,.handleSend,.handleReceive 1]

def arrived : Connection := ⟨[],none,[],[],none,[interest],[interest]⟩

theorem connection_run_pieces : arrived.dispatched = pieces.filterMap StreamEvent.packet :=
  (connection_run pieces arrived rfl).2.1 rfl rfl

end Connection

end Ncfcc.Nfd.Face
