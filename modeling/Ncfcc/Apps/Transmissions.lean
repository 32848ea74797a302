import Ncfcc.Apps.Retransmission

/-! The transmissions of a consumer beside its run: for every sequence number the times
at which its Interest was sent since a Data of this number was last handled. What is
recorded is read off the `TransmittedInterests` trace and not off the containers. -/
namespace Ncfcc.Apps
open Ncfcc.Library

structure Watched (σ : Type) where
  state : σ
  sent : Nat → List Time

namespace Watched

def new {σ : Type} (state : σ) : Watched σ := ⟨state,fun _ => []⟩

end Watched

namespace Consumer

private theorem sequencing_nextSeq (consumer : Consumer) :
    consumer.sequencing.nextSeq = (consumer.nextSeq.1,consumer.nextSeq.2.sequencing) := by
  have active : consumer.sequencing.active = consumer.active := rfl
  have waiting : consumer.sequencing.retxSeqs = consumer.retxSeqs := rfl
  unfold nextSeq
  rw [active,waiting]
  cases consumer.active with
  | false => rfl
  | true =>
    cases consumer.retxSeqs.min with
    | top =>
      by_cases done : consumer.seqMax ≠ maxWord ∧ consumer.seq ≥ consumer.seqMax
      · simp only [↓reduceIte,done,sequencing,and_self,ne_eq,not_false_eq_true]
      · simp only [↓reduceIte,done,sequencing]
    | coe seq =>
      by_cases largest : seq = maxWord
      · by_cases done : consumer.seqMax ≠ maxWord ∧ consumer.seq ≥ consumer.seqMax
        · simp only [↓reduceIte,largest,done,sequencing,and_self,ne_eq,not_false_eq_true]
        · simp only [↓reduceIte,largest,done,sequencing]
      · simp only [↓reduceIte,largest,sequencing]

theorem nextSeq_of_sequencing {first second : Consumer} (same : first.sequencing = second.sequencing) :
    first.nextSeq.1 = second.nextSeq.1 ∧ first.nextSeq.2.sequencing = second.nextSeq.2.sequencing := by
  have left := sequencing_nextSeq first
  rw [same,sequencing_nextSeq second] at left
  exact ⟨(Prod.mk.inj left).1.symm,(Prod.mk.inj left).2.symm⟩

private theorem sequencing_sent (first second : Consumer) (same : first.sequencing = second.sequencing)
    (now : Time) (seq : Nat) :
    ((first.willSendOutInterest now seq).transmit seq).sequencing =
      ((second.willSendOutInterest now seq).transmit seq).sequencing := by
  simp only [sequencing,Consumer.mk.injEq] at same
  simp only [sequencing,willSendOutInterest,transmit,Consumer.mk.injEq]
  simp [same]

end Consumer

namespace Virtual
variable {σ : Type} (virtual : Virtual σ)

/-- The numbers the `TransmittedInterests` trace reports during this step. -/
def transmissions (state : σ) (occurrence : Occurrence) : List Nat :=
  (virtual.base (virtual.step state occurrence)).transmitted.drop (virtual.base state).transmitted.length

def acknowledges (state : σ) (occurrence : Occurrence) (seq : Nat) : Bool :=
  match occurrence.event with
  | .onData data => (virtual.base state).active && data.sequenceNumber % word = seq
  | _ => false

def watch (watched : Watched σ) (occurrence : Occurrence) : Watched σ where
  state := virtual.step watched.state occurrence
  sent seq := (if virtual.acknowledges watched.state occurrence seq then [] else watched.sent seq) ++
    List.replicate ((virtual.transmissions watched.state occurrence).count seq) occurrence.now

theorem watch_run_state (watched : Watched σ) (occurrences : List Occurrence) :
    (run virtual.watch watched occurrences).state = run virtual.step watched.state occurrences := by
  induction occurrences generalizing watched with
  | nil => rfl
  | cons occurrence occurrences ih => exact ih (virtual.watch watched occurrence)

variable {virtual}

section
variable (lawful : virtual.Lawful)
include lawful

theorem Lawful.transmissions_quiet (state : σ) (occurrence : Occurrence)
    (other : ∀ uid, occurrence.event ≠ .sendPacket uid) : virtual.transmissions state occurrence = [] := by
  unfold transmissions
  rw [lawful.step_quiet state occurrence other,List.drop_length]

theorem Lawful.transmissions_send (state : σ) (now : Time) (uid : Nat) :
    virtual.transmissions state ⟨now,.sendPacket uid⟩ = (virtual.base state).nextSeq.1.toList := by
  have fired := lawful.fire uid state
  unfold transmissions
  change (virtual.base (virtual.sendPacket now (virtual.fire uid state))).transmitted.drop _ = _
  rw [lawful.send_transmitted,Consumer.field_of_sequencing Consumer.transmitted (fun _ => rfl) fired,
    List.drop_left,(Consumer.nextSeq_of_sequencing fired).1]

end

inductive Watch (occurrence : Occurrence) (consumer after : Consumer) (sent sentAfter : Nat → List Time) :
    Prop where
  /-- Starting, stopping, a reduce-send-rate message, or a Data that is not handled. -/
  | idle (active : Bool) (kept : sentAfter = sent)
      (base : after.sequencing = ({ consumer with active } : Consumer).sequencing)
  /-- `SendPacket` finds nothing to send. -/
  | silent (rest : Consumer) (choice : consumer.nextSeq = (none,rest)) (kept : sentAfter = sent)
      (base : after.sequencing = rest.sequencing)
  | send (uid seq : Nat) (rest : Consumer) (event : occurrence.event = .sendPacket uid)
      (choice : consumer.nextSeq = (some seq,rest))
      (added : sentAfter = Function.update sent seq (sent seq ++ [occurrence.now]))
      (base : after.sequencing = ((rest.willSendOutInterest occurrence.now seq).transmit seq).sequencing)
  | data (data : Data) (active : consumer.active = true)
      (cleared : sentAfter = Function.update sent (data.sequenceNumber % word) [])
      (base : after.sequencing = (consumer.onData occurrence.now data).sequencing)
  /-- The loop of `CheckRetxTimeout`: whatever its rounds keep holds afterwards. -/
  | check (event : occurrence.event = .checkRetxTimeout) (kept : sentAfter = sent)
      (rounds : ∀ P : Consumer → Prop,
        (∀ first second : Consumer, first.sequencing = second.sequencing → (P first ↔ P second)) →
        (∀ current seq, P current →
          Consumer.expired current occurrence.now consumer.rtt.retransmitTimeout = some seq →
          P ((current.eraseTimeout seq).timedOut occurrence.now seq)) → P consumer → P after)

section
variable (lawful : virtual.Lawful)
include lawful

private theorem Lawful.watch_sent_quiet (watched : Watched σ) (occurrence : Occurrence)
    (noSend : ∀ uid, occurrence.event ≠ .sendPacket uid)
    (noData : ∀ seq, virtual.acknowledges watched.state occurrence seq = false) :
    (virtual.watch watched occurrence).sent = watched.sent := by
  ext1 seq
  simp [watch,lawful.transmissions_quiet watched.state occurrence noSend,noData]

private theorem Lawful.watch_sent_send (watched : Watched σ) (now : Time) (uid : Nat) :
    (virtual.watch watched ⟨now,.sendPacket uid⟩).sent =
      match (virtual.base watched.state).nextSeq.1 with
      | none => watched.sent
      | some seq => Function.update watched.sent seq (watched.sent seq ++ [now]) := by
  have acknowledged : ∀ seq, virtual.acknowledges watched.state ⟨now,.sendPacket uid⟩ seq = false :=
    fun _ => rfl
  ext1 other
  simp only [watch,acknowledged,lawful.transmissions_send,Bool.false_eq_true,↓reduceIte]
  cases (virtual.base watched.state).nextSeq.1 with
  | none => simp
  | some seq =>
    by_cases same : other = seq
    · simp [same]
    · have apart : seq ≠ other := fun equal => same equal.symm
      simp [same,apart]

private theorem Lawful.watch_sent_data (watched : Watched σ) (now : Time) (data : Data)
    (active : (virtual.base watched.state).active = true) :
    (virtual.watch watched ⟨now,.onData data⟩).sent =
      Function.update watched.sent (data.sequenceNumber % word) [] := by
  have quiet := lawful.transmissions_quiet watched.state ⟨now,.onData data⟩ (fun _ => by simp)
  ext1 seq
  simp only [watch,quiet,acknowledges,active,Bool.true_and,decide_eq_true_eq]
  by_cases same : seq = data.sequenceNumber % word
  · simp [same]
  · have apart : data.sequenceNumber % word ≠ seq := fun equal => same equal.symm
    simp [same,apart]

/-- One step of a watched run is one of the cases of `Watch`. -/
theorem Lawful.watched (watched : Watched σ) (occurrence : Occurrence) :
    Watch occurrence (virtual.base watched.state)
      (virtual.base (virtual.watch watched occurrence).state) watched.sent
      (virtual.watch watched occurrence).sent := by
  obtain ⟨now,event⟩ := occurrence
  cases event with
  | startApplication =>
    exact .idle true (lawful.watch_sent_quiet watched _ (fun _ => by simp) (fun _ => rfl))
      (lawful.start now watched.state)
  | stopApplication =>
    exact .idle false (lawful.watch_sent_quiet watched _ (fun _ => by simp) (fun _ => rfl))
      (lawful.stop watched.state)
  | onRsr name =>
    exact .idle _ (lawful.watch_sent_quiet watched _ (fun _ => by simp) (fun _ => rfl))
      (lawful.rsr now name watched.state)
  | onData data =>
    have base := lawful.data now data watched.state
    by_cases active : (virtual.base watched.state).active = true
    · exact .data data active (lawful.watch_sent_data watched now data active) base
    · have ignored : (virtual.base watched.state).onData now data = virtual.base watched.state := if_neg active
      have unread : ∀ seq, virtual.acknowledges watched.state ⟨now,.onData data⟩ seq = false := by
        simp [acknowledges,active]
      rw [ignored] at base
      exact .idle _ (lawful.watch_sent_quiet watched _ (fun _ => by simp) unread) base
  | sendPacket uid =>
    have added := lawful.watch_sent_send watched now uid
    have fired := lawful.fire uid watched.state
    have base := lawful.send now (virtual.fire uid watched.state)
    obtain ⟨first,rest⟩ := Consumer.nextSeq_of_sequencing fired
    generalize choice : (virtual.base watched.state).nextSeq = chosen at added first rest
    generalize (virtual.base (virtual.fire uid watched.state)).nextSeq = actual at base first rest
    obtain ⟨number,after⟩ := chosen
    obtain ⟨actualNumber,actualAfter⟩ := actual
    subst first
    cases actualNumber with
    | none => exact .silent after choice added (base.trans rest)
    | some seq =>
      exact .send uid seq after rfl choice added (base.trans (Consumer.sequencing_sent _ _ rest now seq))
  | checkRetxTimeout =>
    refine .check rfl (lawful.watch_sent_quiet watched _ (fun _ => by simp) (fun _ => rfl)) ?_
    intro P sequencing round holds
    exact (sequencing _ _ (lawful.check now watched.state)).mpr
      (lawful.expire_keeps now _ P sequencing round _ _ holds)

end

end Virtual

end Ncfcc.Apps
