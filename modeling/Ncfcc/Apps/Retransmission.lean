import Ncfcc.Apps.WindowConsumer

/-! Where every issued sequence number is: outstanding, waiting for retransmission
or acknowledged. Everything here is about the base part of any derived consumer
whose methods are lawful; the derived classes only decide when something is sent. -/
namespace Ncfcc.Apps
open Ncfcc.Library

namespace Consumer

private theorem transmitted_transmit (consumer : Consumer) (seq : Nat) :
    (consumer.transmit seq).transmitted = consumer.transmitted ++ [seq] := by
  simp [transmitted,transmit]

private theorem transmitted_onData (consumer : Consumer) (now : Time) (data : Data) :
    (consumer.onData now data).transmitted = consumer.transmitted := by
  unfold onData
  split
  · simp [transmitted,delayTraces,List.filterMap_append,List.filterMap_map]
  · rfl

def drop (consumer : Consumer) : Consumer :=
  { consumer with retxSeqs := consumer.retxSeqs.erase maxWord }

/-- `SendPacket` sends nothing, a new number or the least one waiting. -/
theorem nextSeq_cases (consumer : Consumer) :
    consumer.nextSeq = (none,consumer) ∨ consumer.nextSeq = (none,consumer.drop) ∨
      consumer.nextSeq = (some consumer.seq,{ consumer.drop with seq := (consumer.seq + 1) % word }) ∨
      ∃ seq ∈ consumer.retxSeqs, seq ≠ maxWord ∧
        consumer.nextSeq = (some seq,{ consumer with retxSeqs := consumer.retxSeqs.erase seq }) := by
  unfold nextSeq
  by_cases active : consumer.active = true
  · rw [if_pos active]
    cases first : consumer.retxSeqs.min with
    | top =>
      have empty : consumer.retxSeqs = ∅ := Finset.min_eq_top.mp first
      have kept : consumer.drop = consumer := by
        simp [drop,empty]
        rw [← empty]
      rw [kept]
      dsimp only
      rw [if_pos rfl]
      split
      · exact Or.inl rfl
      · exact Or.inr (Or.inr (Or.inl rfl))
    | coe seq =>
      have waiting : seq ∈ consumer.retxSeqs := Finset.mem_of_min first
      dsimp only
      by_cases largest : seq = maxWord
      · rw [if_pos largest]
        subst largest
        split
        · exact Or.inr (Or.inl rfl)
        · exact Or.inr (Or.inr (Or.inl rfl))
      · rw [if_neg largest]
        exact Or.inr (Or.inr (Or.inr ⟨seq,waiting,largest,rfl⟩))
  · rw [if_neg active]
    exact Or.inl rfl

def overdue (consumer : Consumer) (now rto : Time) : List (Nat × Time) :=
  consumer.seqTimeouts.entries.filter (fun entry => entry.2 + rto ≤ now)

theorem overdue_congr (first second : Consumer) (same : first.seqTimeouts = second.seqTimeouts)
    (now rto : Time) : first.overdue now rto = second.overdue now rto := by
  rw [overdue,overdue,same]

theorem overdue_of_expired_none (consumer : Consumer) (now rto : Time)
    (none : consumer.expired now rto = none) : consumer.overdue now rto = [] := by
  unfold expired at none
  split at none
  · rename_i front
    rw [overdue,(TimedSet.front_none _).mp front,List.filter_nil]
  · rename_i seq time front
    split at none
    · cases none
    · rename_i early
      apply List.filter_eq_nil_iff.mpr
      intro entry member
      have least : time ≤ entry.2 := TimedSet.front_least _ _ entry front member
      simp only [decide_eq_true_eq]
      exact fun late => early (le_trans (Int.add_le_add_right least rto) late)

/-- The time index is in order, so that the expired first entry heads the overdue ones. -/
theorem overdue_of_expired (consumer : Consumer) (now rto : Time) (seq : Nat)
    (found : consumer.expired now rto = some seq) :
    ∃ time, time + rto ≤ now ∧
      consumer.seqTimeouts.entries = (seq,time) :: (consumer.eraseTimeout seq).seqTimeouts.entries ∧
      consumer.overdue now rto = (seq,time) :: (consumer.eraseTimeout seq).overdue now rto := by
  unfold expired at found
  split at found
  · cases found
  · rename_i first time front
    split at found
    · rename_i late
      cases found
      have entries := TimedSet.erase_front _ _ front
      refine ⟨time,late,entries,?_⟩
      unfold overdue
      rw [entries,List.filter_cons_of_pos (by simpa using late)]
      rfl
    · cases found

/-- The numbers issued from `startSeq` on, and where each of them is. The largest
32-bit number is excepted: `SendPacket` takes it out of the waiting set unsent. -/
structure Accounted (startSeq : Nat) (acknowledged : Nat → Prop) (consumer : Consumer) : Prop where
  issued : ∃ count < word, consumer.seq = (startSeq + count) % word ∧
    ∀ seq, seq ∈ consumer.transmitted ↔ ∃ index < count, seq = (startSeq + index) % word
  known : ∀ seq, seq ∈ consumer.seqTimeouts.keys ∨ seq ∈ consumer.retxSeqs → seq ∈ consumer.transmitted
  settled : ∀ seq, acknowledged seq →
    seq ∈ consumer.transmitted ∧ seq ∉ consumer.seqTimeouts.keys ∧ seq ∉ consumer.retxSeqs
  unsettled : ∀ seq ∈ consumer.transmitted, seq ≠ maxWord → ¬ acknowledged seq →
    Xor (seq ∈ consumer.seqTimeouts.keys) (seq ∈ consumer.retxSeqs)

section
variable {startSeq : Nat} {acknowledged : Nat → Prop} {consumer : Consumer}

private theorem accounted_of_sequencing {first second : Consumer} (same : first.sequencing = second.sequencing) :
    Accounted startSeq acknowledged first ↔ Accounted startSeq acknowledged second := by
  have seq := field_of_sequencing Consumer.seq (fun _ => rfl) same
  have sent := field_of_sequencing transmitted (fun _ => rfl) same
  have timeouts := seqTimeouts_of_sequencing same
  have waiting := field_of_sequencing retxSeqs (fun _ => rfl) same
  constructor
  · rintro ⟨issued,known,settled,unsettled⟩
    rw [seq,sent] at issued
    rw [sent,timeouts,waiting] at known settled unsettled
    exact ⟨issued,known,settled,unsettled⟩
  · rintro ⟨issued,known,settled,unsettled⟩
    rw [← seq,← sent] at issued
    rw [← sent,← timeouts,← waiting] at known settled unsettled
    exact ⟨issued,known,settled,unsettled⟩

theorem Accounted.drop (accounted : Accounted startSeq acknowledged consumer) :
    Accounted startSeq acknowledged consumer.drop where
  issued := accounted.issued
  known seq := by
    rintro (outstanding | waiting)
    · exact accounted.known seq (Or.inl outstanding)
    · exact accounted.known seq (Or.inr (Finset.mem_of_mem_erase waiting))
  settled seq acked := by
    obtain ⟨sent,idle,gone⟩ := accounted.settled seq acked
    exact ⟨sent,idle,fun waiting => gone (Finset.mem_of_mem_erase waiting)⟩
  unsettled seq sent small unacked := by
    have kept : seq ∈ consumer.drop.retxSeqs ↔ seq ∈ consumer.retxSeqs := by
      simp [Consumer.drop,small]
    rw [kept]
    exact accounted.unsettled seq sent small unacked

theorem Accounted.fresh (accounted : Accounted startSeq acknowledged consumer) :
    consumer.seq ∉ consumer.transmitted := by
  obtain ⟨count,bound,next,sent⟩ := accounted.issued
  rw [sent,next]
  rintro ⟨index,earlier,same⟩
  unfold word at *
  omega

theorem card_transmitted {count : Nat} (bound : count ≤ word)
    (sent : ∀ seq, seq ∈ consumer.transmitted ↔ ∃ index < count, seq = (startSeq + index) % word) :
    consumer.transmitted.toFinset.card = count := by
  have image : consumer.transmitted.toFinset =
      (Finset.range count).image (fun index => (startSeq + index) % word) := by
    ext seq
    rw [List.mem_toFinset,sent]
    simp [eq_comm]
  rw [image,Finset.card_image_of_injOn,Finset.card_range]
  intro first left second right same
  simp only [Finset.coe_range,Set.mem_Iio] at left right
  dsimp only at same
  unfold word at *
  omega

private theorem willSendOutInterest_recorded (now : Time) (seq : Nat) (idle : seq ∉ consumer.seqTimeouts.keys) :
    (seq,now) ∈ ((consumer.willSendOutInterest now seq).transmit seq).seqTimeouts.entries := by
  have entries := TimedSet.mem_insert consumer.seqTimeouts seq now idle (seq,now)
  exact entries.mpr (Or.inl rfl)

theorem Accounted.issue (now : Time) (accounted : Accounted startSeq acknowledged consumer)
    (room : (consumer.transmitted ++ [consumer.seq]).toFinset.card < maxWord) :
    Accounted startSeq acknowledged ((willSendOutInterest { consumer with seq := (consumer.seq + 1) % word }
      now consumer.seq).transmit consumer.seq) := by
  have fresh := accounted.fresh
  have sent : ((willSendOutInterest { consumer with seq := (consumer.seq + 1) % word }
      now consumer.seq).transmit consumer.seq).transmitted = consumer.transmitted ++ [consumer.seq] :=
    transmitted_transmit _ _
  have keys : ∀ seq, seq ∈ ((willSendOutInterest { consumer with seq := (consumer.seq + 1) % word }
      now consumer.seq).transmit consumer.seq).seqTimeouts.keys ↔
        seq = consumer.seq ∨ seq ∈ consumer.seqTimeouts.keys :=
    fun seq => TimedSet.mem_keys_insert _ _ _ _
  constructor
  · obtain ⟨count,bound,next,numbers⟩ := accounted.issued
    have more : ∀ seq, seq ∈ ((willSendOutInterest { consumer with seq := (consumer.seq + 1) % word }
        now consumer.seq).transmit consumer.seq).transmitted ↔
          ∃ index < count + 1, seq = (startSeq + index) % word := by
      intro seq
      rw [sent,List.mem_append,numbers,List.mem_singleton,next]
      constructor
      · rintro (⟨index,below,rfl⟩ | rfl)
        · exact ⟨index,by omega,rfl⟩
        · exact ⟨count,by omega,rfl⟩
      · rintro ⟨index,below,rfl⟩
        by_cases last : index = count
        · exact Or.inr (by rw [last])
        · exact Or.inl ⟨index,by omega,rfl⟩
    have card := card_transmitted (by omega) more
    rw [sent] at card
    refine ⟨count + 1,?_,?_,more⟩
    · unfold maxWord at room
      omega
    · change (consumer.seq + 1) % word = _
      rw [next]
      unfold word
      omega
  · intro seq placed
    rw [keys] at placed
    rw [sent,List.mem_append,List.mem_singleton]
    rcases placed with (rfl | outstanding) | waiting
    · exact Or.inr rfl
    · exact Or.inl (accounted.known seq (Or.inl outstanding))
    · exact Or.inl (accounted.known seq (Or.inr waiting))
  · intro seq acked
    obtain ⟨before,idle,gone⟩ := accounted.settled seq acked
    rw [sent,keys]
    refine ⟨List.mem_append_left _ before,?_,gone⟩
    rintro (rfl | outstanding)
    · exact fresh before
    · exact idle outstanding
  · intro seq member small unacked
    rw [sent,List.mem_append,List.mem_singleton] at member
    rw [keys]
    rcases member with before | rfl
    · have apart : seq ≠ consumer.seq := fun same => fresh (same ▸ before)
      simp only [apart,false_or]
      exact accounted.unsettled seq before small unacked
    · refine Or.inl ⟨Or.inl rfl,fun waiting => ?_⟩
      exact fresh (accounted.known _ (Or.inr waiting))

theorem Accounted.retransmit (now : Time) (accounted : Accounted startSeq acknowledged consumer) (seq : Nat)
    (waiting : seq ∈ consumer.retxSeqs) (small : seq ≠ maxWord) :
    seq ∉ consumer.seqTimeouts.keys ∧
      Accounted startSeq acknowledged ((willSendOutInterest { consumer with
        retxSeqs := consumer.retxSeqs.erase seq } now seq).transmit seq) := by
  have before := accounted.known seq (Or.inr waiting)
  have unacked : ¬ acknowledged seq := fun acked => (accounted.settled seq acked).2.2 waiting
  have idle : seq ∉ consumer.seqTimeouts.keys := by
    rcases accounted.unsettled seq before small unacked with ⟨-,gone⟩ | ⟨-,idle⟩
    · exact absurd waiting gone
    · exact idle
  refine ⟨idle,?_⟩
  have sent : ∀ other, other ∈ ((willSendOutInterest { consumer with
      retxSeqs := consumer.retxSeqs.erase seq } now seq).transmit seq).transmitted ↔
        other ∈ consumer.transmitted := by
    intro other
    rw [transmitted_transmit,List.mem_append,List.mem_singleton]
    exact ⟨fun either => either.elim id (fun same => same ▸ before),Or.inl⟩
  have keys : ∀ other, other ∈ ((willSendOutInterest { consumer with
      retxSeqs := consumer.retxSeqs.erase seq } now seq).transmit seq).seqTimeouts.keys ↔
        other = seq ∨ other ∈ consumer.seqTimeouts.keys :=
    fun other => TimedSet.mem_keys_insert _ _ _ _
  have rest : ∀ other, other ∈ ((willSendOutInterest { consumer with
      retxSeqs := consumer.retxSeqs.erase seq } now seq).transmit seq).retxSeqs ↔
        other ≠ seq ∧ other ∈ consumer.retxSeqs :=
    fun other => Finset.mem_erase
  constructor
  · obtain ⟨count,bound,next,numbers⟩ := accounted.issued
    exact ⟨count,bound,next,fun other => (sent other).trans (numbers other)⟩
  · intro other placed
    rw [keys,rest] at placed
    rw [sent]
    rcases placed with (rfl | outstanding) | ⟨-,left⟩
    · exact before
    · exact accounted.known other (Or.inl outstanding)
    · exact accounted.known other (Or.inr left)
  · intro other acked
    obtain ⟨known,quiet,gone⟩ := accounted.settled other acked
    rw [sent,keys,rest]
    refine ⟨known,?_,fun left => gone left.2⟩
    rintro (rfl | outstanding)
    · exact unacked acked
    · exact quiet outstanding
  · intro other member apart unacked
    rw [sent] at member
    rw [keys,rest]
    by_cases same : other = seq
    · exact Or.inl ⟨Or.inl same,fun left => left.1 same⟩
    · simp only [same,false_or,ne_eq,not_false_eq_true,true_and]
      exact accounted.unsettled other member apart unacked

theorem Accounted.acknowledge (now : Time) (data : Data)
    (accounted : Accounted startSeq acknowledged consumer) (active : consumer.active = true) :
    Accounted startSeq (fun seq => acknowledged seq ∨
      seq = data.sequenceNumber % word ∧ seq ∈ consumer.transmitted) (consumer.onData now data) := by
  have sent := consumer.transmitted_onData now data
  have keys : ∀ seq, seq ∈ (consumer.onData now data).seqTimeouts.keys ↔
      seq ≠ data.sequenceNumber % word ∧ seq ∈ consumer.seqTimeouts.keys := by
    intro seq
    simp [onData,active]
  have waiting : ∀ seq, seq ∈ (consumer.onData now data).retxSeqs ↔
      seq ≠ data.sequenceNumber % word ∧ seq ∈ consumer.retxSeqs := by
    intro seq
    simp [onData,active]
  have next : (consumer.onData now data).seq = consumer.seq := by
    simp [onData,active]
  constructor
  · rw [next,sent]
    exact accounted.issued
  · intro seq placed
    rw [keys,waiting] at placed
    rw [sent]
    exact accounted.known seq (placed.imp And.right And.right)
  · intro seq acked
    rw [sent,keys,waiting]
    rcases acked with earlier | ⟨answered,member⟩
    · obtain ⟨member,idle,gone⟩ := accounted.settled seq earlier
      exact ⟨member,fun outstanding => idle outstanding.2,fun left => gone left.2⟩
    · exact ⟨member,fun outstanding => outstanding.1 answered,fun left => left.1 answered⟩
  · intro seq member small unacked
    rw [sent] at member
    rw [keys,waiting]
    have other : seq ≠ data.sequenceNumber % word := fun same => unacked (Or.inr ⟨same,member⟩)
    simp only [other,ne_eq,not_false_eq_true,true_and]
    exact accounted.unsettled seq member small (fun earlier => unacked (Or.inl earlier))

theorem Accounted.timeout (now : Time) (accounted : Accounted startSeq acknowledged consumer) (seq : Nat)
    (outstanding : seq ∈ consumer.seqTimeouts.keys) :
    Accounted startSeq acknowledged ((consumer.eraseTimeout seq).timedOut now seq) := by
  have before := accounted.known seq (Or.inl outstanding)
  have unacked : ¬ acknowledged seq := fun acked => (accounted.settled seq acked).2.1 outstanding
  have keys : ∀ other, other ∈ ((consumer.eraseTimeout seq).timedOut now seq).seqTimeouts.keys ↔
      other ≠ seq ∧ other ∈ consumer.seqTimeouts.keys :=
    fun other => TimedSet.mem_keys_erase _ _ _
  have waiting : ∀ other, other ∈ ((consumer.eraseTimeout seq).timedOut now seq).retxSeqs ↔
      other = seq ∨ other ∈ consumer.retxSeqs :=
    fun other => Finset.mem_insert
  constructor
  · exact accounted.issued
  · intro other placed
    rw [keys,waiting] at placed
    rcases placed with ⟨-,left⟩ | rfl | moved
    · exact accounted.known other (Or.inl left)
    · exact before
    · exact accounted.known other (Or.inr moved)
  · intro other acked
    obtain ⟨known,idle,gone⟩ := accounted.settled other acked
    rw [keys,waiting]
    refine ⟨known,fun left => idle left.2,?_⟩
    rintro (rfl | moved)
    · exact unacked acked
    · exact gone moved
  · intro other member small unacked
    rw [keys,waiting]
    by_cases same : other = seq
    · exact Or.inr ⟨Or.inl same,fun left => left.1 same⟩
    · simp only [same,false_or,ne_eq,not_false_eq_true,true_and]
      exact accounted.unsettled other member small unacked

end

end Consumer

namespace Virtual
variable {σ : Type} {virtual : Virtual σ}

/-- A Data of this number was handled after the number had been sent. -/
def Acknowledged (virtual : Virtual σ) (initial : σ) (occurrences : List Occurrence) (seq : Nat) : Prop :=
  ∃ before now data, before ++ [⟨now,.onData data⟩] <+: occurrences ∧
    (virtual.base (run virtual.step initial before)).active = true ∧
    seq = data.sequenceNumber % word ∧
    seq ∈ (virtual.base (run virtual.step initial before)).transmitted

private theorem acknowledged_nil (initial : σ) (seq : Nat) : ¬ virtual.Acknowledged initial [] seq := by
  rintro ⟨before,now,data,inside,-⟩
  simp at inside

private theorem acknowledged_concat (initial : σ) (occurrences : List Occurrence) (last : Occurrence) (seq : Nat) :
    virtual.Acknowledged initial (occurrences ++ [last]) seq ↔
      virtual.Acknowledged initial occurrences seq ∨ ∃ data, last.event = .onData data ∧
        (virtual.base (run virtual.step initial occurrences)).active = true ∧
        seq = data.sequenceNumber % word ∧
        seq ∈ (virtual.base (run virtual.step initial occurrences)).transmitted := by
  constructor
  · rintro ⟨before,now,data,inside,handled⟩
    rcases List.prefix_concat_iff.mp inside with whole | shorter
    · obtain ⟨rfl,same⟩ := List.append_inj' whole rfl
      rw [← List.singleton_inj.mp same]
      exact Or.inr ⟨data,rfl,handled⟩
    · exact Or.inl ⟨before,now,data,shorter,handled⟩
  · rintro (⟨before,now,data,inside,handled⟩ | ⟨data,event,handled⟩)
    · exact ⟨before,now,data,inside.trans (List.prefix_append _ _),handled⟩
    · obtain ⟨now,_⟩ := last
      cases event
      exact ⟨occurrences,now,data,List.prefix_rfl,handled⟩

section
variable (lawful : virtual.Lawful)
include lawful

/-- What one round of the loop of `CheckRetxTimeout` does to the base part. -/
theorem Lawful.round (now : Time) (seq : Nat) (state : σ) :
    (virtual.base (virtual.onTimeout now seq
      (virtual.withBase state ((virtual.base state).eraseTimeout seq)))).sequencing =
      (((virtual.base state).eraseTimeout seq).timedOut now seq).sequencing := by
  rw [lawful.timeout,lawful.base_withBase]

theorem Lawful.start (now : Time) (state : σ) :
    (virtual.base (virtual.startApplication now state)).sequencing =
      ({ virtual.base state with active := true } : Consumer).sequencing := by
  unfold startApplication
  rw [lawful.schedule,lawful.base_withBase]

theorem Lawful.stop (state : σ) : (virtual.base (virtual.stopApplication state)).sequencing =
    ({ virtual.base state with active := false } : Consumer).sequencing := by
  unfold stopApplication
  rw [lawful.base_withBase]
  rfl

theorem Lawful.send (now : Time) (state : σ) :
    (virtual.base (virtual.sendPacket now state)).sequencing =
      (match (virtual.base state).nextSeq with
        | (none,consumer) => consumer
        | (some seq,consumer) => (consumer.willSendOutInterest now seq).transmit seq).sequencing := by
  unfold sendPacket
  generalize (virtual.base state).nextSeq = next
  obtain ⟨choice,consumer⟩ := next
  cases choice with
  | none => exact congrArg Consumer.sequencing (lawful.base_withBase _ _)
  | some seq =>
    dsimp only
    rw [lawful.schedule,lawful.base_withBase,lawful.willSend,lawful.base_withBase]

theorem Lawful.check (now : Time) (state : σ) :
    (virtual.base (virtual.checkRetxTimeout now state)).sequencing =
      (virtual.base (virtual.expire now (virtual.base state).rtt.retransmitTimeout
        (virtual.base state).seqTimeouts.size state)).sequencing := by
  unfold checkRetxTimeout
  dsimp only
  rw [lawful.base_withBase]
  rfl

theorem Lawful.expire_keeps (now rto : Time) (P : Consumer → Prop)
    (sequencing : ∀ first second : Consumer, first.sequencing = second.sequencing → (P first ↔ P second))
    (round : ∀ consumer seq, P consumer → Consumer.expired consumer now rto = some seq →
      P ((consumer.eraseTimeout seq).timedOut now seq)) (fuel : Nat) (state : σ)
    (holds : P (virtual.base state)) : P (virtual.base (virtual.expire now rto fuel state)) := by
  induction fuel generalizing state with
  | zero => exact holds
  | succ fuel ih =>
    unfold expire
    split
    · exact holds
    · rename_i seq found
      exact ih _ ((sequencing _ _ (lawful.round now seq state)).mpr (round _ seq holds found))

/-- With a round for every entry the loop moves exactly the overdue numbers. -/
theorem Lawful.expire_moves (now rto : Time) (fuel : Nat) (state : σ)
    (enough : (virtual.base state).seqTimeouts.size ≤ fuel) :
    (virtual.base (virtual.expire now rto fuel state)).seqTimeouts.entries =
        (virtual.base state).seqTimeouts.entries.filter (fun entry => ¬ entry.2 + rto ≤ now) ∧
      (virtual.base (virtual.expire now rto fuel state)).retxSeqs = (virtual.base state).retxSeqs ∪
        (((virtual.base state).overdue now rto).map Prod.fst).toFinset := by
  induction fuel generalizing state with
  | zero =>
    have empty : (virtual.base state).seqTimeouts.entries = [] :=
      List.eq_nil_of_length_eq_zero (Nat.le_zero.mp enough)
    simp [expire,Consumer.overdue,empty]
  | succ fuel ih =>
    unfold expire
    split
    · rename_i none
      have nothing := (virtual.base state).overdue_of_expired_none now rto none
      refine ⟨?_,by simp [nothing]⟩
      symm
      apply List.filter_eq_self.mpr
      intro entry member
      have early := List.filter_eq_nil_iff.mp nothing entry member
      simpa using early
    · rename_i seq found
      obtain ⟨time,late,entries,overdue⟩ := (virtual.base state).overdue_of_expired now rto seq found
      have round := lawful.round now seq state
      have timeouts := Consumer.seqTimeouts_of_sequencing round
      have waiting := Consumer.field_of_sequencing Consumer.retxSeqs (fun _ => rfl) round
      have size : (virtual.base state).seqTimeouts.size =
          ((virtual.base state).eraseTimeout seq).seqTimeouts.size + 1 := by
        rw [TimedSet.size,entries,List.length_cons]
        rfl
      obtain ⟨kept,moved⟩ := ih (virtual.onTimeout now seq
        (virtual.withBase state ((virtual.base state).eraseTimeout seq))) (by
          rw [timeouts]
          change ((virtual.base state).eraseTimeout seq).seqTimeouts.size ≤ fuel
          omega)
      rw [kept,moved,Consumer.overdue_congr _ _ timeouts,timeouts,waiting,entries,overdue,
        List.filter_cons_of_neg (by simpa using late)]
      refine ⟨rfl,?_⟩
      change insert seq (virtual.base state).retxSeqs ∪ _ = _
      rw [List.map_cons,List.toFinset_cons,Finset.insert_union,Finset.union_insert]
      rfl

theorem Lawful.fire (uid : Nat) (state : σ) :
    (virtual.base (virtual.fire uid state)).sequencing = (virtual.base state).sequencing := by
  unfold Virtual.fire
  rw [lawful.base_withBase]
  rfl

theorem Lawful.send_transmitted (now : Time) (state : σ) :
    (virtual.base (virtual.sendPacket now state)).transmitted =
      (virtual.base state).transmitted ++ (virtual.base state).nextSeq.1.toList := by
  rw [Consumer.field_of_sequencing Consumer.transmitted (fun _ => rfl) (lawful.send now state)]
  rcases (virtual.base state).nextSeq_cases with same | same | same | ⟨seq,-,-,same⟩
  · simp [same]
  · simp [same,Consumer.drop,Consumer.transmitted]
  · rw [same]
    exact Consumer.transmitted_transmit _ _
  · rw [same]
    exact Consumer.transmitted_transmit _ _

theorem Lawful.step_quiet (state : σ) (occurrence : Occurrence)
    (other : ∀ uid, occurrence.event ≠ .sendPacket uid) :
    (virtual.base (virtual.step state occurrence)).transmitted = (virtual.base state).transmitted := by
  have transfer : ∀ first second : Consumer, first.sequencing = second.sequencing →
      first.transmitted = second.transmitted :=
    fun _ _ same => Consumer.field_of_sequencing Consumer.transmitted (fun _ => rfl) same
  obtain ⟨now,event⟩ := occurrence
  cases event with
  | startApplication => exact (transfer _ _ (lawful.start now state)).trans rfl
  | stopApplication => exact (transfer _ _ (lawful.stop state)).trans rfl
  | sendPacket uid => exact absurd rfl (other uid)
  | onData data =>
    exact (transfer _ _ (lawful.data now data state)).trans (Consumer.transmitted_onData _ now data)
  | onRsr name => exact transfer _ _ (lawful.rsr now name state)
  | checkRetxTimeout =>
    refine (transfer _ _ (lawful.check now state)).trans ?_
    refine lawful.expire_keeps now _
      (fun consumer => consumer.transmitted = (virtual.base state).transmitted) ?_ ?_ _ _ rfl
    · intro first second same
      rw [transfer _ _ same]
    · intro consumer seq kept _
      exact kept

theorem Lawful.step_transmitted (state : σ) (occurrence : Occurrence) :
    (virtual.base state).transmitted <+: (virtual.base (virtual.step state occurrence)).transmitted := by
  by_cases sends : ∃ uid, occurrence.event = .sendPacket uid
  · obtain ⟨now,event⟩ := occurrence
    obtain ⟨uid,rfl⟩ := sends
    change _ <+: (virtual.base (virtual.sendPacket now (virtual.fire uid state))).transmitted
    rw [lawful.send_transmitted,
      Consumer.field_of_sequencing Consumer.transmitted (fun _ => rfl) (lawful.fire uid state)]
    exact List.prefix_append _ _
  · rw [lawful.step_quiet state occurrence (fun uid same => sends ⟨uid,same⟩)]

theorem Lawful.run_transmitted (state : σ) (occurrences : List Occurrence) :
    (virtual.base state).transmitted <+: (virtual.base (run virtual.step state occurrences)).transmitted := by
  induction occurrences generalizing state with
  | nil => exact List.prefix_rfl
  | cons occurrence occurrences ih =>
    exact (lawful.step_transmitted state occurrence).trans (ih _)

theorem Lawful.card_transmitted (initial : σ) (before occurrences : List Occurrence)
    (inside : before <+: occurrences) :
    (virtual.base (run virtual.step initial before)).transmitted.toFinset.card ≤
      (virtual.base (run virtual.step initial occurrences)).transmitted.toFinset.card := by
  apply Finset.card_le_card
  obtain ⟨rest,rfl⟩ := inside
  intro seq member
  rw [List.mem_toFinset] at member ⊢
  rw [run_append]
  exact (lawful.run_transmitted _ rest).subset member

theorem Lawful.accounted_send {startSeq : Nat} {acknowledged : Nat → Prop} (now : Time) (state : σ)
    (accounted : (virtual.base state).Accounted startSeq acknowledged)
    (room : (virtual.base (virtual.sendPacket now state)).transmitted.toFinset.card < maxWord) :
    (virtual.base (virtual.sendPacket now state)).Accounted startSeq acknowledged ∧
      ∀ seq, (virtual.base (virtual.sendPacket now state)).transmitted =
          (virtual.base state).transmitted ++ [seq] →
        (seq,now) ∈ (virtual.base (virtual.sendPacket now state)).seqTimeouts.entries := by
  have sends := lawful.send now state
  rw [Consumer.field_of_sequencing Consumer.transmitted (fun _ => rfl) sends] at room ⊢
  rw [Consumer.accounted_of_sequencing sends,Consumer.seqTimeouts_of_sequencing sends]
  rcases (virtual.base state).nextSeq_cases with same | same | same | ⟨seq,waiting,small,same⟩
  · rw [same]
    exact ⟨accounted,fun seq sent => absurd sent (by simp)⟩
  · rw [same]
    exact ⟨accounted.drop,fun seq sent => absurd sent (by simp [Consumer.drop,Consumer.transmitted])⟩
  · rw [same] at room ⊢
    dsimp only at room ⊢
    rw [Consumer.transmitted_transmit] at room ⊢
    refine ⟨accounted.drop.issue now room,?_⟩
    intro seq sent
    have number : (virtual.base state).seq = seq := by
      simpa [Consumer.transmitted,Consumer.drop,Consumer.willSendOutInterest] using sent
    rw [← number]
    apply Consumer.willSendOutInterest_recorded
    exact fun outstanding => accounted.fresh (accounted.known _ (Or.inl outstanding))
  · rw [same]
    obtain ⟨idle,after⟩ := accounted.retransmit now seq waiting small
    refine ⟨after,?_⟩
    intro other sent
    dsimp only at sent
    rw [Consumer.transmitted_transmit] at sent
    have number : seq = other := by
      simpa [Consumer.transmitted,Consumer.willSendOutInterest] using sent
    rw [← number]
    exact Consumer.willSendOutInterest_recorded now seq idle

/-- One step of a run keeps the accounts, under the acknowledgements it adds. -/
theorem Lawful.accounted_step {startSeq : Nat} (initial : σ) (occurrences : List Occurrence)
    (occurrence : Occurrence)
    (accounted : (virtual.base (run virtual.step initial occurrences)).Accounted startSeq
      (virtual.Acknowledged initial occurrences))
    (room : (virtual.base (run virtual.step initial (occurrences ++ [occurrence]))).transmitted.toFinset.card <
      maxWord) :
    (virtual.base (run virtual.step initial (occurrences ++ [occurrence]))).Accounted startSeq
      (virtual.Acknowledged initial (occurrences ++ [occurrence])) := by
  have acknowledged := funext fun seq =>
    propext (virtual.acknowledged_concat initial occurrences occurrence seq)
  rw [run_concat] at room ⊢
  rw [acknowledged]
  generalize run virtual.step initial occurrences = state at *
  obtain ⟨now,event⟩ := occurrence
  cases event with
  | startApplication =>
    simp only [reduceCtorEq,false_and,exists_false,or_false]
    refine (Consumer.accounted_of_sequencing (lawful.start now state)).mpr ?_
    exact ⟨accounted.issued,accounted.known,accounted.settled,accounted.unsettled⟩
  | stopApplication =>
    simp only [reduceCtorEq,false_and,exists_false,or_false]
    refine (Consumer.accounted_of_sequencing (lawful.stop state)).mpr ?_
    exact ⟨accounted.issued,accounted.known,accounted.settled,accounted.unsettled⟩
  | sendPacket uid =>
    simp only [reduceCtorEq,false_and,exists_false,or_false]
    have fired := (Consumer.accounted_of_sequencing (lawful.fire uid state)).mpr accounted
    exact (lawful.accounted_send now _ fired room).1
  | onData data =>
    simp only [Event.onData.injEq,exists_eq_left']
    refine (Consumer.accounted_of_sequencing (lawful.data now data state)).mpr ?_
    by_cases active : (virtual.base state).active = true
    · simp only [active,true_and]
      exact accounted.acknowledge now data active
    · have ignored : (virtual.base state).onData now data = virtual.base state := if_neg active
      simp only [active,ignored,Bool.false_eq_true,false_and,or_false]
      exact accounted
  | onRsr name =>
    simp only [reduceCtorEq,false_and,exists_false,or_false]
    exact (Consumer.accounted_of_sequencing (lawful.rsr now name state)).mpr accounted
  | checkRetxTimeout =>
    simp only [reduceCtorEq,false_and,exists_false,or_false]
    refine (Consumer.accounted_of_sequencing (lawful.check now state)).mpr ?_
    refine lawful.expire_keeps now _ _ ?_ ?_ _ _ accounted
    · intro first second same
      exact Consumer.accounted_of_sequencing same
    · intro consumer seq holds found
      obtain ⟨time,-,entries,-⟩ := consumer.overdue_of_expired now _ seq found
      refine holds.timeout now seq ((TimedSet.mem_keys _ _).mpr ⟨time,?_⟩)
      rw [entries]
      exact List.mem_cons_self

theorem Lawful.accounted_run {startSeq : Nat} (initial : σ) (occurrences : List Occurrence)
    (start : (virtual.base initial).Accounted startSeq (fun _ => False))
    (room : (virtual.base (run virtual.step initial occurrences)).transmitted.toFinset.card < maxWord) :
    (virtual.base (run virtual.step initial occurrences)).Accounted startSeq
      (virtual.Acknowledged initial occurrences) := by
  induction occurrences using List.reverseRecOn with
  | nil =>
    have none : virtual.Acknowledged initial [] = fun _ => False :=
      funext fun seq => eq_false (acknowledged_nil initial seq)
    rw [none]
    exact start
  | append_singleton occurrences occurrence ih =>
    refine lawful.accounted_step initial occurrences occurrence (ih ?_) room
    exact lt_of_le_of_lt (lawful.card_transmitted initial _ _ (List.prefix_append _ _)) room

end

def Placed (consumer : Consumer) (acknowledged : Prop) (seq : Nat) : Prop :=
  (acknowledged ∧ seq ∉ consumer.seqTimeouts.keys ∧ seq ∉ consumer.retxSeqs) ∨
    (¬ acknowledged ∧ Xor (seq ∈ consumer.seqTimeouts.keys) (seq ∈ consumer.retxSeqs))

/-- A sent number is recorded with the time of this sending, and `CheckRetxTimeout`
moves exactly the numbers whose recorded time plus the timeout read at its start
is not after the current time. -/
structure Tracks (virtual : Virtual σ) (state : σ) (occurrence : Occurrence) : Prop where
  recorded : ∀ uid, occurrence.event = .sendPacket uid → ∀ seq,
    (virtual.base (virtual.step state occurrence)).transmitted = (virtual.base state).transmitted ++ [seq] →
      (seq,occurrence.now) ∈ (virtual.base (virtual.step state occurrence)).seqTimeouts.entries
  outstanding : occurrence.event = .checkRetxTimeout → ∀ seq time,
    (seq,time) ∈ (virtual.base (virtual.step state occurrence)).seqTimeouts.entries ↔
      (seq,time) ∈ (virtual.base state).seqTimeouts.entries ∧
        ¬ time + (virtual.base state).rtt.retransmitTimeout ≤ occurrence.now
  waiting : occurrence.event = .checkRetxTimeout → ∀ seq,
    seq ∈ (virtual.base (virtual.step state occurrence)).retxSeqs ↔
      seq ∈ (virtual.base state).retxSeqs ∨ ∃ time, (seq,time) ∈ (virtual.base state).seqTimeouts.entries ∧
        time + (virtual.base state).rtt.retransmitTimeout ≤ occurrence.now

theorem Lawful.tracks (lawful : virtual.Lawful) {startSeq : Nat} {acknowledged : Nat → Prop} (state : σ)
    (occurrence : Occurrence) (accounted : (virtual.base state).Accounted startSeq acknowledged)
    (room : (virtual.base (virtual.step state occurrence)).transmitted.toFinset.card < maxWord) :
    virtual.Tracks state occurrence := by
  obtain ⟨now,event⟩ := occurrence
  constructor
  · rintro uid rfl seq sent
    have fired := lawful.fire uid state
    rw [← Consumer.field_of_sequencing Consumer.transmitted (fun _ => rfl) fired] at sent
    exact (lawful.accounted_send now _ ((Consumer.accounted_of_sequencing fired).mpr accounted) room).2 seq sent
  · rintro rfl seq time
    have moves := (lawful.expire_moves now (virtual.base state).rtt.retransmitTimeout _ state le_rfl).1
    change (seq,time) ∈ (virtual.base (virtual.checkRetxTimeout now state)).seqTimeouts.entries ↔ _
    rw [Consumer.seqTimeouts_of_sequencing (lawful.check now state),moves,List.mem_filter]
    simp
  · rintro rfl seq
    have moves := (lawful.expire_moves now (virtual.base state).rtt.retransmitTimeout _ state le_rfl).2
    change seq ∈ (virtual.base (virtual.checkRetxTimeout now state)).retxSeqs ↔ _
    rw [Consumer.field_of_sequencing Consumer.retxSeqs (fun _ => rfl) (lawful.check now state),moves]
    simp [Consumer.overdue]

/-- In every run of a consumer, of whatever lawful class, in which fewer than
`2^32 - 1` numbers are issued, no issued number is lost or held twice. -/
theorem no_seq_lost (virtual : Virtual σ) (lawful : virtual.Lawful) (initial : σ) (startSeq seqMax : Nat)
    (retxTimer : Time) (rtt : RttMeanDeviation) (started : startSeq < word)
    (new : virtual.base initial = Consumer.initial startSeq seqMax retxTimer rtt)
    (occurrences : List Occurrence)
    (issued : (virtual.base (run virtual.step initial occurrences)).transmitted.toFinset.card < maxWord) :
    (∀ seq, startSeq ≤ seq → seq < (virtual.base (run virtual.step initial occurrences)).seq →
        Placed (virtual.base (run virtual.step initial occurrences))
          (virtual.Acknowledged initial occurrences seq) seq) ∧
      Steps virtual.step virtual.Tracks initial occurrences := by
  have start : (virtual.base initial).Accounted startSeq (fun _ => False) := by
    rw [new]
    refine ⟨⟨0,by decide,?_,by simp [Consumer.initial,Consumer.transmitted]⟩,?_,fun _ => False.elim,?_⟩
    · exact (Nat.mod_eq_of_lt started).symm
    · intro seq placed
      simp [Consumer.initial] at placed
    · intro seq sent
      simp [Consumer.initial,Consumer.transmitted] at sent
  constructor
  · have accounted := lawful.accounted_run initial occurrences start issued
    intro seq low high
    obtain ⟨count,bound,next,numbers⟩ := accounted.issued
    have sent : seq ∈ (virtual.base (run virtual.step initial occurrences)).transmitted := by
      rw [numbers]
      refine ⟨seq - startSeq,?_,?_⟩ <;> unfold word at * <;> omega
    have small : seq ≠ maxWord := by
      unfold maxWord
      unfold word at *
      omega
    by_cases acked : virtual.Acknowledged initial occurrences seq
    · exact Or.inl ⟨acked,(accounted.settled seq acked).2⟩
    · exact Or.inr ⟨acked,accounted.unsettled seq sent small acked⟩
  · intro before occurrence inside
    have fits := lt_of_le_of_lt (lawful.card_transmitted initial _ _ inside) issued
    have earlier := lt_of_le_of_lt
      (lawful.card_transmitted initial before _ ((List.prefix_append _ _).trans inside)) issued
    rw [run_concat] at fits
    exact lawful.tracks _ occurrence (lawful.accounted_run initial before start earlier) fits

def retransmitted : List Occurrence :=
  [⟨0,.startApplication⟩,⟨0,.sendPacket 0⟩,⟨second * 5,.checkRetxTimeout⟩,
    ⟨second * 11 / 2,.sendPacket 3⟩,⟨second * 6,.sendPacket 5⟩,⟨second * 7,.onData ⟨0,2⟩⟩]

def defaultConsumer : WindowConsumer :=
  WindowClass.fullyDistributed.configured (Consumer.initial 0 maxWord (second / 20) (.initial .ticks)) 10 true

theorem no_seq_lost_retransmitted :
    (∀ seq, 0 ≤ seq → seq < (WindowClass.fullyDistributed.virtual.base
        (run WindowClass.fullyDistributed.virtual.step defaultConsumer retransmitted)).seq →
      Placed (WindowClass.fullyDistributed.virtual.base
          (run WindowClass.fullyDistributed.virtual.step defaultConsumer retransmitted))
        (WindowClass.fullyDistributed.virtual.Acknowledged defaultConsumer retransmitted seq) seq) ∧
      Steps WindowClass.fullyDistributed.virtual.step WindowClass.fullyDistributed.virtual.Tracks
        defaultConsumer retransmitted :=
  no_seq_lost WindowClass.fullyDistributed.virtual (WindowClass.lawful .fullyDistributed) defaultConsumer
    0 maxWord (second / 20) (.initial .ticks) (by decide) rfl retransmitted (by decide)

end Virtual

end Ncfcc.Apps
