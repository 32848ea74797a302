import Ncfcc.Apps.KarnRule

/-! The budget of a batch consumer: how many new numbers `SendPacket` has issued, beside
how many `AddBatch` has allowed. The sum of the batches is kept in the 32-bit
`m_seqMax`, whose largest value means "no limit". -/
namespace Ncfcc.Apps
open Ncfcc.Library

namespace Consumer

/-- `SendPacket` counts `m_seq` on, that is, issues a new number. -/
def issues (consumer : Consumer) : Bool := decide (consumer.nextSeq.2.seq ≠ consumer.seq)

private theorem nextSeq_inactive (consumer : Consumer) (inactive : consumer.active = false) :
    consumer.nextSeq = (none,consumer) := by
  simp [nextSeq,inactive]

private theorem nextSeq_idle (consumer : Consumer) (active : consumer.active = true) (idle : consumer.retxSeqs = ∅) :
    consumer.nextSeq = if consumer.seqMax ≠ maxWord ∧ consumer.seq ≥ consumer.seqMax then (none,consumer)
      else (some consumer.seq,{ consumer with seq := (consumer.seq + 1) % word }) := by
  have first : consumer.retxSeqs.min = ⊤ := Finset.min_eq_top.mpr idle
  simp only [nextSeq,active,first,↓reduceIte]

/-- A waiting number goes first, unless it is the one that stands for "none". -/
theorem nextSeq_waiting (consumer : Consumer) (active : consumer.active = true)
    (waiting : consumer.retxSeqs.Nonempty) (small : maxWord ∉ consumer.retxSeqs) :
    ∃ seq ∈ consumer.retxSeqs,
      consumer.nextSeq = (some seq,{ consumer with retxSeqs := consumer.retxSeqs.erase seq }) := by
  obtain ⟨seq,first⟩ := Finset.min_of_nonempty waiting
  have member : seq ∈ consumer.retxSeqs := Finset.mem_of_min first
  have apart : seq ≠ maxWord := fun same => small (same ▸ member)
  refine ⟨seq,member,?_⟩
  unfold nextSeq
  rw [if_pos active,first]
  exact if_neg apart

/-- `m_seq` counts the numbers issued and `m_seqMax` those allowed, which are too few to
reach the value without a limit; only issued numbers are outstanding or waiting. -/
structure Budgeted (issued added : Nat) (consumer : Consumer) : Prop where
  seq : consumer.seq = issued
  seqMax : consumer.seqMax = added
  within : issued ≤ added
  limited : added < maxWord
  outstanding : ∀ seq ∈ consumer.seqTimeouts.keys, seq < issued
  waiting : ∀ seq ∈ consumer.retxSeqs, seq < issued

section
variable {issued added : Nat} {consumer : Consumer}

theorem Budgeted.congr {other : Consumer} (budgeted : Budgeted issued added consumer)
    (seq : other.seq = consumer.seq) (seqMax : other.seqMax = consumer.seqMax)
    (timeouts : other.seqTimeouts = consumer.seqTimeouts) (waiting : other.retxSeqs = consumer.retxSeqs) :
    Budgeted issued added other where
  seq := seq.trans budgeted.seq
  seqMax := seqMax.trans budgeted.seqMax
  within := budgeted.within
  limited := budgeted.limited
  outstanding := timeouts ▸ budgeted.outstanding
  waiting := waiting ▸ budgeted.waiting

private theorem budgeted_of_sequencing {first second : Consumer} (same : first.sequencing = second.sequencing) :
    Budgeted issued added first ↔ Budgeted issued added second := by
  have number := field_of_sequencing Consumer.seq (fun _ => rfl) same
  have limit := field_of_sequencing Consumer.seqMax (fun _ => rfl) same
  have timeouts := seqTimeouts_of_sequencing same
  have waiting := field_of_sequencing Consumer.retxSeqs (fun _ => rfl) same
  constructor
  · intro budgeted
    exact budgeted.congr number.symm limit.symm timeouts.symm waiting.symm
  · intro budgeted
    exact budgeted.congr number limit timeouts waiting

theorem Budgeted.small (budgeted : Budgeted issued added consumer) : maxWord ∉ consumer.retxSeqs := by
  intro member
  have below := budgeted.waiting maxWord member
  have := budgeted.within
  have := budgeted.limited
  omega

theorem Budgeted.nextSeq_new (budgeted : Budgeted issued added consumer) (active : consumer.active = true)
    (idle : consumer.retxSeqs = ∅) :
    consumer.nextSeq = if issued < added then (some issued,{ consumer with seq := issued + 1 })
      else (none,consumer) := by
  have apart : added ≠ maxWord := budgeted.limited.ne
  rw [consumer.nextSeq_idle active idle,budgeted.seq,budgeted.seqMax]
  by_cases less : issued < added
  · have small : (issued + 1) % word = issued + 1 := by
      apply Nat.mod_eq_of_lt
      have limited := budgeted.limited
      unfold maxWord at limited
      omega
    rw [if_neg (fun done => Nat.not_le_of_lt less done.2),if_pos less,small]
  · rw [if_pos ⟨apart,Nat.le_of_not_lt less⟩,if_neg less]

/-- With nothing waiting a new number is issued exactly while the budget lasts. -/
theorem Budgeted.issues_iff (budgeted : Budgeted issued added consumer) (active : consumer.active = true)
    (idle : consumer.retxSeqs = ∅) : consumer.issues = true ↔ issued < added := by
  unfold issues
  rw [budgeted.nextSeq_new active idle,budgeted.seq,decide_eq_true_eq]
  by_cases less : issued < added
  · simp [less]
  · simp [less,budgeted.seq]

theorem Budgeted.issues_waiting (budgeted : Budgeted issued added consumer)
    (waiting : consumer.retxSeqs.Nonempty) : consumer.issues = false := by
  unfold issues
  apply decide_eq_false
  intro moved
  cases active : consumer.active with
  | false => exact moved (by rw [consumer.nextSeq_inactive active])
  | true =>
    obtain ⟨seq,-,choice⟩ := consumer.nextSeq_waiting active waiting budgeted.small
    exact moved (by rw [choice])

/-- `WillSendOutInterest` starts the timeout of an issued number. -/
theorem Budgeted.send (budgeted : Budgeted issued added consumer) (now : Time) (seq : Nat)
    (known : seq < issued) : Budgeted issued added ((consumer.willSendOutInterest now seq).transmit seq) where
  seq := budgeted.seq
  seqMax := budgeted.seqMax
  within := budgeted.within
  limited := budgeted.limited
  outstanding other member := by
    have keys := (TimedSet.mem_keys_insert consumer.seqTimeouts seq other now).mp member
    rcases keys with rfl | before
    · exact known
    · exact budgeted.outstanding other before
  waiting := budgeted.waiting

theorem Budgeted.sendPacket (budgeted : Budgeted issued added consumer) (now : Time) :
    Budgeted (if consumer.issues then issued + 1 else issued) added
      (match consumer.nextSeq with
        | (none,rest) => rest
        | (some seq,rest) => (rest.willSendOutInterest now seq).transmit seq) := by
  cases active : consumer.active with
  | false =>
    have choice := consumer.nextSeq_inactive active
    have none : consumer.issues = false := by simp [issues,choice]
    rw [none,choice]
    exact budgeted
  | true =>
    rcases consumer.retxSeqs.eq_empty_or_nonempty with idle | waiting
    · have new := budgeted.issues_iff active idle
      rw [budgeted.nextSeq_new active idle]
      by_cases less : issued < added
      · rw [if_pos (new.mpr less),if_pos less]
        apply Budgeted.send
        · constructor
          · rfl
          · exact budgeted.seqMax
          · exact less
          · exact budgeted.limited
          · exact fun seq member => Nat.lt_succ_of_lt (budgeted.outstanding seq member)
          · exact fun seq member => Nat.lt_succ_of_lt (budgeted.waiting seq member)
        · exact Nat.lt_succ_self issued
      · rw [if_neg (fun issues => less (new.mp issues)),if_neg less]
        exact budgeted
    · obtain ⟨seq,member,choice⟩ := consumer.nextSeq_waiting active waiting budgeted.small
      rw [budgeted.issues_waiting waiting,choice]
      apply Budgeted.send
      · constructor
        · exact budgeted.seq
        · exact budgeted.seqMax
        · exact budgeted.within
        · exact budgeted.limited
        · exact budgeted.outstanding
        · exact fun other member => budgeted.waiting other (Finset.mem_of_mem_erase member)
      · exact budgeted.waiting seq member

theorem Budgeted.onData (budgeted : Budgeted issued added consumer) (now : Time) (data : Data) :
    Budgeted issued added (consumer.onData now data) := by
  unfold Consumer.onData
  split
  · constructor
    · exact budgeted.seq
    · exact budgeted.seqMax
    · exact budgeted.within
    · exact budgeted.limited
    · intro seq member
      exact budgeted.outstanding seq ((TimedSet.mem_keys_erase _ _ _).mp member).2
    · intro seq member
      exact budgeted.waiting seq (Finset.mem_of_mem_erase member)
  · exact budgeted

theorem Budgeted.timedOut (budgeted : Budgeted issued added consumer) (now rto : Time) (seq : Nat)
    (found : consumer.expired now rto = some seq) :
    Budgeted issued added ((consumer.eraseTimeout seq).timedOut now seq) where
  seq := budgeted.seq
  seqMax := budgeted.seqMax
  within := budgeted.within
  limited := budgeted.limited
  outstanding other member :=
    budgeted.outstanding other ((TimedSet.mem_keys_erase consumer.seqTimeouts seq other).mp member).2
  waiting other member := by
    obtain ⟨time,-,entries,-⟩ := consumer.overdue_of_expired now rto seq found
    rcases Finset.mem_insert.mp member with rfl | before
    · apply budgeted.outstanding
      rw [TimedSet.keys,entries]
      exact List.mem_cons_self
    · exact budgeted.waiting other before

end

end Consumer

structure Budget where
  state : ConsumerBatches
  issued : Nat
  added : Nat

namespace ConsumerBatches

def newNumbers (state : ConsumerBatches) : BatchesEvent → Nat
  | .consumer (.sendPacket _) => if state.base.issues then 1 else 0
  | _ => 0

def allowance : BatchesEvent → Nat
  | .addBatch amount => amount
  | .consumer _ => 0

def account (budget : Budget) (occurrence : BatchesOccurrence) : Budget where
  state := step budget.state occurrence
  issued := budget.issued + budget.state.newNumbers occurrence.event
  added := budget.added + allowance occurrence.event

/-- The sum of the batches, this one included, stays below the value without a limit. -/
def Limited (budget : Budget) (occurrence : BatchesOccurrence) : Prop :=
  budget.added + allowance occurrence.event < maxWord

instance (budget : Budget) (occurrence : BatchesOccurrence) : Decidable (Limited budget occurrence) :=
  inferInstanceAs (Decidable (_ < _))

/-- An active consumer with nothing waiting issues a new number exactly while fewer were
issued than allowed. -/
def InBudget (budget : Budget) : Prop :=
  budget.state.base.active = true → budget.state.base.retxSeqs = ∅ →
    (budget.state.base.issues = true ↔ budget.issued < budget.added)

/-- A number that is sent again is a waiting one and takes nothing of the budget. -/
def FreeRetransmission (budget : Budget) (occurrence : BatchesOccurrence) : Prop :=
  ∀ uid, occurrence.event = .consumer (.sendPacket uid) → budget.state.base.active = true →
    budget.state.base.retxSeqs.Nonempty →
    (∃ seq ∈ budget.state.base.retxSeqs, budget.state.base.nextSeq.1 = some seq) ∧
      (account budget occurrence).issued = budget.issued

def Budgeted (budget : Budget) : Prop := budget.state.base.Budgeted budget.issued budget.added

private theorem budgeted_addBatch (budget : Budget) (now : Time) (amount : Nat) (budgeted : Budgeted budget)
    (limited : budget.added + amount < maxWord) :
    (addBatch now amount budget.state).base.Budgeted budget.issued (budget.added + amount) := by
  apply (Consumer.budgeted_of_sequencing (addBatch_sequencing now amount budget.state)).mpr
  constructor
  · exact budgeted.seq
  · change (budget.state.base.seqMax + amount) % word = _
    rw [budgeted.seqMax]
    apply Nat.mod_eq_of_lt
    unfold maxWord at limited
    omega
  · exact Nat.le_add_right_of_le budgeted.within
  · exact limited
  · exact budgeted.outstanding
  · exact budgeted.waiting

private theorem budgeted_consumer (budget : Budget) (now : Time) (event : Event) (budgeted : Budgeted budget) :
    (virtual.step budget.state ⟨now,event⟩).base.Budgeted
      (budget.issued + budget.state.newNumbers (.consumer event)) budget.added := by
  cases event with
  | startApplication =>
    apply (Consumer.budgeted_of_sequencing (lawful.start now budget.state)).mpr
    exact budgeted.congr rfl rfl rfl rfl
  | stopApplication =>
    apply (Consumer.budgeted_of_sequencing (lawful.stop budget.state)).mpr
    exact budgeted.congr rfl rfl rfl rfl
  | onRsr name =>
    apply (Consumer.budgeted_of_sequencing (lawful.rsr now name budget.state)).mpr
    exact budgeted
  | onData data =>
    apply (Consumer.budgeted_of_sequencing (lawful.data now data budget.state)).mpr
    exact budgeted.onData now data
  | sendPacket uid =>
    have fired := lawful.fire uid budget.state
    have before := (Consumer.budgeted_of_sequencing fired).mpr budgeted
    have issues : (virtual.base (virtual.fire uid budget.state)).issues = budget.state.base.issues := by
      unfold Consumer.issues
      rw [Consumer.field_of_sequencing Consumer.seq (fun _ => rfl) fired,
        Consumer.field_of_sequencing Consumer.seq (fun _ => rfl) (Consumer.nextSeq_of_sequencing fired).2]
      rfl
    have counted : budget.issued + budget.state.newNumbers (.consumer (.sendPacket uid)) =
        if (virtual.base (virtual.fire uid budget.state)).issues then budget.issued + 1 else budget.issued := by
      rw [issues]
      change budget.issued + (if budget.state.base.issues then 1 else 0) = _
      cases budget.state.base.issues with
      | false => rfl
      | true => rfl
    rw [counted]
    exact (Consumer.budgeted_of_sequencing (lawful.send now _)).mpr (before.sendPacket now)
  | checkRetxTimeout =>
    apply (Consumer.budgeted_of_sequencing (lawful.check now budget.state)).mpr
    apply lawful.expire_keeps now _ (Consumer.Budgeted budget.issued budget.added)
    · intro first second same
      exact Consumer.budgeted_of_sequencing same
    · intro consumer seq holds found
      exact holds.timedOut now _ seq found
    · exact budgeted

private theorem budgeted_account (budget : Budget) (occurrence : BatchesOccurrence) (budgeted : Budgeted budget)
    (limited : Limited budget occurrence) : Budgeted (account budget occurrence) := by
  obtain ⟨now,event⟩ := occurrence
  cases event with
  | consumer event => exact budgeted_consumer budget now event budgeted
  | addBatch amount => exact budgeted_addBatch budget now amount budgeted limited

private theorem inBudget_of_budgeted (budget : Budget) (budgeted : Budgeted budget) : InBudget budget := by
  intro active idle
  exact budgeted.issues_iff active idle

private theorem freeRetransmission_of_budgeted (budget : Budget) (occurrence : BatchesOccurrence)
    (budgeted : Budgeted budget) : FreeRetransmission budget occurrence := by
  intro uid event active waiting
  constructor
  · obtain ⟨seq,member,choice⟩ := budget.state.base.nextSeq_waiting active waiting budgeted.small
    exact ⟨seq,member,by rw [choice]⟩
  · change budget.issued + budget.state.newNumbers occurrence.event = _
    rw [event,newNumbers,budgeted.issues_waiting waiting]
    rfl

/-- In every run whose batches together stay below the value without a limit, an active
consumer with nothing waiting issues a new number exactly while fewer were issued than
the batches allow, and what is sent again takes nothing of that. -/
theorem batches_in_budget (retxTimer : Time) (rtt : RttMeanDeviation) (occurrences : List BatchesOccurrence)
    (limited : Steps account Limited ⟨⟨Consumer.initial 0 0 retxTimer rtt,true⟩,0,0⟩ occurrences) :
    Along account InBudget ⟨⟨Consumer.initial 0 0 retxTimer rtt,true⟩,0,0⟩ occurrences ∧
      Steps account FreeRetransmission ⟨⟨Consumer.initial 0 0 retxTimer rtt,true⟩,0,0⟩ occurrences := by
  have start : Budgeted ⟨⟨Consumer.initial 0 0 retxTimer rtt,true⟩,0,0⟩ := by
    constructor
    · rfl
    · rfl
    · exact le_rfl
    · exact (by decide : 0 < maxWord)
    · exact fun seq member => absurd member List.not_mem_nil
    · exact fun seq member => absurd member (Finset.notMem_empty seq)
  have always := along_of_steps budgeted_account start limited
  constructor
  · intro before inside
    exact inBudget_of_budgeted _ (always before inside)
  · exact steps_of_along freeRetransmission_of_budgeted always

def repeatedBatches : List BatchesOccurrence :=
  [⟨0,.consumer .startApplication⟩,⟨0,.addBatch 1⟩,⟨0,.consumer (.sendPacket 0)⟩,
    ⟨second * 4,.consumer .checkRetxTimeout⟩,⟨second * 4,.consumer (.sendPacket 1)⟩,
    ⟨second * 5,.addBatch 2⟩]

theorem repeatedBatches_in_budget :
    Along account InBudget ⟨new,0,0⟩ repeatedBatches ∧ Steps account FreeRetransmission ⟨new,0,0⟩ repeatedBatches :=
  batches_in_budget (second / 20) (.initial .ticks) repeatedBatches (by decide)

/-- The second batch wraps `m_seqMax` to zero: nothing is ever issued, though two batches
allow 2^32 numbers. -/
theorem wrapped_batches_issue_nothing : ¬ Along account InBudget ⟨new,0,0⟩
    [⟨0,.consumer .startApplication⟩,⟨0,.addBatch (2^32 - 1)⟩,⟨0,.addBatch 1⟩] := by
  intro always
  have last := always _ List.prefix_rfl (by decide) (by decide)
  exact absurd (last.mpr (by decide)) (by decide)

end ConsumerBatches

end Ncfcc.Apps
