import Ncfcc.Nfd.Fw.Scope

/-! Loop detection. The nonce of an Interest that was sent is in the out-record of its
face until Data arrives, or until another Interest is sent there: updating an
out-record forgets its nonce, which does not go to the Dead Nonce List. -/
namespace Ncfcc.Nfd.Fw
open Ncfcc.Library Ncfcc.Nfd.Table
open Ncfcc.Cs (FreshData Time milliSeconds)

/-- The send puts no other nonce into an out-record, unless another out-record has the old
one too. -/
def Output.KeepsNonces : Output → Prop
  | .interest face sent _ found => ∀ record ∈ found.outRecords, record.face = face →
    record.lastNonce = sent.nonce ∨ ∃ other ∈ found.outRecords, other.face ≠ face ∧ other.lastNonce = record.lastNonce
  | .data _ _ | .csInsert _ _ => True

instance : (output : Output) → Decidable output.KeepsNonces
  | .interest face sent _ found => inferInstanceAs (Decidable (∀ record ∈ found.outRecords, record.face = face →
      record.lastNonce = sent.nonce ∨
        ∃ other ∈ found.outRecords, other.face ≠ face ∧ other.lastNonce = record.lastNonce))
  | .data _ _ | .csInsert _ _ => inferInstanceAs (Decidable True)

def Remembers (nonce : UInt32) (entry : PitEntry) : Prop := ∃ record ∈ entry.outRecords, record.lastNonce = nonce

theorem insertOrUpdateOutRecord_self (face : Face) (interest : Interest) (now : Time) (entry : PitEntry) :
    FaceRecord.updated face interest now ∈ (entry.insertOrUpdateOutRecord face interest now).outRecords := by
  unfold PitEntry.insertOrUpdateOutRecord
  dsimp only
  split
  · exact List.mem_cons_self
  · rename_i index place
    have inside : index < entry.outRecords.length := (List.findIdx?_eq_some_iff_getElem.mp place).1
    exact List.mem_set inside _

private theorem insertOrUpdateOutRecord_other {face : Face} {entry : PitEntry} {record : OutRecord}
    (member : record ∈ entry.outRecords) (apart : record.face ≠ face) (interest : Interest) (now : Time) :
    record ∈ (entry.insertOrUpdateOutRecord face interest now).outRecords := by
  unfold PitEntry.insertOrUpdateOutRecord
  dsimp only
  split
  · exact List.mem_cons_of_mem _ member
  · rename_i index place
    obtain ⟨inside,same,-⟩ := List.findIdx?_eq_some_iff_getElem.mp place
    obtain ⟨other,there⟩ := List.mem_iff_getElem?.mp member
    have different : index ≠ other := by
      rintro rfl
      rw [List.getElem?_eq_getElem inside] at there
      cases there
      exact apart (of_decide_eq_true same)
    apply List.mem_of_getElem? (i := other)
    rw [List.getElem?_set_ne different]
    exact there

/-- A send keeps every nonce in mind that the entry had, if it keeps that of its face. -/
theorem Remembers.send {nonce : UInt32} {entry : PitEntry} (remembers : Remembers nonce entry) {face : Face}
    {interest : Interest} {place : Nat} (keeps : (Output.interest face interest place entry).KeepsNonces) (now : Time) :
    Remembers nonce (entry.insertOrUpdateOutRecord face interest now) := by
  obtain ⟨record,member,rfl⟩ := remembers
  by_cases here : record.face = face
  · rcases keeps record member here with same | ⟨other,inside,apart,same⟩
    · exact ⟨_,insertOrUpdateOutRecord_self face interest now entry,same.symm⟩
    · exact ⟨other,insertOrUpdateOutRecord_other inside apart interest now,same⟩
  · exact ⟨record,insertOrUpdateOutRecord_other member here interest now,rfl⟩

/-- Once a bit of `findNonce` is set, the other records leave it set. -/
theorem places_ne_zero (records : List FaceRecord) (nonce : UInt32) (face : Face) (same other : Nat)
    (positive : same ≠ 0 ∧ other ≠ 0) (found : Nat)
    (some : found ≠ 0 ∨ ∃ record ∈ records, record.lastNonce = nonce) :
    records.foldl (fun found record => if record.lastNonce = nonce then
      found ||| (if record.face = face then same else other) else found) found ≠ 0 := by
  induction records generalizing found with
  | nil =>
    rcases some with set | ⟨record,none,-⟩
    · exact set
    · cases none
  | cons record records ih =>
    rw [List.foldl_cons]
    apply ih
    by_cases here : record.lastNonce = nonce
    · left
      rw [if_pos here]
      intro zero
      have bits := (Nat.or_eq_zero_iff.mp zero).2
      split at bits
      · exact positive.1 bits
      · exact positive.2 bits
    · rw [if_neg here]
      rcases some with set | ⟨later,member,equal⟩
      · exact Or.inl set
      · rcases List.mem_cons.mp member with rfl | below
        · exact absurd equal here
        · exact Or.inr ⟨later,below,equal⟩

theorem Remembers.findNonce {nonce : UInt32} {entry : PitEntry} (remembers : Remembers nonce entry) (face : Face) :
    entry.findNonce nonce face ≠ 0 :=
  places_ne_zero entry.outRecords nonce face 4 8 (by decide) _ (Or.inr remembers)

namespace Forwarder

/-- No two entries in the PIT are for the same name and selectors. -/
def Unambiguous (forwarder : Forwarder) : Prop :=
  ∀ (first second : Nat) (one other : PitEntry), forwarder.entries[first]? = some one →
    forwarder.entries[second]? = some other → one.inPit = true → isFor one.interest other = true → first = second

/-- Every Interest sent for this entry since the first `count` outputs is remembered by
it, if all sends kept the nonces. -/
def Sent (entry count : Nat) (forwarder : Forwarder) : Prop :=
  count ≤ forwarder.outputs.length ∧
    ((∀ output ∈ forwarder.outputs.drop count, output.KeepsNonces) →
      ∀ face interest found, .interest face interest entry found ∈ forwarder.outputs.drop count →
        ∃ current, forwarder.entries[entry]? = some current ∧ interest.name = current.interest.name ∧
          interest.selectors = current.interest.selectors ∧ Remembers interest.nonce current)

/-- The Interest goes to the loop pipeline, from the entry it is for. -/
def Loops (inFace : Face) (interest : Interest) (forwarder : Forwarder) : Prop :=
  ∃ entry found, forwarder.pitInsert interest = (entry,forwarder) ∧ forwarder.entries[entry]? = some found ∧
    forwarder.hasDuplicateNonce inFace interest found = true

section
variable {forwarder after : Forwarder} {satisfied : Nat → Prop}

private theorem isFor_self {entry : PitEntry} (inPit : entry.inPit = true) : isFor entry.interest entry = true := by
  simp [isFor,inPit]

private theorem isFor_congr {first second : Interest} (name : first.name = second.name)
    (selectors : first.selectors = second.selectors) (entry : PitEntry) : isFor first entry = isFor second entry := by
  unfold isFor
  rw [name,selectors]

theorem Unambiguous.modify (unambiguous : forwarder.Unambiguous) (entry : Nat) {change : PitEntry → PitEntry}
    (interest : ∀ found, (change found).interest = found.interest)
    (inPit : ∀ found, (change found).inPit = true → found.inPit = true) :
    (forwarder.modify entry change).Unambiguous := by
  have old : ∀ (place : Nat) (found : PitEntry), (forwarder.modify entry change).entries[place]? = some found →
      ∃ before, forwarder.entries[place]? = some before ∧ found.interest = before.interest ∧
        (found.inPit = true → before.inPit = true) := by
    intro place found there
    by_cases same : place = entry
    · rw [same,modify_same] at there
      obtain ⟨before,here,rfl⟩ := Option.map_eq_some_iff.mp there
      rw [same]
      exact ⟨before,here,interest before,inPit before⟩
    · rw [modify_other same] at there
      exact ⟨found,there,rfl,id⟩
  intro first second one other there otherThere pending fits
  obtain ⟨before,here,same,kept⟩ := old first one there
  obtain ⟨otherBefore,otherHere,otherSame,otherKept⟩ := old second other otherThere
  obtain ⟨otherPending,name,selectors⟩ := isFor_spec fits
  apply unambiguous first second before otherBefore here otherHere (kept pending)
  rw [← same,isFor,otherKept otherPending,← otherSame]
  simp [name,selectors]

private theorem unambiguous_change (forwarder after : Forwarder) (unambiguous : forwarder.Unambiguous)
    (change : Change satisfied forwarder after) : after.Unambiguous := by
  cases change with
  | surroundings now faceTable deadNonceList => exact unambiguous
  | timers entry change keeps => exact unambiguous.modify entry keeps.interest keeps.inPit
  | pitInsert interest free =>
    have places : ∀ (place : Nat) (found : PitEntry),
        (forwarder.entries ++ [PitEntry.new interest])[place]? = some found →
          forwarder.entries[place]? = some found ∨ place = forwarder.entries.length ∧ found = .new interest := by
      intro place found there
      rcases Nat.lt_or_ge place forwarder.entries.length with inside | beyond
      · rw [List.getElem?_append_left inside] at there
        exact Or.inl there
      · rw [List.getElem?_append_right beyond,List.getElem?_singleton] at there
        split at there
        · cases there
          exact Or.inr ⟨by omega,rfl⟩
        · cases there
    intro first second one other there otherThere pending fits
    rcases places first one there with old | ⟨rfl,rfl⟩
    · rcases places second other otherThere with otherOld | ⟨rfl,rfl⟩
      · exact unambiguous first second one other old otherOld pending fits
      · -- The new entry is for no other Interest in the PIT.
        obtain ⟨-,name,selectors⟩ := isFor_spec fits
        have taken := isFor_self pending
        rw [isFor_congr name selectors,show (PitEntry.new interest).interest = interest from rfl,
          free one (List.mem_of_getElem? old)] at taken
        cases taken
    · rcases places second other otherThere with otherOld | ⟨rfl,rfl⟩
      · rw [show (PitEntry.new interest).interest = interest from rfl,
          free other (List.mem_of_getElem? otherOld)] at fits
        cases fits
      · rfl
  | inRecord entry inFace interest found there name selectors =>
    exact unambiguous.modify entry (fun _ => rfl) (fun _ => id)
  | sendInterest entry outFace interest found picked there scope member name selectors =>
    exact unambiguous.modify entry (fun _ => rfl) (fun _ => id)
  | sendData outFace data scope => exact unambiguous
  | csInsert data isUnsolicited => exact unambiguous
  | satisfy entry inFace allowed => exact unambiguous.modify entry (fun _ => rfl) (fun _ => id)

theorem Sent.modify {entry count : Nat} (sent : forwarder.Sent entry count) (place : Nat) (change : PitEntry → PitEntry)
    (kept : place = entry → ∀ found, (change found).interest = found.interest ∧
      (change found).outRecords = found.outRecords) :
    (forwarder.modify place change).Sent entry count := by
  refine ⟨sent.1,?_⟩
  intro keeps face interest found member
  obtain ⟨current,there,name,selectors,remembers⟩ := sent.2 keeps face interest found member
  by_cases same : place = entry
  · obtain ⟨sameInterest,sameRecords⟩ := kept same current
    refine ⟨change current,?_,?_,?_,?_⟩
    · rw [same,modify_same,there]
      rfl
    · rw [sameInterest]
      exact name
    · rw [sameInterest]
      exact selectors
    · unfold Remembers
      rw [sameRecords]
      exact remembers
  · refine ⟨current,?_,name,selectors,remembers⟩
    rw [modify_other (Ne.symm same)]
    exact there

private theorem drop_emit (forwarder : Forwarder) {count : Nat} (enough : count ≤ forwarder.outputs.length) (output : Output) :
    count ≤ (forwarder.emit output).outputs.length ∧
      (forwarder.emit output).outputs.drop count = forwarder.outputs.drop count ++ [output] := by
  refine ⟨?_,List.drop_append_of_le_length enough⟩
  change count ≤ (forwarder.outputs ++ [output]).length
  rw [List.length_append]
  exact Nat.le_add_right_of_le enough

theorem Sent.emit {entry count : Nat} (sent : forwarder.Sent entry count) (output : Output)
    (other : ∀ face interest found, output ≠ .interest face interest entry found) :
    (forwarder.emit output).Sent entry count := by
  obtain ⟨long,grown⟩ := drop_emit forwarder sent.1 output
  refine ⟨long,?_⟩
  rw [grown]
  intro keeps face interest found member
  apply sent.2 (fun earlier inside => keeps earlier (List.mem_append_left _ inside)) face interest found
  rcases List.mem_append.mp member with before | last
  · exact before
  · exact absurd (List.mem_singleton.mp last).symm (other face interest found)

theorem Sent.sendInterest {entry count : Nat} (sent : forwarder.Sent entry count) {outFace : Face} {interest : Interest}
    {found : PitEntry} (there : forwarder.entries[entry]? = some found) (name : interest.name = found.interest.name)
    (selectors : interest.selectors = found.interest.selectors) :
    ((forwarder.modify entry (PitEntry.insertOrUpdateOutRecord outFace interest forwarder.now)).emit
      (.interest outFace interest entry found)).Sent entry count := by
  obtain ⟨long,grown⟩ := drop_emit (forwarder.modify entry
    (PitEntry.insertOrUpdateOutRecord outFace interest forwarder.now)) sent.1 (.interest outFace interest entry found)
  have now : (forwarder.modify entry (PitEntry.insertOrUpdateOutRecord outFace interest forwarder.now)).entries[entry]? =
      some (found.insertOrUpdateOutRecord outFace interest forwarder.now) := by
    rw [modify_same,there]
    rfl
  refine ⟨long,?_⟩
  rw [grown]
  intro keeps face other snapshot member
  refine ⟨_,now,?_⟩
  rcases List.mem_append.mp member with before | last
  · obtain ⟨current,here,otherName,otherSelectors,remembers⟩ :=
      sent.2 (fun earlier inside => keeps earlier (List.mem_append_left _ inside)) face other snapshot before
    rw [there] at here
    cases here
    have kept := keeps _ (List.mem_append_right _ (List.mem_singleton_self _))
    exact ⟨otherName,otherSelectors,remembers.send kept forwarder.now⟩
  · cases List.mem_singleton.mp last
    exact ⟨name,selectors,_,insertOrUpdateOutRecord_self outFace interest forwarder.now found,rfl⟩

/-- In a window in which the entry is not satisfied its sends stay in mind. -/
theorem sent_change {entry count : Nat} (unsatisfied : ¬ satisfied entry) (forwarder after : Forwarder)
    (holds : forwarder.Scoped ∧ forwarder.Sent entry count) (change : Change satisfied forwarder after) :
    after.Scoped ∧ after.Sent entry count := by
  refine ⟨scoped_change forwarder after holds.1 change,?_⟩
  obtain ⟨within,sent⟩ := holds
  cases change with
  | surroundings now faceTable deadNonceList => exact sent
  | timers place change keeps =>
    exact sent.modify place change (fun _ found => ⟨keeps.interest found,keeps.outRecords found⟩)
  | pitInsert interest free =>
    refine ⟨sent.1,?_⟩
    intro keeps face other found member
    obtain ⟨current,there,rest⟩ := sent.2 keeps face other found member
    refine ⟨current,?_,rest⟩
    rw [List.getElem?_append_left (List.getElem?_eq_some_iff.mp there).1]
    exact there
  | inRecord place inFace interest found there name selectors =>
    exact sent.modify place _ (fun _ _ => ⟨rfl,rfl⟩)
  | sendInterest place outFace interest found picked there scope member name selectors =>
    have own := within.entries found (List.mem_of_getElem? there) picked member
    by_cases same : place = entry
    · subst same
      exact sent.sendInterest there (name.trans own.1) (selectors.trans own.2)
    · have moved := sent.modify place (PitEntry.insertOrUpdateOutRecord outFace interest forwarder.now)
        (fun equal => absurd equal same)
      apply moved.emit
      intro face other snapshot equal
      cases equal
      exact same rfl
  | sendData outFace data scope => exact sent.emit _ (by simp)
  | csInsert data isUnsolicited => exact sent.emit _ (by simp)
  | satisfy place inFace allowed =>
    exact sent.modify place _ (fun equal => absurd (equal ▸ allowed) unsatisfied)

/-- An Interest of a remembered nonce goes to the loop pipeline. -/
theorem Unambiguous.loops_of_remembers (unambiguous : forwarder.Unambiguous) {entry : Nat} {current : PitEntry}
    (there : forwarder.entries[entry]? = some current) (inPit : current.inPit = true) {arriving : Interest}
    (name : arriving.name = current.interest.name) (selectors : arriving.selectors = current.interest.selectors)
    (remembers : Remembers arriving.nonce current) (inFace : Face) : forwarder.Loops inFace arriving := by
  have fits : isFor arriving current = true := by
    rw [isFor_congr name selectors]
    exact isFor_self inPit
  rcases pitInsert_cases arriving forwarder with ⟨place,found,here,same,made⟩ | ⟨free,-⟩
  · have equal : entry = place := by
      apply unambiguous entry place current found there here inPit
      rw [← isFor_congr name selectors]
      exact same
    subst equal
    refine ⟨entry,current,made,there,?_⟩
    unfold hasDuplicateNonce
    rw [Bool.or_eq_true]
    exact Or.inl (decide_eq_true (remembers.findNonce inFace))
  · rw [free current (List.mem_of_getElem? there)] at fits
    cases fits

private theorem onIncomingInterest_of_loops {inFace : Face} {interest : Interest} (loops : forwarder.Loops inFace interest)
    (cached : Option FreshData) (strategy : Strategy) :
    forwarder.onIncomingInterest inFace interest cached strategy = some forwarder := by
  cases scope : violatesLocalhost inFace interest.name with
  | true =>
    unfold onIncomingInterest
    rw [scope]
    rfl
  | false =>
    obtain ⟨entry,found,made,there,duplicate⟩ := loops
    rw [onIncomingInterest_eq cached strategy scope made there,if_pos duplicate]

end

/-- In a run from `before` to `after`, every Interest sent for an entry that is still in the
PIT, and that no Data has satisfied meanwhile, is detected when it comes back: on any
face it is dropped without any effect, by the loop pipeline unless scope control
drops it before. -/
def DetectsLoops (matchesData : Interest → FreshData → Bool) (events : List (Time × Event))
    (before after : Forwarder) : Prop :=
  ∀ entry current face interest found, after.entries[entry]? = some current → current.inPit = true →
    .interest face interest entry found ∈ after.outputs.drop before.outputs.length →
    Steps (next matchesData) (fun state timed => ∀ forwarder, state = some forwarder →
      ¬ forwarder.Satisfies matchesData entry timed.2) (some before) events →
    ∀ now inFace arriving cached strategy, arriving.name = interest.name → arriving.selectors = interest.selectors →
      arriving.nonce = interest.nonce →
      after.step matchesData (now,.incomingInterest inFace arriving cached strategy) = some { after with now } ∧
        (violatesLocalhost inFace arriving.name = false → ({ after with now } : Forwarder).Loops inFace arriving)

/-- In every run, wherever one begins to watch it, the Interests sent are detected as long
as no send replaces the nonce of an out-record that no other out-record has. -/
theorem loops_detected (matchesData : Interest → FreshData → Bool) (first events : List (Time × Event))
    (before after : Forwarder) (start : run (next matchesData) (some new) first = some before)
    (reached : run (next matchesData) (some before) events = some after)
    (keeps : ∀ output ∈ after.outputs.drop before.outputs.length, output.KeepsNonces) :
    DetectsLoops matchesData events before after := by
  intro entry current face interest found there inPit sent unsatisfied now inFace arriving cached strategy name
    selectors nonce
  have unambiguous : after.Unambiguous := by
    have all : run (next matchesData) (some new) (first ++ events) = some after := by
      rw [run_append,start]
      exact reached
    refine attempt_invariant ?_ ?_ all
    · intro forwarder timed next holds stepped
      exact (step_changes timed stepped).invariant unambiguous_change holds
    · intro first second one other none
      cases none
  have remembered : after.Scoped ∧ after.Sent entry before.outputs.length := by
    have always : Along (next matchesData) (fun state => ∀ forwarder, state = some forwarder →
        forwarder.Scoped ∧ forwarder.Sent entry before.outputs.length) (some before) events := by
      refine along_of_steps ?_ ?_ unsatisfied
      · intro state timed holds admitted next stepped
        obtain ⟨forwarder,here,stepped⟩ := Option.bind_eq_some_iff.mp stepped
        exact (step_changes timed stepped).invariant (sent_change (admitted forwarder here)) (holds forwarder here)
      · intro forwarder here
        cases here
        have within : before.Scoped := attempt_invariant scoped_step new_scoped start
        refine ⟨within,le_rfl,?_⟩
        intro _ face interest found none
        rw [List.drop_length] at none
        cases none
    exact always events List.prefix_rfl after reached
  obtain ⟨_,same,itsName,itsSelectors,remembers⟩ := remembered.2.2 keeps face interest found sent
  rw [there] at same
  cases same
  rw [← nonce] at remembers
  have later : ({ after with now } : Forwarder).Unambiguous := unambiguous
  have loops := later.loops_of_remembers there inPit (name.trans itsName) (selectors.trans itsSelectors) remembers inFace
  exact ⟨onIncomingInterest_of_loops loops cached strategy,fun _ => loops⟩

private theorem unsatisfied_of_no_data (matchesData : Interest → FreshData → Bool) (entry : Nat) (before : Option Forwarder)
    (events : List (Time × Event))
    (none : ∀ timed ∈ events, ∀ inFace data strategy, timed.2 ≠ .incomingData inFace data strategy) :
    Steps (next matchesData) (fun state timed => ∀ forwarder, state = some forwarder →
      ¬ forwarder.Satisfies matchesData entry timed.2) before events := by
  intro earlier timed inside forwarder _ satisfies
  have member : timed ∈ events := inside.subset (List.mem_append_right _ (List.mem_singleton_self timed))
  obtain ⟨now,event⟩ := timed
  cases event with
  | incomingData inFace data strategy => exact none _ member inFace data strategy rfl
  | incomingInterest inFace interest cached strategy => cases satisfies
  | strategyAction action => cases satisfies
  | unsatisfyTimer entry strategy => cases satisfies
  | stragglerTimer entry => cases satisfies
  | mark => cases satisfies
  | adjustCapacity => cases satisfies
  | addFace face => cases satisfies
  | removeFace face => cases satisfies

/-- An Interest for `/A` with this nonce. -/
def interestA (nonce : UInt32) : Interest := ⟨[[0x41]],.none,nonce,4000⟩

/-- Interests for `/A` from face 1 are sent to face 2, each with its own nonce. -/
def forwarded (nonces : List UInt32) : List (Time × Event) :=
  (0,.addFace ⟨1,false⟩) :: (0,.addFace ⟨2,false⟩) :: nonces.map fun nonce =>
    (0,.incomingInterest ⟨1,false⟩ (interestA nonce) none fun entry => [.sendInterest entry ⟨2,false⟩ none])

theorem loops_detected_once : ∃ after, run (next fun _ _ => true) (some new) (forwarded [7]) = some after ∧
    after.outputs ≠ [] ∧ DetectsLoops (fun _ _ => true) (forwarded [7]) new after := by
  have reached : (run (next fun _ _ => true) (some new) (forwarded [7])).any (fun after =>
      after.outputs ≠ [] ∧ ∀ output ∈ after.outputs, output.KeepsNonces) = true := by
    decide +kernel
  obtain ⟨after,here,holds⟩ := (Option.any_eq_true _ _).mp reached
  obtain ⟨something,keeps⟩ := of_decide_eq_true holds
  exact ⟨after,here,something,loops_detected (fun _ _ => true) [] (forwarded [7]) new after rfl here keeps⟩

private theorem forwarded_no_data (nonces : List UInt32) : ∀ timed ∈ forwarded nonces, ∀ inFace data strategy,
    timed.2 ≠ .incomingData inFace data strategy := by
  simp [forwarded]

/-- The retransmission with nonce 8 replaces nonce 7 in the in-record of face 1 and in the
out-record of face 2, so that the first Interest is not detected when it comes back. -/
theorem retransmission_forgets_nonce :
    ∃ after, run (next fun _ _ => true) (some new) (forwarded [7,8]) = some after ∧
      ¬ DetectsLoops (fun _ _ => true) (forwarded [7,8]) new after := by
  have reached : (run (next fun _ _ => true) (some new) (forwarded [7,8])).any (fun after =>
      (after.entries.head?.any fun current => current.inPit) &&
      (after.outputs.head?.any fun
        | .interest _ interest entry _ => entry = 0 && interest = interestA 7
        | _ => false) &&
      after.step (fun _ _ => true) (0,.incomingInterest ⟨2,false⟩ (interestA 7) none fun _ => []) ≠
        some { after with now := 0 }) = true := by
    decide +kernel
  obtain ⟨after,here,holds⟩ := (Option.any_eq_true _ _).mp reached
  simp only [Bool.and_eq_true,decide_eq_true_eq] at holds
  obtain ⟨⟨pending,first⟩,kept⟩ := holds
  obtain ⟨current,there,inPit⟩ := (Option.any_eq_true _ _).mp pending
  obtain ⟨output,head,same⟩ := (Option.any_eq_true _ _).mp first
  refine ⟨after,here,?_⟩
  intro detects
  cases output with
  | interest face sent entry found =>
    obtain ⟨place,equal⟩ := Bool.and_eq_true_iff.mp same
    cases of_decide_eq_true place
    cases of_decide_eq_true equal
    apply kept
    rw [List.head?_eq_getElem?] at there
    have member : .interest face (interestA 7) 0 found ∈ after.outputs := List.mem_of_mem_head? head
    exact (detects 0 current face (interestA 7) found there inPit member
      (unsatisfied_of_no_data _ 0 _ _ (forwarded_no_data [7,8])) 0 ⟨2,false⟩ (interestA 7) none (fun _ => [])
      rfl rfl rfl).1
  | data face data => cases same
  | csInsert data isUnsolicited => cases same

end Forwarder

end Ncfcc.Nfd.Fw
