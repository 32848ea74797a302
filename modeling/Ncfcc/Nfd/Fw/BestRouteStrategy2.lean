import Ncfcc.Nfd.Fw.PickInterest
import Ncfcc.Nfd.Table.FibEntry

/-! The best route strategy with its suppression of retransmissions. Next hops come in the order
of their costs, so the first that qualifies is a cheapest one. -/
namespace Ncfcc.Nfd.Fw
open Ncfcc.Nfd.Table
open Ncfcc.Cs (Time)

/-! `RetxSuppressionExponential`. -/

namespace RetxSuppression

inductive Result where
  | new
  | forward
  | suppress
  deriving DecidableEq

/-- In microseconds, as all suppression intervals. -/
def defaultInitialInterval : Int := 1000

def defaultMaxInterval : Int := 250000

/-- None if the assertion that there is an out-record fails. -/
def getLastOutgoing (found : PitEntry) : Option Time :=
  (maxElement (fun first second => first.lastRenewed < second.lastRenewed) found.outRecords).map FaceRecord.lastRenewed

/-- The multiplier is 2, as it is for the strategy. The interval is none before it is created. -/
def decide (found : PitEntry) (now : Time) (suppressionInterval : Option Int) : Option (Result × Option Int) :=
  if !found.hasUnexpiredOutRecords now then some (.new,suppressionInterval)
  else
    (getLastOutgoing found).map fun lastOutgoing =>
      let interval := suppressionInterval.getD defaultInitialInterval
      if now - lastOutgoing < interval * 1000 then (.suppress,some interval)
      else (.forward,some (min defaultMaxInterval (interval * 2)))

end RetxSuppression

namespace BestRouteStrategy2
open RetxSuppression

section
variable (forwarder : Forwarder) (found : PitEntry)

/-- The id of a face is none once it was removed. -/
def getId (face : Face) : Option Nat := if face ∈ forwarder.faceTable then some face.number else none

def predicateNextHopEligible (currentDownstream : Option Nat) (wantUnused : Bool) (nexthop : NextHop Face) : Bool :=
  if getId forwarder nexthop.face = currentDownstream then false
  else if found.violatesScope nexthop.face then false
  else if wantUnused && (found.getOutRecord nexthop.face).any (fun outRecord => forwarder.now < outRecord.expiry) then false
  else true

/-- The round for one next hop, with the one found before and the time of its out-record;
none if it has no out-record, which is asserted. -/
def earlier (currentDownstream : Option Nat) (before : Option (NextHop Face × Time)) (nexthop : NextHop Face) :
    Option (Option (NextHop Face × Time)) :=
  if !predicateNextHopEligible forwarder found currentDownstream false nexthop then some before
  else
    (found.getOutRecord nexthop.face).map fun outRecord =>
      if before.all (fun earliest => outRecord.lastRenewed < earliest.2) then some (nexthop,outRecord.lastRenewed) else before

def findEligibleNextHopWithEarliestOutRecord (nexthops : List (NextHop Face)) (currentDownstream : Option Nat) :
    Option (Option (NextHop Face)) :=
  (nexthops.foldlM (earlier forwarder found currentDownstream) none).map fun best => best.map Prod.fst

end

def afterReceiveInterest (forwarder : Forwarder) (entry : Nat) (found : PitEntry) (inFace : Face)
    (nexthops : List (NextHop Face)) (suppressionInterval : Option Int) : Option (List StrategyAction × Option Int) := do
  let (suppression,suppressionInterval) ← RetxSuppression.decide found forwarder.now suppressionInterval
  match suppression with
  | .new =>
    match nexthops.find? (predicateNextHopEligible forwarder found (getId forwarder inFace) false) with
    | none => return ([.rejectPendingInterest entry],suppressionInterval)
    | some nexthop => return ([.sendInterest entry nexthop.face none],suppressionInterval)
  | .suppress => return ([],suppressionInterval)
  | .forward =>
    match nexthops.find? (predicateNextHopEligible forwarder found (getId forwarder inFace) true) with
    | some nexthop => return ([.sendInterest entry nexthop.face none],suppressionInterval)
    | none =>
      match ← findEligibleNextHopWithEarliestOutRecord forwarder found nexthops (getId forwarder inFace) with
      | none => return ([],suppressionInterval)
      | some nexthop => return ([.sendInterest entry nexthop.face none],suppressionInterval)

/-! What the strategy is for. -/

section
variable (forwarder : Forwarder) (found : PitEntry) (inFace : Face) (nexthops : List (NextHop Face))

def Eligible (nexthop : NextHop Face) : Prop :=
  getId forwarder nexthop.face ≠ getId forwarder inFace ∧ found.violatesScope nexthop.face = false

def Unused (nexthop : NextHop Face) : Prop :=
  ∀ outRecord, found.getOutRecord nexthop.face = some outRecord → outRecord.expiry ≤ forwarder.now

def Cheapest (qualifies : NextHop Face → Prop) (nexthop : NextHop Face) : Prop :=
  nexthop ∈ nexthops ∧ qualifies nexthop ∧ ∀ other ∈ nexthops, qualifies other → nexthop.cost ≤ other.cost

def RenewedEarliest (nexthop : NextHop Face) : Prop :=
  nexthop ∈ nexthops ∧ Eligible forwarder found inFace nexthop ∧
    ∃ outRecord, found.getOutRecord nexthop.face = some outRecord ∧
      ∀ other ∈ nexthops, Eligible forwarder found inFace other →
        ∃ otherRecord, found.getOutRecord other.face = some otherRecord ∧ outRecord.lastRenewed ≤ otherRecord.lastRenewed

/-- All upstreams have answered or timed out. -/
def IsNew : Prop := ∀ outRecord ∈ found.outRecords, outRecord.expiry < forwarder.now

/-- The Interest was sent within the suppression interval. -/
def Suppressed (suppressionInterval : Option Int) : Prop :=
  ∃ outRecord ∈ found.outRecords,
    forwarder.now - outRecord.lastRenewed < suppressionInterval.getD defaultInitialInterval * 1000

/-- What is to be done, for a new Interest and for a retransmission that is not suppressed. -/
structure Selects (entry : Nat) (suppressionInterval : Option Int) (actions : List StrategyAction) : Prop where
  single : actions.length ≤ 1
  upstream : ∀ place outFace nonce, .sendInterest place outFace nonce ∈ actions → place = entry ∧
    outFace ≠ inFace ∧ found.violatesScope outFace = false ∧
      ∃ nexthop ∈ nexthops, nexthop.face = outFace ∧ Eligible forwarder found inFace nexthop
  rejects : ∀ place, .rejectPendingInterest place ∈ actions ↔
    place = entry ∧ IsNew forwarder found ∧ ∀ nexthop ∈ nexthops, ¬ Eligible forwarder found inFace nexthop
  new : IsNew forwarder found → (∃ nexthop ∈ nexthops, Eligible forwarder found inFace nexthop) →
    ∃ nexthop, Cheapest nexthops (Eligible forwarder found inFace) nexthop ∧
      actions = [.sendInterest entry nexthop.face none]
  suppressed : ¬ IsNew forwarder found → Suppressed forwarder found suppressionInterval → actions = []
  unused : ¬ IsNew forwarder found → ¬ Suppressed forwarder found suppressionInterval →
    (∃ nexthop ∈ nexthops, Eligible forwarder found inFace nexthop ∧ Unused forwarder found nexthop) →
    ∃ nexthop, Cheapest nexthops (fun nexthop => Eligible forwarder found inFace nexthop ∧ Unused forwarder found nexthop)
      nexthop ∧ actions = [.sendInterest entry nexthop.face none]
  retried : ¬ IsNew forwarder found → ¬ Suppressed forwarder found suppressionInterval →
    (∀ nexthop ∈ nexthops, Eligible forwarder found inFace nexthop → ¬ Unused forwarder found nexthop) →
    (∃ nexthop ∈ nexthops, Eligible forwarder found inFace nexthop) →
    ∃ nexthop, RenewedEarliest forwarder found inFace nexthops nexthop ∧ actions = [.sendInterest entry nexthop.face none]

end

section
variable {forwarder : Forwarder} {found : PitEntry} {inFace : Face} {nexthops : List (NextHop Face)}

private theorem predicateNextHopEligible_iff {wantUnused : Bool} {nexthop : NextHop Face} :
    predicateNextHopEligible forwarder found (getId forwarder inFace) wantUnused nexthop = true ↔
      Eligible forwarder found inFace nexthop ∧ (wantUnused = true → Unused forwarder found nexthop) := by
  unfold predicateNextHopEligible Eligible Unused
  cases scope : found.violatesScope nexthop.face with
  | true => simp
  | false =>
    cases wantUnused with
    | false => simp
    | true => cases record : found.getOutRecord nexthop.face with
      | none => simp
      | some outRecord => simp

theorem Eligible.apart {nexthop : NextHop Face} (eligible : Eligible forwarder found inFace nexthop) :
    nexthop.face ≠ inFace := by
  intro same
  apply eligible.1
  rw [same]

private theorem hasUnexpiredOutRecords_iff : found.hasUnexpiredOutRecords forwarder.now = true ↔ ¬ IsNew forwarder found := by
  simp [PitEntry.hasUnexpiredOutRecords,IsNew]

/-- The last out-record tells whether any was renewed within the interval. -/
theorem lastOutgoing_suppressed {lastOutgoing : Time} (last : getLastOutgoing found = some lastOutgoing)
    (suppressionInterval : Option Int) :
    forwarder.now - lastOutgoing < suppressionInterval.getD defaultInitialInterval * 1000 ↔
      Suppressed forwarder found suppressionInterval := by
  obtain ⟨record,largest,rfl⟩ := Option.map_eq_some_iff.mp last
  have latest : ∀ other ∈ found.outRecords, other.lastRenewed ≤ record.lastRenewed := by
    intro other member
    have compared := maxElement_largest (fun first second => by simpa using Int.le_of_lt)
      (fun first second third => by simpa using fun earlier later => Int.le_trans later earlier) largest other member
    simpa using compared
  constructor
  · intro within
    exact ⟨record,Forwarder.mem_of_maxElement largest,within⟩
  · intro suppressed
    obtain ⟨other,member,within⟩ := suppressed
    exact lt_of_le_of_lt (Int.sub_le_sub_left (latest other member) _) within

/-- The decision about an Interest; the assertion holds, as there is an out-record. -/
theorem decide_cases (forwarder : Forwarder) (found : PitEntry) (suppressionInterval : Option Int) :
    ∃ result after, RetxSuppression.decide found forwarder.now suppressionInterval = some (result,after) ∧
      ((result = .new ∧ IsNew forwarder found) ∨
        (¬ IsNew forwarder found ∧ result = .suppress ∧ Suppressed forwarder found suppressionInterval) ∨
        (¬ IsNew forwarder found ∧ result = .forward ∧ ¬ Suppressed forwarder found suppressionInterval)) := by
  unfold RetxSuppression.decide
  cases unexpired : found.hasUnexpiredOutRecords forwarder.now with
  | false =>
    refine ⟨.new,suppressionInterval,rfl,Or.inl ⟨rfl,?_⟩⟩
    by_contra old
    rw [hasUnexpiredOutRecords_iff.mpr old] at unexpired
    cases unexpired
  | true =>
    have old := hasUnexpiredOutRecords_iff.mp unexpired
    obtain ⟨lastOutgoing,last⟩ : ∃ lastOutgoing, getLastOutgoing found = some lastOutgoing := by
      unfold getLastOutgoing
      cases records : found.outRecords with
      | nil => simp [PitEntry.hasUnexpiredOutRecords,records] at unexpired
      | cons first rest => exact ⟨_,rfl⟩
    have tells : forwarder.now - lastOutgoing < suppressionInterval.getD defaultInitialInterval * 1000 ↔
        Suppressed forwarder found suppressionInterval := lastOutgoing_suppressed last suppressionInterval
    simp only [Bool.not_true,Bool.false_eq_true,if_false,last,Option.map_some]
    by_cases within : forwarder.now - lastOutgoing < suppressionInterval.getD defaultInitialInterval * 1000
    · rw [if_pos within]
      exact ⟨_,_,rfl,Or.inr (Or.inl ⟨old,rfl,tells.mp within⟩)⟩
    · rw [if_neg within]
      exact ⟨_,_,rfl,Or.inr (Or.inr ⟨old,rfl,fun suppressed => within (tells.mpr suppressed)⟩)⟩

/-- In the order of costs the first next hop that is accepted is a cheapest one. -/
theorem cheapest_of_find? (sorted : nexthops.Pairwise fun first second => first.cost ≤ second.cost)
    {accepts : NextHop Face → Bool} {qualifies : NextHop Face → Prop} (means : ∀ nexthop, accepts nexthop = true ↔ qualifies nexthop)
    {nexthop : NextHop Face} (first : nexthops.find? accepts = some nexthop) : Cheapest nexthops qualifies nexthop := by
  refine ⟨List.mem_of_find?_eq_some first,(means nexthop).mp (List.find?_some first),?_⟩
  induction nexthops with
  | nil => cases first
  | cons head rest ih =>
    obtain ⟨least,sorted⟩ := List.pairwise_cons.mp sorted
    intro other member qualified
    cases accepted : accepts head with
    | true =>
      rw [List.find?_cons_of_pos accepted] at first
      cases first
      rcases List.mem_cons.mp member with rfl | later
      · exact Nat.le_refl _
      · exact least other later
    | false =>
      rw [List.find?_cons_of_neg (by simp [accepted])] at first
      rcases List.mem_cons.mp member with rfl | later
      · rw [(means _).mpr qualified] at accepted
        cases accepted
      · exact ih sorted first other later qualified

/-- The next hop found so far is eligible, and none of those that were met was renewed earlier. -/
def FoundEarliest (forwarder : Forwarder) (found : PitEntry) (inFace : Face) (met : List (NextHop Face)) :
    Option (NextHop Face × Time) → Prop
  | none => ∀ other ∈ met, ¬ Eligible forwarder found inFace other
  | some (nexthop,renewed) => RenewedEarliest forwarder found inFace met nexthop ∧
    ∃ outRecord, found.getOutRecord nexthop.face = some outRecord ∧ outRecord.lastRenewed = renewed

theorem FoundEarliest.skip {met : List (NextHop Face)} {before : Option (NextHop Face × Time)} {nexthop : NextHop Face}
    (earliest : FoundEarliest forwarder found inFace met before)
    (behind : Eligible forwarder found inFace nexthop → ∃ outRecord,
      found.getOutRecord nexthop.face = some outRecord ∧ ∃ best ∈ before, best.2 ≤ outRecord.lastRenewed) :
    FoundEarliest forwarder found inFace (met ++ [nexthop]) before := by
  cases before with
  | none =>
    intro other member eligible
    rcases List.mem_append.mp member with earlier | last
    · exact earliest other earlier eligible
    · obtain rfl := List.mem_singleton.mp last
      obtain ⟨-,-,best,impossible,-⟩ := behind eligible
      cases impossible
  | some best =>
    obtain ⟨⟨member,eligible,outRecord,record,least⟩,renewed⟩ := earliest
    refine ⟨⟨List.mem_append_left _ member,eligible,outRecord,record,?_⟩,renewed⟩
    obtain ⟨sameRecord,same,time⟩ := renewed
    obtain rfl := Option.some.inj (same.symm.trans record)
    intro other member eligible
    rcases List.mem_append.mp member with earlier | last
    · exact least other earlier eligible
    · obtain rfl := List.mem_singleton.mp last
      obtain ⟨otherRecord,present,_,there,later⟩ := behind eligible
      rw [← Option.some.inj there,← time] at later
      exact ⟨otherRecord,present,later⟩

theorem FoundEarliest.take {met : List (NextHop Face)} {before : Option (NextHop Face × Time)} {nexthop : NextHop Face}
    (earliest : FoundEarliest forwarder found inFace met before) (eligible : Eligible forwarder found inFace nexthop)
    {outRecord : OutRecord} (record : found.getOutRecord nexthop.face = some outRecord)
    (ahead : ∀ best ∈ before, outRecord.lastRenewed < best.2) :
    FoundEarliest forwarder found inFace (met ++ [nexthop]) (some (nexthop,outRecord.lastRenewed)) := by
  refine ⟨⟨List.mem_append_right _ (List.mem_singleton_self _),eligible,outRecord,record,?_⟩,outRecord,record,rfl⟩
  intro other member otherEligible
  rcases List.mem_append.mp member with earlier | last
  · cases before with
    | none => exact absurd otherEligible (earliest other earlier)
    | some best =>
      obtain ⟨⟨-,-,bestRecord,present,least⟩,sameRecord,same,time⟩ := earliest
      obtain rfl := Option.some.inj (same.symm.trans present)
      obtain ⟨otherRecord,there,later⟩ := least other earlier otherEligible
      refine ⟨otherRecord,there,(Int.le_of_lt ?_).trans later⟩
      rw [time]
      exact ahead best rfl
  · obtain rfl := List.mem_singleton.mp last
    exact ⟨outRecord,record,Int.le_refl _⟩

private theorem earlier_found {met : List (NextHop Face)} {before : Option (NextHop Face × Time)} {nexthop : NextHop Face}
    (earliest : FoundEarliest forwarder found inFace met before)
    (recorded : Eligible forwarder found inFace nexthop → ∃ outRecord, found.getOutRecord nexthop.face = some outRecord) :
    ∃ after, earlier forwarder found (getId forwarder inFace) before nexthop = some after ∧
      FoundEarliest forwarder found inFace (met ++ [nexthop]) after := by
  have means : predicateNextHopEligible forwarder found (getId forwarder inFace) false nexthop = true ↔
      Eligible forwarder found inFace nexthop ∧ (false = true → Unused forwarder found nexthop) :=
    predicateNextHopEligible_iff
  unfold earlier
  cases accepted : predicateNextHopEligible forwarder found (getId forwarder inFace) false nexthop with
  | false =>
    refine ⟨before,rfl,earliest.skip ?_⟩
    intro eligible
    rw [means.mpr ⟨eligible,nofun⟩] at accepted
    cases accepted
  | true =>
    have eligible := (means.mp accepted).1
    obtain ⟨outRecord,record⟩ := recorded eligible
    rw [record]
    cases ahead : before.all fun earliest => outRecord.lastRenewed < earliest.2 with
    | true =>
      refine ⟨some (nexthop,outRecord.lastRenewed),by simp [ahead],earliest.take eligible record ?_⟩
      intro best there
      rw [there] at ahead
      exact of_decide_eq_true ahead
    | false =>
      refine ⟨before,by simp [ahead],earliest.skip fun _ => ⟨outRecord,record,?_⟩⟩
      cases before with
      | none => cases ahead
      | some best => exact ⟨best,rfl,by simpa using ahead⟩

/-- If all eligible next hops have an out-record the assertion holds, and one that was renewed
earliest is found. -/
theorem findEligibleNextHopWithEarliestOutRecord_found
    (recorded : ∀ nexthop ∈ nexthops, Eligible forwarder found inFace nexthop →
      ∃ outRecord, found.getOutRecord nexthop.face = some outRecord) :
    ∃ best, findEligibleNextHopWithEarliestOutRecord forwarder found nexthops (getId forwarder inFace) = some best ∧
      match best with
      | none => ∀ nexthop ∈ nexthops, ¬ Eligible forwarder found inFace nexthop
      | some nexthop => RenewedEarliest forwarder found inFace nexthops nexthop := by
  suffices loop : ∀ rest met before, met ++ rest = nexthops → FoundEarliest forwarder found inFace met before →
      ∃ after, rest.foldlM (earlier forwarder found (getId forwarder inFace)) before = some after ∧
        FoundEarliest forwarder found inFace nexthops after by
    obtain ⟨after,done,earliest⟩ := loop nexthops [] none rfl nofun
    unfold findEligibleNextHopWithEarliestOutRecord
    rw [done]
    refine ⟨_,rfl,?_⟩
    cases after with
    | none => exact earliest
    | some best => exact earliest.1
  intro rest
  induction rest with
  | nil =>
    intro met before split earliest
    rw [List.append_nil] at split
    rw [← split]
    exact ⟨before,rfl,earliest⟩
  | cons nexthop rest ih =>
    intro met before split earliest
    have member : nexthop ∈ nexthops := by simp [← split]
    obtain ⟨middle,step,further⟩ := earlier_found earliest (recorded nexthop member)
    rw [List.foldlM_cons,step]
    exact ih (met ++ [nexthop]) middle (by simpa using split) further

/-- What is sent to an eligible next hop leaves on another face and within scope. -/
theorem Eligible.upstream {nexthop : NextHop Face} (eligible : Eligible forwarder found inFace nexthop)
    (member : nexthop ∈ nexthops) {entry place : Nat} {outFace : Face} {nonce : Option UInt32}
    (sent : StrategyAction.sendInterest place outFace nonce ∈ [StrategyAction.sendInterest entry nexthop.face none]) :
    place = entry ∧ outFace ≠ inFace ∧ found.violatesScope outFace = false ∧
      ∃ nexthop ∈ nexthops, nexthop.face = outFace ∧ Eligible forwarder found inFace nexthop := by
  simp only [List.mem_singleton,StrategyAction.sendInterest.injEq] at sent
  obtain ⟨rfl,rfl,-⟩ := sent
  exact ⟨rfl,eligible.apart,eligible.2,nexthop,member,rfl,eligible⟩

private theorem selects_new (sorted : nexthops.Pairwise fun first second => first.cost ≤ second.cost) {entry : Nat}
    {suppressionInterval : Option Int} (new : IsNew forwarder found) {actions : List StrategyAction}
    (done : actions = match nexthops.find? (predicateNextHopEligible forwarder found (getId forwarder inFace) false) with
      | none => [.rejectPendingInterest entry]
      | some nexthop => [.sendInterest entry nexthop.face none]) :
    Selects forwarder found inFace nexthops entry suppressionInterval actions := by
  have means : ∀ nexthop, predicateNextHopEligible forwarder found (getId forwarder inFace) false nexthop = true ↔
      Eligible forwarder found inFace nexthop := fun nexthop => by
    rw [predicateNextHopEligible_iff]
    simp
  cases first : nexthops.find? (predicateNextHopEligible forwarder found (getId forwarder inFace) false) with
  | none =>
    rw [first] at done
    subst done
    have nobody : ∀ nexthop ∈ nexthops, ¬ Eligible forwarder found inFace nexthop := by
      intro nexthop member eligible
      exact List.find?_eq_none.mp first nexthop member ((means nexthop).mpr eligible)
    refine ⟨by simp,by simp,?_,?_,fun old => absurd new old,fun old => absurd new old,fun old => absurd new old⟩
    · intro place
      simpa using fun _ => ⟨new,nobody⟩
    · intro _ some
      obtain ⟨nexthop,member,eligible⟩ := some
      exact absurd eligible (nobody nexthop member)
  | some nexthop =>
    rw [first] at done
    subst done
    have cheapest := cheapest_of_find? sorted means first
    have ⟨member,eligible,_⟩ := cheapest
    refine ⟨by simp,fun _ _ _ => eligible.upstream member,?_,fun _ _ => ⟨nexthop,cheapest,rfl⟩,
      fun old => absurd new old,fun old => absurd new old,fun old => absurd new old⟩
    intro place
    simpa using fun _ _ => ⟨nexthop,member,eligible⟩

private theorem selects_retransmission {entry : Nat} {suppressionInterval : Option Int} (old : ¬ IsNew forwarder found)
    {chosen : Option (NextHop Face)} {actions : List StrategyAction}
    (done : actions = match chosen with
      | none => []
      | some nexthop => [.sendInterest entry nexthop.face none])
    (eligible : ∀ nexthop, chosen = some nexthop → nexthop ∈ nexthops ∧ Eligible forwarder found inFace nexthop)
    (suppressed : Suppressed forwarder found suppressionInterval → chosen = none)
    (unused : ¬ Suppressed forwarder found suppressionInterval →
      (∃ nexthop ∈ nexthops, Eligible forwarder found inFace nexthop ∧ Unused forwarder found nexthop) →
      ∃ nexthop, chosen = some nexthop ∧ Cheapest nexthops
        (fun nexthop => Eligible forwarder found inFace nexthop ∧ Unused forwarder found nexthop) nexthop)
    (retried : ¬ Suppressed forwarder found suppressionInterval →
      (∀ nexthop ∈ nexthops, Eligible forwarder found inFace nexthop → ¬ Unused forwarder found nexthop) →
      (∃ nexthop ∈ nexthops, Eligible forwarder found inFace nexthop) →
      ∃ nexthop, chosen = some nexthop ∧ RenewedEarliest forwarder found inFace nexthops nexthop) :
    Selects forwarder found inFace nexthops entry suppressionInterval actions := by
  cases chosen with
  | none =>
    subst done
    refine ⟨by simp,by simp,?_,fun new => absurd new old,fun _ _ => rfl,?_,?_⟩
    · intro place
      simpa using fun _ new => absurd new old
    · intro _ forwarded some
      obtain ⟨_,impossible,-⟩ := unused forwarded some
      cases impossible
    · intro _ forwarded used some
      obtain ⟨_,impossible,-⟩ := retried forwarded used some
      cases impossible
  | some nexthop =>
    subst done
    obtain ⟨member,qualified⟩ := eligible nexthop rfl
    refine ⟨by simp,fun _ _ _ => qualified.upstream member,?_,fun new => absurd new old,?_,?_,?_⟩
    · intro place
      simpa using fun _ new => absurd new old
    · intro _ within
      cases suppressed within
    · intro _ forwarded some
      obtain ⟨_,same,cheapest⟩ := unused forwarded some
      cases same
      exact ⟨nexthop,cheapest,rfl⟩
    · intro _ forwarded used some
      obtain ⟨_,same,earliest⟩ := retried forwarded used some
      cases same
      exact ⟨nexthop,earliest,rfl⟩

/-- A next hop with an unexpired out-record has an out-record. -/
theorem recorded_of_used {nexthop : NextHop Face} (used : ¬ Unused forwarder found nexthop) :
    ∃ outRecord, found.getOutRecord nexthop.face = some outRecord := by
  by_contra missing
  apply used
  intro outRecord present
  exact absurd ⟨outRecord,present⟩ missing

end

private theorem act_outputs {forwarder after : Forwarder} {action : StrategyAction} (done : forwarder.act action = some after) :
    after.outputs = forwarder.outputs ∨ ∃ entry outFace nonce interest found,
      action = .sendInterest entry outFace nonce ∧
        after.outputs = forwarder.outputs ++ [.interest outFace interest entry found] := by
  cases action with
  | sendInterest entry outFace nonce =>
    have done : forwarder.onOutgoingInterest entry outFace nonce = some after := done
    unfold Forwarder.onOutgoingInterest at done
    split at done
    · cases done
      exact Or.inl rfl
    · obtain ⟨found,-,done⟩ := Option.bind_eq_some_iff.mp done
      split at done
      · cases done
        exact Or.inl rfl
      · obtain ⟨picked,-,same⟩ := Option.bind_eq_some_iff.mp done
        cases same
        exact Or.inr ⟨entry,outFace,nonce,_,found,rfl,rfl⟩
  | rejectPendingInterest entry =>
    have done : forwarder.onInterestReject entry = some after := done
    unfold Forwarder.onInterestReject at done
    obtain ⟨found,-,done⟩ := Option.bind_eq_some_iff.mp done
    split at done
    · cases done
      exact Or.inl rfl
    · cases done
      exact Or.inl rfl

/-- At most one Interest is sent, to another face and within scope. -/
def SendsOnce (forwarder : Forwarder) (found : PitEntry) (inFace : Face) (actions : List StrategyAction) : Prop :=
  ∀ after, actions.foldlM Forwarder.act forwarder = some after → ∃ sent, after.outputs = forwarder.outputs ++ sent ∧
    sent.length ≤ 1 ∧ ∀ output ∈ sent, ∃ outFace interest entry entryThen, output = .interest outFace interest entry entryThen ∧
      outFace ≠ inFace ∧ found.violatesScope outFace = false

theorem Selects.sendsOnce {forwarder : Forwarder} {found : PitEntry} {inFace : Face} {nexthops : List (NextHop Face)}
    {entry : Nat} {suppressionInterval : Option Int} {actions : List StrategyAction}
    (selects : Selects forwarder found inFace nexthops entry suppressionInterval actions) :
    SendsOnce forwarder found inFace actions := by
  intro after done
  cases actions with
  | nil =>
    obtain rfl := Option.some.inj done
    exact ⟨[],(List.append_nil _).symm,Nat.zero_le 1,fun _ member => absurd member List.not_mem_nil⟩
  | cons action rest =>
    have alone := selects.single
    obtain rfl : rest = [] := by simpa using alone
    rw [List.foldlM_cons] at done
    obtain ⟨middle,acted,same⟩ := Option.bind_eq_some_iff.mp done
    obtain rfl : middle = after := Option.some.inj same
    rcases act_outputs acted with nothing | ⟨place,outFace,nonce,interest,entryThen,rfl,sent⟩
    · exact ⟨[],by rw [nothing,List.append_nil],Nat.zero_le 1,fun _ member => absurd member List.not_mem_nil⟩
    · obtain ⟨-,apart,scope,-⟩ := selects.upstream place outFace nonce (List.mem_singleton_self _)
      refine ⟨_,sent,Nat.le_refl 1,?_⟩
      intro output member
      exact ⟨outFace,interest,place,entryThen,List.mem_singleton.mp member,apart,scope⟩

private theorem exists_selects (forwarder : Forwarder) (entry : Nat) (found : PitEntry) (inFace : Face)
    {nexthops : List (NextHop Face)} (sorted : nexthops.Pairwise fun first second => first.cost ≤ second.cost)
    (suppressionInterval : Option Int) :
    ∃ actions after, afterReceiveInterest forwarder entry found inFace nexthops suppressionInterval = some (actions,after) ∧
      Selects forwarder found inFace nexthops entry suppressionInterval actions := by
  obtain ⟨result,after,decided,cases⟩ := decide_cases forwarder found suppressionInterval
  unfold afterReceiveInterest
  rw [decided]
  rcases cases with ⟨rfl,new⟩ | ⟨old,rfl,suppressed⟩ | ⟨old,rfl,forwarded⟩
  · refine ⟨_,after,?_,selects_new sorted new rfl⟩
    cases nexthops.find? (predicateNextHopEligible forwarder found (getId forwarder inFace) false) <;> rfl
  · have nothing : ∀ nexthop, none = some nexthop → nexthop ∈ nexthops ∧ Eligible forwarder found inFace nexthop :=
      nofun
    exact ⟨[],after,rfl,selects_retransmission old (by rfl) nothing (fun _ => rfl)
      (fun forwarded => absurd suppressed forwarded) (fun forwarded => absurd suppressed forwarded)⟩
  · have means : ∀ nexthop, predicateNextHopEligible forwarder found (getId forwarder inFace) true nexthop = true ↔
        Eligible forwarder found inFace nexthop ∧ Unused forwarder found nexthop := fun nexthop => by
      rw [predicateNextHopEligible_iff]
      simp
    dsimp only [Option.bind_eq_bind,Option.bind_some]
    cases first : nexthops.find? (predicateNextHopEligible forwarder found (getId forwarder inFace) true) with
    | some nexthop =>
      have cheapest := cheapest_of_find? sorted means first
      have ⟨member,⟨eligible,unused⟩,_⟩ := cheapest
      have chosen : ∀ other, some nexthop = some other → other ∈ nexthops ∧ Eligible forwarder found inFace other := by
        intro _ there
        cases there
        exact ⟨member,eligible⟩
      refine ⟨_,after,rfl,selects_retransmission old (by rfl) chosen
        (fun within => absurd within forwarded) (fun _ _ => ⟨nexthop,rfl,cheapest⟩) ?_⟩
      · intro _ used
        exact absurd unused (used nexthop member eligible)
    | none =>
      have used : ∀ nexthop ∈ nexthops, Eligible forwarder found inFace nexthop → ¬ Unused forwarder found nexthop := by
        intro nexthop member eligible unused
        exact List.find?_eq_none.mp first nexthop member ((means nexthop).mpr ⟨eligible,unused⟩)
      -- all eligible next hops were tried, so each of them has an out-record
      obtain ⟨best,done,earliest⟩ := findEligibleNextHopWithEarliestOutRecord_found
        fun nexthop (member : nexthop ∈ nexthops) eligible => recorded_of_used (used nexthop member eligible)
      rw [done]
      have chosen : ∀ nexthop, best = some nexthop → nexthop ∈ nexthops ∧ Eligible forwarder found inFace nexthop := by
        intro nexthop there
        rw [there] at earliest
        exact ⟨earliest.1,earliest.2.1⟩
      refine ⟨_,after,?_,selects_retransmission old rfl chosen (fun within => absurd within forwarded) ?_ ?_⟩
      · cases best <;> rfl
      · intro _ some
        obtain ⟨nexthop,member,eligible,unused⟩ := some
        exact absurd unused (used nexthop member eligible)
      · intro _ _ some
        obtain ⟨nexthop,member,eligible⟩ := some
        cases best with
        | none => exact absurd eligible (earliest nexthop member)
        | some best => exact ⟨best,rfl,earliest⟩

/-- The strategy does what it is for with every PIT entry and every incoming Interest, and no
assertion fails. -/
theorem afterReceiveInterest_selects (forwarder : Forwarder) (entry : Nat) (found : PitEntry) (inFace : Face)
    (nexthops : List (NextHop Face)) (sorted : nexthops.Pairwise fun first second => first.cost ≤ second.cost)
    (suppressionInterval : Option Int) :
    ∃ actions after, afterReceiveInterest forwarder entry found inFace nexthops suppressionInterval = some (actions,after) ∧
      Selects forwarder found inFace nexthops entry suppressionInterval actions ∧
      SendsOnce forwarder found inFace actions := by
  obtain ⟨actions,after,done,selects⟩ := exists_selects forwarder entry found inFace sorted suppressionInterval
  exact ⟨actions,after,done,selects,selects.sendsOnce⟩

/-- Two next hops that were both tried, the cheaper one last. -/
theorem afterReceiveInterest_selects_bothTried :
    ∃ actions after, afterReceiveInterest {Forwarder.new with now := 10^9, faceTable := [⟨1,true⟩,⟨2,true⟩,⟨3,true⟩]} 0
        ⟨⟨[[0x41]],.none,7,4000⟩,[],[⟨⟨2,true⟩,5,3,4 * 10^9⟩,⟨⟨3,true⟩,6,2,4 * 10^9⟩],none,none,true⟩ ⟨1,true⟩
        [⟨⟨2,true⟩,10⟩,⟨⟨3,true⟩,20⟩] none = some (actions,after) ∧
      Selects {Forwarder.new with now := 10^9, faceTable := [⟨1,true⟩,⟨2,true⟩,⟨3,true⟩]}
        ⟨⟨[[0x41]],.none,7,4000⟩,[],[⟨⟨2,true⟩,5,3,4 * 10^9⟩,⟨⟨3,true⟩,6,2,4 * 10^9⟩],none,none,true⟩ ⟨1,true⟩
        [⟨⟨2,true⟩,10⟩,⟨⟨3,true⟩,20⟩] 0 none actions ∧
      SendsOnce {Forwarder.new with now := 10^9, faceTable := [⟨1,true⟩,⟨2,true⟩,⟨3,true⟩]}
        ⟨⟨[[0x41]],.none,7,4000⟩,[],[⟨⟨2,true⟩,5,3,4 * 10^9⟩,⟨⟨3,true⟩,6,2,4 * 10^9⟩],none,none,true⟩ ⟨1,true⟩ actions :=
  afterReceiveInterest_selects _ 0 _ _ _ (by simp) none

/-- The one whose out-record is older gets the retransmission, and the interval is doubled. -/
example : afterReceiveInterest {Forwarder.new with now := 10^9, faceTable := [⟨1,true⟩,⟨2,true⟩,⟨3,true⟩]} 0
    ⟨⟨[[0x41]],.none,7,4000⟩,[],[⟨⟨2,true⟩,5,3,4 * 10^9⟩,⟨⟨3,true⟩,6,2,4 * 10^9⟩],none,none,true⟩ ⟨1,true⟩
    [⟨⟨2,true⟩,10⟩,⟨⟨3,true⟩,20⟩] none = some ([.sendInterest 0 ⟨3,true⟩ none],some 2000) := by decide

end BestRouteStrategy2

end Ncfcc.Nfd.Fw
