import Ncfcc.Nfd.Rib.FibCommands

/-! Commands that time out and are sent again: when the next hops are those of a batch without
timeouts. -/
namespace Ncfcc.Nfd.FibUpdater
open Library

namespace Updater

def answered (state : Updater × List Callback) (answer : Nat × Answer) : Option (Updater × List Callback) :=
  (state.1.reply answer.1 answer.2).map fun result => (result.1,state.2 ++ result.2.toList)

def sendBatch (updater : Updater) (item : UpdateQueueItem) (batchFaceId : Nat) (emissions : List Emission)
    (removesFace : Bool) : Updater × List Callback :=
  let sent := (updater.computeUpdates batchFaceId emissions removesFace).sendUpdatesForBatchFaceId item
  (sent.1,sent.2.toList)

def timesOutRemoval (updater : Updater) (answer : Nat × Answer) : Bool :=
  match updater.inFlight[answer.1]?,answer.2 with
  | some command,.timeout _ => command.update.cost.isNone
  | _,_ => false

/-- Each command in flight asks for what its update says: action, name, face and cost. -/
def SameRequests (updater : Updater) : Prop := ∀ command ∈ updater.inFlight, command.request = command.update

end Updater

private theorem addRequest_eq_iff {update : FibUpdate} : update.addRequest = update ↔ update.cost ≠ none := by
  obtain ⟨name,faceId,cost⟩ := update
  cases cost <;> simp [FibUpdate.addRequest]

def lastRequest (late : FibUpdate → Bool) (update : FibUpdate) : FibUpdate :=
  if late update then update.addRequest else update

structure Tracks (item : UpdateQueueItem) (batch : List FibUpdate) (before : NextHops) (late : FibUpdate → Bool)
    (updater : Updater) : Prop where
  matched : updater.Matched item
  subset : ∀ update ∈ updater.remaining, update ∈ batch
  requests : ∀ command ∈ updater.inFlight, command.request = lastRequest late command.update
  lateInside : ∀ update, late update = true → update ∈ batch
  waiting : updater.updatesForBatchFaceId ≠ [] → ∀ update ∈ updater.updatesForNonBatchFaceId, late update = false
  done : ∀ update ∈ batch, update ∉ updater.remaining →
    updater.fib update.name update.faceId = (lastRequest late update).cost
  away : ∀ name face, (∀ update ∈ batch, ¬(update.name = name ∧ update.faceId = face)) →
    updater.fib name face = before name face

section
variable {item : UpdateQueueItem} {batch : List FibUpdate} {before : NextHops} {late : FibUpdate → Bool}
  {updater : Updater} {command : Command} {index : Nat}

private theorem applied_same (fib : NextHops) (request : FibUpdate) :
    RibState.applyFibUpdate [] fib request request.name request.faceId = request.cost := by
  simp [RibState.applyFibUpdate]

private theorem applied_other (fib : NextHops) (request : FibUpdate) {name : Name} {face : Nat}
    (other : ¬(name = request.name ∧ face = request.faceId)) :
    RibState.applyFibUpdate [] fib request name face = fib name face := if_neg other

private theorem lastRequest_key (late : FibUpdate → Bool) (update : FibUpdate) :
    (lastRequest late update).name = update.name ∧ (lastRequest late update).faceId = update.faceId := by
  unfold lastRequest
  split
  · exact ⟨rfl,rfl⟩
  · exact ⟨rfl,rfl⟩

namespace Tracks

variable (tracks : Tracks item batch before late updater) (found : updater.inFlight[index]? = some command)
include tracks found

private theorem update_current : command.update ∈ updater.current :=
  tracks.matched.sent.subset (List.mem_map_of_mem (List.mem_of_getElem? found))

private theorem update_remaining : command.update ∈ updater.remaining := by
  have inside := tracks.update_current found
  unfold Updater.current at inside
  split at inside
  · exact List.mem_append_right _ inside
  · exact List.mem_append_left _ inside

theorem request : command.request = lastRequest late command.update :=
  tracks.requests command (List.mem_of_getElem? found)

/-- The next hops of updates that are settled stay when the command is carried out. -/
theorem carryOut_done (keyed : Updater.Keyed batch) {update : FibUpdate} (inside : update ∈ batch)
    (different : update ≠ command.update) :
    RibState.applyFibUpdate [] updater.fib command.request update.name update.faceId =
      updater.fib update.name update.faceId := by
  apply applied_other
  intro same
  rw [tracks.request found,(lastRequest_key late _).1,(lastRequest_key late _).2] at same
  exact different (keyed.eq inside (tracks.subset _ (tracks.update_remaining found)) same.1 same.2)

private theorem carryOut_away {name : Name} {face : Nat}
    (outside : ∀ update ∈ batch, ¬(update.name = name ∧ update.faceId = face)) :
    RibState.applyFibUpdate [] updater.fib command.request name face = before name face := by
  rw [applied_other,tracks.away name face outside]
  intro same
  rw [tracks.request found,(lastRequest_key late _).1,(lastRequest_key late _).2] at same
  exact outside _ (tracks.subset _ (tracks.update_remaining found)) ⟨same.1.symm,same.2.symm⟩

theorem success (keyed : Updater.Keyed batch) {after : Updater} {callback : Option Callback}
    (settled : Updater.Settled (Updater.carryOut {updater with inFlight := updater.inFlight.eraseIdx index} command)
      after item command callback) : Tracks item batch before late after := by
  have sorted := tracks.matched.sorted
  have left : ∀ update, update ∈ after.remaining ↔ update ∈ updater.remaining ∧ update ≠ command.update := by
    intro update
    rw [settled.remaining,List.mem_filter,decide_eq_true_iff]
    rfl
  have fib : after.fib = RibState.applyFibUpdate [] updater.fib command.request := settled.fib
  have face : after.batchFaceId = updater.batchFaceId := settled.batchFaceId
  constructor
  · exact settled.matched
  · intro update inside
    exact tracks.subset update ((left update).mp inside).1
  · intro other inside
    rcases settled.inFlight other inside with old | ⟨waits,update,there,rfl⟩
    · exact tracks.requests other (List.mem_of_mem_eraseIdx old)
    · unfold lastRequest
      rw [if_neg (by rw [tracks.waiting waits update there]; exact Bool.false_ne_true)]
  · exact tracks.lateInside
  · intro waits update inside
    obtain ⟨first,there⟩ := List.exists_mem_of_ne_nil _ waits
    apply tracks.waiting
    · intro empty
      have old := ((left first).mp (List.mem_append_left _ there)).1
      rw [Updater.remaining,empty,List.nil_append] at old
      exact sorted.othersFace first old ((settled.matched.sorted.batchFace first there).trans face)
    · have old := ((left update).mp (List.mem_append_right _ inside)).1
      rcases List.mem_append.mp old with same | other
      · exact absurd ((sorted.batchFace update same).trans face.symm) (settled.matched.sorted.othersFace update inside)
      · exact other
  · intro update inside gone
    rw [fib]
    by_cases here : update = command.update
    · rw [here,← tracks.request found]
      have key := lastRequest_key late command.update
      rw [← tracks.request found] at key
      rw [← key.1,← key.2]
      exact applied_same _ _
    · rw [tracks.carryOut_done found keyed inside here]
      apply tracks.done update inside
      intro remains
      exact gone ((left update).mpr ⟨remains,here⟩)
  · intro name face outside
    rw [fib]
    exact tracks.carryOut_away found outside

theorem timeout (keyed : Updater.Keyed batch) {after : Updater} {done : Bool} (matched : after.Matched item)
    (result : after = {(if done then Updater.carryOut {updater with inFlight := updater.inFlight.eraseIdx index} command
      else {updater with inFlight := updater.inFlight.eraseIdx index}) with
        inFlight := updater.inFlight.eraseIdx index ++
          [⟨item,command.update,command.update.addRequest,command.nTimeouts + 1⟩]}) :
    Tracks item batch before (fun update => late update || update == command.update) after := by
  have remains := tracks.update_remaining found
  have lists : after.updatesForBatchFaceId = updater.updatesForBatchFaceId ∧
      after.updatesForNonBatchFaceId = updater.updatesForNonBatchFaceId ∧
      (after.fib = updater.fib ∨ after.fib = RibState.applyFibUpdate [] updater.fib command.request) := by
    rw [result]
    cases done with
    | true => exact ⟨rfl,rfl,Or.inr rfl⟩
    | false => exact ⟨rfl,rfl,Or.inl rfl⟩
  have inFlight : after.inFlight = updater.inFlight.eraseIdx index ++
      [⟨item,command.update,command.update.addRequest,command.nTimeouts + 1⟩] := by rw [result]
  have left : after.remaining = updater.remaining := by
    unfold Updater.remaining
    rw [lists.1,lists.2.1]
  have others : ∀ update, update ≠ command.update →
      (late update || update == command.update) = late update := by
    intro update different
    simp [different]
  have kept : ∀ update, update ≠ command.update →
      lastRequest (fun update => late update || update == command.update) update = lastRequest late update := by
    intro update different
    simp only [lastRequest,others update different]
  have distinct : (command.update :: (updater.inFlight.eraseIdx index).map Command.update).Nodup := by
    apply (tracks.matched.answering found).sent.nodup_iff.mpr
    unfold Updater.current
    split
    · exact tracks.matched.sorted.othersDistinct
    · exact tracks.matched.sorted.batchDistinct
  constructor
  · exact matched
  · rw [left]
    exact tracks.subset
  · intro other inside
    rw [inFlight] at inside
    rcases List.mem_append.mp inside with old | new
    · have different : other.update ≠ command.update := by
        intro same
        exact (List.nodup_cons.mp distinct).1 (same ▸ List.mem_map_of_mem old)
      rw [kept _ different]
      exact tracks.requests other (List.mem_of_mem_eraseIdx old)
    · rw [List.mem_singleton.mp new]
      unfold lastRequest
      rw [if_pos (by simp)]
  · intro update either
    rcases Bool.or_eq_true_iff.mp either with old | new
    · exact tracks.lateInside update old
    · rw [eq_of_beq new]
      exact tracks.subset _ remains
  · rw [lists.1,lists.2.1]
    intro waits update inside
    have different : update ≠ command.update := by
      intro same
      have here := tracks.update_current found
      rw [Updater.current,if_neg waits] at here
      exact tracks.matched.sorted.othersFace update inside (same ▸ tracks.matched.sorted.batchFace _ here)
    rw [others update different]
    exact tracks.waiting waits update inside
  · rw [left]
    intro update inside gone
    have different : update ≠ command.update := fun same => gone (same ▸ remains)
    rw [kept update different]
    have settled := tracks.done update inside gone
    rcases lists.2.2 with same | applied
    · rw [same]
      exact settled
    · rw [applied,tracks.carryOut_done found keyed inside different]
      exact settled
  · intro name face outside
    rcases lists.2.2 with same | applied
    · rw [same]
      exact tracks.away name face outside
    · rw [applied]
      exact tracks.carryOut_away found outside

end Tracks

def reported (item : UpdateQueueItem) (updater : Updater) : List Callback :=
  if updater.remaining = [] then [.onSuccess item updater.inheritedRoutes] else []

private theorem answered_tracks (keyed : Updater.Keyed batch) (tracks : Tracks item batch before late updater)
    {answer : Nat × Answer} (timely : answer.2 = .success ∨ ∃ done, answer.2 = .timeout done)
    {after : Updater × List Callback}
    (answers : Updater.answered (updater,reported item updater) answer = some after) :
    ∃ later, Tracks item batch before later after.1 ∧ after.2 = reported item after.1 ∧
      ((∀ update, later update = true → update.cost ≠ none) ↔
        (∀ update, late update = true → update.cost ≠ none) ∧ updater.timesOutRemoval answer = false) ∧
      (answer.2 = .success → later = late) := by
  obtain ⟨index,kind⟩ := answer
  obtain ⟨result,replied,rfl⟩ := Option.map_eq_some_iff.mp answers
  obtain ⟨after,callback⟩ := result
  dsimp only at replied timely ⊢
  cases found : updater.inFlight[index]? with
  | none =>
    have same : (updater,none) = (after,callback) := by
      unfold Updater.reply at replied
      rw [found] at replied
      exact Option.some.inj replied
    obtain ⟨rfl,rfl⟩ := Prod.mk.inj same
    refine ⟨late,tracks,by simp,?_,fun _ => rfl⟩
    simp [Updater.timesOutRemoval,found]
  | some command =>
    have remains := tracks.update_remaining found
    have nothing : reported item updater = [] := if_neg fun empty => by
      rw [empty] at remains
      cases remains
    rw [nothing,List.nil_append]
    cases tracks.matched.replied found replied with
    | success settled =>
      refine ⟨late,tracks.success found keyed settled,?_,?_,fun _ => rfl⟩
      · unfold reported
        rw [settled.callback,settled.inheritedRoutes]
        split
        · rfl
        · rfl
      · simp [Updater.timesOutRemoval,found]
    | timeout done matched same =>
      have later := tracks.timeout found keyed matched same
      refine ⟨_,later,?_,?_,?_⟩
      · have kept : after.remaining = updater.remaining := by
          rw [same]
          cases done with
          | true => rfl
          | false => rfl
        unfold reported
        rw [kept,if_neg fun empty => by
          rw [empty] at remains
          cases remains]
        rfl
      · have removal : updater.timesOutRemoval (index,.timeout done) = command.update.cost.isNone := by
          simp [Updater.timesOutRemoval,found]
        rw [removal,Option.isNone_eq_false_iff]
        constructor
        · intro all
          refine ⟨fun update old => all update (by simp [old]),?_⟩
          exact Option.isSome_iff_ne_none.mpr (all command.update (by simp))
        · intro ⟨old,new⟩ update either
          rcases Bool.or_eq_true_iff.mp either with early | here
          · exact old update early
          · rw [eq_of_beq here]
            exact Option.isSome_iff_ne_none.mp new
      · intro success
        cases success
    | otherFace elsewhere settled =>
      rcases timely with success | ⟨done,timeout⟩
      · cases success
      · cases timeout
    | batchFace here =>
      rcases timely with success | ⟨done,timeout⟩
      · cases success
      · cases timeout

private theorem run_tracks (keyed : Updater.Keyed batch) (tracks : Tracks item batch before late updater)
    {answers : List (Nat × Answer)} (timely : ∀ answer ∈ answers, answer.2 = .success ∨ ∃ done, answer.2 = .timeout done)
    {final : Updater × List Callback}
    (ends : run (attempt Updater.answered) (some (updater,reported item updater)) answers = some final) :
    ∃ later, Tracks item batch before later final.1 ∧ final.2 = reported item final.1 ∧
      ((∀ update, later update = true → update.cost ≠ none) ↔
        (∀ update, late update = true → update.cost ≠ none) ∧
          Steps (attempt Updater.answered) (fun state answer =>
            ∀ current, state = some current → current.1.timesOutRemoval answer = false)
            (some (updater,reported item updater)) answers) ∧
      ((∀ answer ∈ answers, answer.2 = .success) → later = late) := by
  induction answers generalizing updater late with
  | nil =>
    rw [← Option.some.inj ends]
    refine ⟨late,tracks,rfl,?_,fun _ => rfl⟩
    exact ⟨fun all => ⟨all,steps_nil⟩,fun both => both.1⟩
  | cons answer answers ih =>
    rw [run_cons] at ends
    cases next : Updater.answered (updater,reported item updater) answer with
    | none =>
      rw [show attempt Updater.answered (some (updater,reported item updater)) answer = none from next,
        run_attempt_none] at ends
      cases ends
    | some after =>
      obtain ⟨later,tracked,report,removals,unchanged⟩ :=
        answered_tracks keyed tracks (timely answer List.mem_cons_self) next
      have here : after = (after.1,reported item after.1) := by rw [← report]
      have stepped : attempt Updater.answered (some (updater,reported item updater)) answer =
          some (after.1,reported item after.1) := next.trans (congrArg some here)
      rw [stepped] at ends
      obtain ⟨last,final_tracked,final_report,final_removals,final_unchanged⟩ :=
        ih tracked (fun other inside => timely other (List.mem_cons_of_mem _ inside)) ends
      refine ⟨last,final_tracked,final_report,?_,?_⟩
      · rw [final_removals,removals,steps_cons,stepped,and_assoc]
        simp
      · intro successes
        rw [final_unchanged fun other inside => successes other (List.mem_cons_of_mem _ inside),
          unchanged (successes answer List.mem_cons_self)]

private theorem sendBatch_tracks {updater : Updater} (quiet : updater.inFlight = []) (item : UpdateQueueItem) (batchFaceId : Nat)
    (emissions : List Emission) (removesFace : Bool) :
    Tracks item (updater.computeUpdates batchFaceId emissions removesFace).remaining updater.fib (fun _ => false)
        (updater.sendBatch item batchFaceId emissions removesFace).1 ∧
      (updater.sendBatch item batchFaceId emissions removesFace).2 =
        reported item (updater.sendBatch item batchFaceId emissions removesFace).1 := by
  obtain ⟨sorted,-⟩ := Updater.computeUpdates_sorted updater batchFaceId emissions removesFace
  have fib : (updater.computeUpdates batchFaceId emissions removesFace).fib = updater.fib := rfl
  unfold Updater.sendBatch
  rw [Updater.sendUpdatesForBatchFaceId_spec (updater.computeUpdates batchFaceId emissions removesFace) item quiet]
  generalize updater.computeUpdates batchFaceId emissions removesFace = computed at sorted fib
  dsimp only
  constructor
  · constructor
    · exact Updater.matched_sent item sorted rfl rfl
    · exact fun update inside => inside
    · intro command inside
      obtain ⟨update,-,rfl⟩ := List.mem_map.mp inside
      rfl
    · intro update late
      cases late
    · intro _ update _
      rfl
    · intro update inside gone
      exact absurd inside gone
    · intro name face _
      rw [← fib]
  · by_cases settled : computed.remaining = []
    · rw [if_pos settled]
      exact (if_pos settled).symm
    · rw [if_neg settled]
      exact (if_neg settled).symm

theorem Tracks.hops {final : Updater} (tracks : Tracks item batch before late final) (settled : final.remaining = [])
    (update : FibUpdate) (inside : update ∈ batch) :
    final.fib update.name update.faceId = (lastRequest late update).cost := by
  apply tracks.done update inside
  rw [settled]
  exact List.not_mem_nil

private theorem reported_success {item : UpdateQueueItem} {updater : Updater} {routes : List Emission}
    (report : [.onSuccess item routes] = reported item updater) : updater.remaining = [] := by
  by_contra remains
  unfold reported at report
  rw [if_neg remains] at report
  cases report

/-! The requests of the commands in flight. -/

private theorem sendUpdates_sameRequests {updater : Updater} (same : updater.SameRequests) (item : UpdateQueueItem)
    (updates : List FibUpdate) : (updater.sendUpdates item updates).SameRequests := by
  intro command inside
  rw [Updater.sendUpdates_eq] at inside
  rcases List.mem_append.mp inside with old | new
  · exact same command old
  · obtain ⟨update,-,rfl⟩ := List.mem_map.mp new
    rfl

private theorem sendUpdatesForNonBatchFaceId_sameRequests (updater : Updater) (same : updater.SameRequests)
    (item : UpdateQueueItem) : (updater.sendUpdatesForNonBatchFaceId item).1.SameRequests := by
  unfold Updater.sendUpdatesForNonBatchFaceId
  split
  · exact same
  · exact sendUpdates_sameRequests same item _

private theorem finishNonBatchUpdate_sameRequests {updater : Updater} (same : updater.SameRequests) (command : Command) :
    (updater.finishNonBatchUpdate command).1.SameRequests := by
  unfold Updater.finishNonBatchUpdate
  dsimp only
  split
  · exact same
  · exact same

private theorem onUpdateSuccess_sameRequests {updater : Updater} (same : updater.SameRequests) (command : Command) :
    (updater.onUpdateSuccess command).1.SameRequests := by
  unfold Updater.onUpdateSuccess
  split
  · dsimp only
    split
    · apply sendUpdatesForNonBatchFaceId_sameRequests
      exact same
    · exact same
  · exact finishNonBatchUpdate_sameRequests same command

private theorem onUpdateTimeout_sameRequests {updater after : Updater} (same : updater.SameRequests) {command : Command}
    {callback : Option Callback} (sent : updater.onUpdateTimeout command = some (after,callback)) :
    after.SameRequests ↔ command.update.cost.isNone = false := by
  unfold Updater.onUpdateTimeout at sent
  split at sent
  · obtain ⟨rfl,-⟩ := Prod.mk.inj (Option.some.inj sent)
    rw [Option.isNone_eq_false_iff,Option.isSome_iff_ne_none,← addRequest_eq_iff]
    constructor
    · intro all
      exact all ⟨command.item,command.update,command.update.addRequest,command.nTimeouts + 1⟩ (by
        unfold Updater.sendAddNextHopUpdate
        exact List.mem_append_right _ List.mem_cons_self)
    · intro kept other inside
      rcases List.mem_append.mp inside with old | new
      · exact same other old
      · rw [List.mem_singleton.mp new]
        exact kept
  · cases sent

/-- An answer leaves the requests as the updates say unless a removal times out. -/
theorem answered_sameRequests {state after : Updater × List Callback} {answer : Nat × Answer}
    (same : state.1.SameRequests) (answers : Updater.answered state answer = some after) :
    after.1.SameRequests ↔ state.1.timesOutRemoval answer = false := by
  obtain ⟨index,kind⟩ := answer
  obtain ⟨⟨next,callback⟩,replied,rfl⟩ := Option.map_eq_some_iff.mp answers
  dsimp only at replied ⊢
  unfold Updater.reply at replied
  unfold Updater.timesOutRemoval
  cases found : state.1.inFlight[index]? with
  | none =>
    rw [found] at replied
    rw [← (Prod.mk.inj (Option.some.inj replied)).1]
    exact iff_of_true same rfl
  | some command =>
    rw [found] at replied
    dsimp only at replied ⊢
    have taken : Updater.SameRequests {state.1 with inFlight := state.1.inFlight.eraseIdx index} :=
      fun other inside => same other (List.mem_of_mem_eraseIdx inside)
    generalize {state.1 with inFlight := state.1.inFlight.eraseIdx index} = rest at taken replied
    cases kind with
    | success =>
      have kept := onUpdateSuccess_sameRequests (show (rest.carryOut command).SameRequests from taken) command
      rw [Option.some.inj replied] at kept
      exact iff_of_true kept rfl
    | timeout done =>
      cases done with
      | true => exact onUpdateTimeout_sameRequests (show (rest.carryOut command).SameRequests from taken) replied
      | false => exact onUpdateTimeout_sameRequests taken replied
    | faceNotFound =>
      have kept : (rest.onFaceNotFound command).1.SameRequests := by
        unfold Updater.onFaceNotFound
        split
        · exact taken
        · exact finishNonBatchUpdate_sameRequests taken command
      rw [Option.some.inj replied] at kept
      exact iff_of_true kept rfl
    | other => cases replied

/-- Along the answers to a batch, the commands in flight ask for what the updates say exactly
when no removal times out. -/
theorem sameRequests_along_iff {start final : Updater × List Callback} (same : start.1.SameRequests)
    {answers : List (Nat × Answer)} (ends : run (attempt Updater.answered) (some start) answers = some final) :
    Along (attempt Updater.answered) (fun state => ∀ current, state = some current → current.1.SameRequests)
        (some start) answers ↔
      Steps (attempt Updater.answered) (fun state answer => ∀ current, state = some current →
        current.1.timesOutRemoval answer = false) (some start) answers := by
  refine along_iff_steps ?_ ?_ (attempt_defined ends)
  · intro state answer good possible
    obtain ⟨after,stepped⟩ := Option.isSome_iff_exists.mp possible
    obtain ⟨current,rfl,answers⟩ := Option.bind_eq_some_iff.mp stepped
    have exact := answered_sameRequests (good current rfl) answers
    rw [stepped]
    constructor
    · intro holds other here
      cases here
      exact exact.mp (holds after rfl)
    · intro holds other here
      cases here
      exact exact.mpr (holds current rfl)
  · intro current here
    cases here
    exact same

/-- A batch whose commands time out and are sent again, against the same batch without timeouts: the
commands ask for the same exactly when no removal times out, and so are the next hops the same. -/
theorem retries_same_iff (updater : Updater) (quiet : updater.inFlight = []) (item : UpdateQueueItem) (batchFaceId : Nat)
    (emissions : List Emission) (removesFace : Bool) (answers successes : List (Nat × Answer))
    (timely : ∀ answer ∈ answers, answer.2 = .success ∨ ∃ done, answer.2 = .timeout done)
    (direct : ∀ answer ∈ successes, answer.2 = .success) (final reference : Updater) (routes : List Emission)
    (ends : run (attempt Updater.answered) (some (updater.sendBatch item batchFaceId emissions removesFace)) answers =
      some (final,[.onSuccess item routes]))
    (endsDirect : run (attempt Updater.answered) (some (updater.sendBatch item batchFaceId emissions removesFace))
      successes = some (reference,[.onSuccess item routes])) :
    (Along (attempt Updater.answered) (fun state => ∀ current, state = some current → current.1.SameRequests)
        (some (updater.sendBatch item batchFaceId emissions removesFace)) answers ↔
      Steps (attempt Updater.answered) (fun state answer => ∀ current, state = some current →
        current.1.timesOutRemoval answer = false)
        (some (updater.sendBatch item batchFaceId emissions removesFace)) answers) ∧
    (final.fib = reference.fib ↔
      Steps (attempt Updater.answered) (fun state answer => ∀ current, state = some current →
        current.1.timesOutRemoval answer = false)
        (some (updater.sendBatch item batchFaceId emissions removesFace)) answers) := by
  obtain ⟨tracks,report⟩ := sendBatch_tracks quiet item batchFaceId emissions removesFace
  obtain ⟨-,keyed⟩ := Updater.computeUpdates_sorted updater batchFaceId emissions removesFace
  refine ⟨sameRequests_along_iff tracks.requests ends,?_⟩
  have start : updater.sendBatch item batchFaceId emissions removesFace =
      ((updater.sendBatch item batchFaceId emissions removesFace).1,
        reported item (updater.sendBatch item batchFaceId emissions removesFace).1) := by rw [← report]
  rw [start] at ends endsDirect ⊢
  obtain ⟨late,tracked,report,removals,-⟩ := run_tracks keyed tracks timely ends
  obtain ⟨_,reference_tracked,reference_report,-,unchanged⟩ :=
    run_tracks keyed tracks (fun answer inside => Or.inl (direct answer inside)) endsDirect
  rw [unchanged direct] at reference_tracked
  have hops := tracked.hops (reported_success report)
  have reference_hops := reference_tracked.hops (reported_success reference_report)
  constructor
  · intro same
    refine (removals.mp ?_).2
    intro update timed_out
    have inside := tracked.lateInside update timed_out
    have equal := hops update inside
    rw [same,reference_hops update inside,lastRequest,lastRequest,if_pos timed_out,if_neg Bool.false_ne_true] at equal
    rw [equal]
    exact Option.some_ne_none _
  · intro steps
    have kept := removals.mpr ⟨fun _ never => (by cases never),steps⟩
    funext name face
    by_cases inside : ∃ update ∈ (updater.computeUpdates batchFaceId emissions removesFace).remaining,
        update.name = name ∧ update.faceId = face
    · obtain ⟨update,there,rfl,rfl⟩ := inside
      rw [hops update there,reference_hops update there,lastRequest,lastRequest,if_neg Bool.false_ne_true]
      split
      · rename_i timed_out
        rw [addRequest_eq_iff.mpr (kept update timed_out)]
      · rfl
    · have outside : ∀ update ∈ (updater.computeUpdates batchFaceId emissions removesFace).remaining,
          ¬(update.name = name ∧ update.faceId = face) := fun update there both => inside ⟨update,there,both⟩
      rw [tracked.away name face outside,reference_tracked.away name face outside]

def idleUpdater : Updater := ⟨0,[],[],[],[],fun _ face => if face = 1 then some 3 else none⟩

def aloneItem : UpdateQueueItem := ⟨0,.register [[97]] ⟨1,0,10,false,false⟩⟩

/-- A removal and an addition, of which the addition times out twice, once after it was carried out. -/
theorem late_addition_same :
    ∃ final reference, run (attempt Updater.answered) (some (idleUpdater.sendBatch aloneItem 1
        [.removeNextHop [[97]] 1,.addNextHop [[98]] 2 7] false))
        [(0,.success),(0,.timeout true),(0,.timeout false),(0,.success)] =
          some (final,[.onSuccess aloneItem [.removeNextHop [[97]] 1,.addNextHop [[98]] 2 7]]) ∧
      run (attempt Updater.answered) (some (idleUpdater.sendBatch aloneItem 1
        [.removeNextHop [[97]] 1,.addNextHop [[98]] 2 7] false)) [(0,.success),(0,.success)] =
          some (reference,[.onSuccess aloneItem [.removeNextHop [[97]] 1,.addNextHop [[98]] 2 7]]) ∧
      final.fib = reference.fib := by
  have late : (run (attempt Updater.answered) (some (idleUpdater.sendBatch aloneItem 1
      [.removeNextHop [[97]] 1,.addNextHop [[98]] 2 7] false))
      [(0,.success),(0,.timeout true),(0,.timeout false),(0,.success)]).map Prod.snd =
        some [.onSuccess aloneItem [.removeNextHop [[97]] 1,.addNextHop [[98]] 2 7]] := by decide +kernel
  have prompt : (run (attempt Updater.answered) (some (idleUpdater.sendBatch aloneItem 1
      [.removeNextHop [[97]] 1,.addNextHop [[98]] 2 7] false)) [(0,.success),(0,.success)]).map Prod.snd =
        some [.onSuccess aloneItem [.removeNextHop [[97]] 1,.addNextHop [[98]] 2 7]] := by decide +kernel
  obtain ⟨⟨final,_⟩,ends,rfl⟩ := Option.map_eq_some_iff.mp late
  obtain ⟨⟨reference,_⟩,endsDirect,rfl⟩ := Option.map_eq_some_iff.mp prompt
  refine ⟨final,reference,ends,endsDirect,?_⟩
  apply (retries_same_iff idleUpdater rfl aloneItem 1 _ false _ _ (by simp) (by simp) final reference _ ends
    endsDirect).2.mpr
  have decided : Steps (attempt Updater.answered) (fun state answer =>
      (state.all fun current => !current.1.timesOutRemoval answer) = true)
      (some (idleUpdater.sendBatch aloneItem 1 [.removeNextHop [[97]] 1,.addNextHop [[98]] 2 7] false))
      [(0,.success),(0,.timeout true),(0,.timeout false),(0,.success)] := by decide +kernel
  intro before answer inside current here
  have held := decided before answer inside
  rw [here] at held
  simpa using held

/-- A removal that times out is sent again as an addition, and the next hop stays. -/
theorem late_removal_adds :
    ¬∀ (updater : Updater) (_ : updater.inFlight = []) (item : UpdateQueueItem) (batchFaceId : Nat)
      (emissions : List Emission) (removesFace : Bool) (answers successes : List (Nat × Answer))
      (_ : ∀ answer ∈ answers, answer.2 = .success ∨ ∃ done, answer.2 = .timeout done)
      (_ : ∀ answer ∈ successes, answer.2 = .success) (final reference : Updater) (routes : List Emission)
      (_ : run (attempt Updater.answered) (some (updater.sendBatch item batchFaceId emissions removesFace)) answers =
        some (final,[.onSuccess item routes]))
      (_ : run (attempt Updater.answered) (some (updater.sendBatch item batchFaceId emissions removesFace))
        successes = some (reference,[.onSuccess item routes])),
      final.fib = reference.fib := by
  intro always
  have late : (run (attempt Updater.answered) (some (idleUpdater.sendBatch aloneItem 1 [.removeNextHop [[97]] 1] false))
      [(0,.timeout false),(0,.success)]).map (fun final => (final.2,final.1.fib [[97]] 1)) =
        some ([.onSuccess aloneItem [.removeNextHop [[97]] 1]],some 0) := by decide +kernel
  have prompt : (run (attempt Updater.answered)
      (some (idleUpdater.sendBatch aloneItem 1 [.removeNextHop [[97]] 1] false)) [(0,.success)]).map
        (fun final => (final.2,final.1.fib [[97]] 1)) =
        some ([.onSuccess aloneItem [.removeNextHop [[97]] 1]],none) := by decide +kernel
  obtain ⟨⟨final,_⟩,ends,same⟩ := Option.map_eq_some_iff.mp late
  obtain ⟨rfl,hop⟩ := Prod.mk.inj same
  obtain ⟨⟨reference,_⟩,endsDirect,same⟩ := Option.map_eq_some_iff.mp prompt
  obtain ⟨rfl,directHop⟩ := Prod.mk.inj same
  have equal := always idleUpdater rfl aloneItem 1 [.removeNextHop [[97]] 1] false _ _ (by simp) (by simp) final
    reference _ ends endsDirect
  rw [equal] at hop
  cases hop.symm.trans directHop

end

end Ncfcc.Nfd.FibUpdater
