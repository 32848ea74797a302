import Mathlib.Data.List.Perm.Basic
import Ncfcc.Library.Run
import Ncfcc.Nfd.Rib.FibUpdater

/-! The commands of a batch: what the updater sends to the forwarder, and what it does with
the answers, which come in any order. -/
namespace Ncfcc.Nfd
open Library

structure UpdateQueueItem where
  number : Nat
  update : RibUpdate
  deriving DecidableEq

namespace FibUpdater

/-- A command that is not answered yet: what it asks the forwarder for, and what its callbacks
are bound to. -/
structure Command where
  item : UpdateQueueItem
  update : FibUpdate
  request : FibUpdate
  nTimeouts : Nat
  deriving DecidableEq

inductive Callback where
  | onSuccess (item : UpdateQueueItem) (inheritedRoutes : List Emission)
  | onFailure (item : UpdateQueueItem)
  deriving DecidableEq

def Callback.item : Callback → UpdateQueueItem
  | .onSuccess item _ => item
  | .onFailure item => item

structure Updater where
  batchFaceId : Nat
  inheritedRoutes : List Emission
  updatesForBatchFaceId : List FibUpdate
  updatesForNonBatchFaceId : List FibUpdate
  inFlight : List Command
  fib : NextHops

/-- An answer to a command. A command that timed out may have been carried out. -/
inductive Answer where
  | success
  | timeout (done : Bool)
  | faceNotFound
  | other
  deriving DecidableEq

/-- The request of `FibAddNextHopCommand`; the cost of an update that removes is zero. -/
def FibUpdate.addRequest (update : FibUpdate) : FibUpdate := {update with cost := some (update.cost.getD 0)}

namespace Updater

def sendAddNextHopUpdate (updater : Updater) (item : UpdateQueueItem) (update : FibUpdate) (nTimeouts : Nat) : Updater :=
  {updater with inFlight := updater.inFlight ++ [⟨item,update,update.addRequest,nTimeouts⟩]}

def sendRemoveNextHopUpdate (updater : Updater) (item : UpdateQueueItem) (update : FibUpdate) (nTimeouts : Nat) :
    Updater :=
  {updater with inFlight := updater.inFlight ++ [⟨item,update,{update with cost := none},nTimeouts⟩]}

def sendUpdates (updater : Updater) (item : UpdateQueueItem) (updates : List FibUpdate) : Updater :=
  updates.foldl (fun updater update =>
    match update.cost with
    | some _ => updater.sendAddNextHopUpdate item update 0
    | none => updater.sendRemoveNextHopUpdate item update 0) updater

def sendUpdatesForNonBatchFaceId (updater : Updater) (item : UpdateQueueItem) : Updater × Option Callback :=
  if updater.updatesForNonBatchFaceId.isEmpty then (updater,some (.onSuccess item updater.inheritedRoutes))
  else (updater.sendUpdates item updater.updatesForNonBatchFaceId,none)

def sendUpdatesForBatchFaceId (updater : Updater) (item : UpdateQueueItem) : Updater × Option Callback :=
  if updater.updatesForBatchFaceId.isEmpty then updater.sendUpdatesForNonBatchFaceId item
  else (updater.sendUpdates item updater.updatesForBatchFaceId,none)

/-- The lists of a batch; those for the face of the batch are dropped when that face is gone. -/
def computeUpdates (updater : Updater) (batchFaceId : Nat) (emissions : List Emission) (removesFace : Bool) : Updater :=
  {updater with
    batchFaceId := batchFaceId
    inheritedRoutes := emissions
    updatesForBatchFaceId := if removesFace then [] else (fibUpdates batchFaceId emissions).1
    updatesForNonBatchFaceId := (fibUpdates batchFaceId emissions).2}

def finishNonBatchUpdate (updater : Updater) (command : Command) : Updater × Option Callback :=
  let updater := {updater with
    updatesForNonBatchFaceId := updater.updatesForNonBatchFaceId.filter fun update => update ≠ command.update}
  if updater.updatesForNonBatchFaceId.isEmpty then (updater,some (.onSuccess command.item updater.inheritedRoutes))
  else (updater,none)

def onUpdateSuccess (updater : Updater) (command : Command) : Updater × Option Callback :=
  if command.update.faceId = updater.batchFaceId then
    let updater := {updater with
      updatesForBatchFaceId := updater.updatesForBatchFaceId.filter fun update => update ≠ command.update}
    if updater.updatesForBatchFaceId.isEmpty then updater.sendUpdatesForNonBatchFaceId command.item
    else (updater,none)
  else updater.finishNonBatchUpdate command

def maxNumTimeouts : Nat := 10

/-- A command that times out is sent again as one that adds a next hop. -/
def onUpdateTimeout (updater : Updater) (command : Command) : Option (Updater × Option Callback) :=
  if command.nTimeouts < maxNumTimeouts then
    some (updater.sendAddNextHopUpdate command.item command.update (command.nTimeouts + 1),none)
  else none

def onFaceNotFound (updater : Updater) (command : Command) : Updater × Option Callback :=
  if command.update.faceId = updater.batchFaceId then (updater,some (.onFailure command.item))
  else updater.finishNonBatchUpdate command

def carryOut (updater : Updater) (command : Command) : Updater :=
  {updater with fib := RibState.applyFibUpdate [] updater.fib command.request}

/-- The answer to the command with this index in flight; none stands for the exception thrown for
an error that cannot be recovered from. -/
def reply (updater : Updater) (index : Nat) (answer : Answer) : Option (Updater × Option Callback) :=
  match updater.inFlight[index]? with
  | none => some (updater,none)
  | some command =>
    let updater := {updater with inFlight := updater.inFlight.eraseIdx index}
    match answer with
    | .success => some ((updater.carryOut command).onUpdateSuccess command)
    | .timeout true => (updater.carryOut command).onUpdateTimeout command
    | .timeout false => updater.onUpdateTimeout command
    | .faceNotFound => some (updater.onFaceNotFound command)
    | .other => none

/-! The commands in flight are those of the list that is being worked off. -/

def remaining (updater : Updater) : List FibUpdate := updater.updatesForBatchFaceId ++ updater.updatesForNonBatchFaceId

/-- The updates that were sent and are not settled: those for other faces wait for those for the face
of the batch. -/
def current (updater : Updater) : List FibUpdate :=
  if updater.updatesForBatchFaceId = [] then updater.updatesForNonBatchFaceId else updater.updatesForBatchFaceId

/-- Each list holds an update once, and the face decides on the list. -/
structure Sorted (batchFaceId : Nat) (batch others : List FibUpdate) : Prop where
  batchDistinct : batch.Nodup
  othersDistinct : others.Nodup
  batchFace : ∀ update ∈ batch, update.faceId = batchFaceId
  othersFace : ∀ update ∈ others, update.faceId ≠ batchFaceId

/-- The commands in flight belong to the item, and there is one for each update sent. -/
structure Matched (updater : Updater) (item : UpdateQueueItem) : Prop where
  sorted : Sorted updater.batchFaceId updater.updatesForBatchFaceId updater.updatesForNonBatchFaceId
  owned : ∀ command ∈ updater.inFlight, command.item = item
  sent : (updater.inFlight.map Command.update).Perm updater.current

structure Answering (updater : Updater) (item : UpdateQueueItem) (command : Command) : Prop where
  sorted : Sorted updater.batchFaceId updater.updatesForBatchFaceId updater.updatesForNonBatchFaceId
  own : command.item = item
  owned : ∀ other ∈ updater.inFlight, other.item = item
  sent : (command.update :: updater.inFlight.map Command.update).Perm updater.current

theorem sendUpdates_eq (updater : Updater) (item : UpdateQueueItem) (updates : List FibUpdate) :
    updater.sendUpdates item updates =
      {updater with inFlight := updater.inFlight ++ updates.map fun update => ⟨item,update,update,0⟩} := by
  induction updates generalizing updater with
  | nil => simp [sendUpdates]
  | cons update updates ih =>
    obtain ⟨name,faceId,cost⟩ := update
    cases cost with
    | none =>
      change (updater.sendRemoveNextHopUpdate item ⟨name,faceId,none⟩ 0).sendUpdates item updates = _
      rw [ih]
      simp [sendRemoveNextHopUpdate]
    | some cost =>
      change (updater.sendAddNextHopUpdate item ⟨name,faceId,some cost⟩ 0).sendUpdates item updates = _
      rw [ih]
      simp [sendAddNextHopUpdate,FibUpdate.addRequest]

section
variable {updater : Updater} {item : UpdateQueueItem} {command : Command} {index : Nat}

theorem Matched.answering (matched : updater.Matched item) (found : updater.inFlight[index]? = some command) :
    Answering {updater with inFlight := updater.inFlight.eraseIdx index} item command := by
  obtain ⟨bound,here⟩ := List.getElem?_eq_some_iff.mp found
  have moved : (command :: updater.inFlight.eraseIdx index).Perm updater.inFlight := by
    rw [← here]
    exact List.getElem_cons_eraseIdx_perm bound
  refine ⟨matched.sorted,?_,?_,(moved.map Command.update).trans matched.sent⟩
  · exact matched.owned command (moved.subset List.mem_cons_self)
  · intro other inside
    exact matched.owned other (moved.subset (List.mem_cons_of_mem _ inside))

private theorem perm_filter {updates rest : List FibUpdate} {update : FibUpdate} (distinct : updates.Nodup)
    (perm : (update :: rest).Perm updates) : rest.Perm (updates.filter fun other => other ≠ update) := by
  have outside : update ∉ rest := (List.nodup_cons.mp (perm.nodup_iff.mpr distinct)).1
  have filtered := perm.filter fun other => other ≠ update
  rw [List.filter_cons_of_neg (by simp),List.filter_eq_self.mpr] at filtered
  · exact filtered
  · intro other inside
    apply decide_eq_true
    intro same
    exact outside (same ▸ inside)

private theorem sendUpdatesForNonBatchFaceId_spec (updater : Updater) (item : UpdateQueueItem) (quiet : updater.inFlight = []) :
    updater.sendUpdatesForNonBatchFaceId item =
      ({updater with inFlight := updater.updatesForNonBatchFaceId.map fun update => ⟨item,update,update,0⟩},
        if updater.updatesForNonBatchFaceId = [] then some (.onSuccess item updater.inheritedRoutes) else none) := by
  obtain ⟨batchFaceId,inheritedRoutes,batch,others,inFlight,fib⟩ := updater
  change inFlight = [] at quiet
  unfold sendUpdatesForNonBatchFaceId
  rw [sendUpdates_eq,quiet]
  cases others with
  | nil => rfl
  | cons update updates => rfl

theorem sendUpdatesForBatchFaceId_spec (updater : Updater) (item : UpdateQueueItem) (quiet : updater.inFlight = []) :
    updater.sendUpdatesForBatchFaceId item =
      ({updater with inFlight := updater.current.map fun update => ⟨item,update,update,0⟩},
        if updater.remaining = [] then some (.onSuccess item updater.inheritedRoutes) else none) := by
  unfold sendUpdatesForBatchFaceId
  rw [sendUpdatesForNonBatchFaceId_spec updater item quiet,sendUpdates_eq,quiet]
  unfold current remaining
  cases updater.updatesForBatchFaceId with
  | nil => rfl
  | cons update updates => rfl

theorem matched_sent {updates : List FibUpdate} {updater : Updater} (item : UpdateQueueItem)
    (sorted : Sorted updater.batchFaceId updater.updatesForBatchFaceId updater.updatesForNonBatchFaceId)
    (inFlight : updater.inFlight = updates.map fun update => ⟨item,update,update,0⟩) (now : updater.current = updates) :
    updater.Matched item := by
  refine ⟨sorted,?_,?_⟩
  · intro command inside
    rw [inFlight] at inside
    obtain ⟨update,-,rfl⟩ := List.mem_map.mp inside
    rfl
  · rw [inFlight,now,List.map_map]
    exact (List.map_id updates).symm ▸ List.Perm.refl _

structure Settled (before after : Updater) (item : UpdateQueueItem) (command : Command)
    (callback : Option Callback) : Prop where
  matched : after.Matched item
  remaining : after.remaining = before.remaining.filter fun update => update ≠ command.update
  fib : after.fib = before.fib
  batchFaceId : after.batchFaceId = before.batchFaceId
  inheritedRoutes : after.inheritedRoutes = before.inheritedRoutes
  callback : callback = if after.remaining = [] then some (.onSuccess item before.inheritedRoutes) else none
  inFlight : ∀ other ∈ after.inFlight, other ∈ before.inFlight ∨ before.updatesForBatchFaceId ≠ [] ∧
    ∃ update ∈ before.updatesForNonBatchFaceId, other = ⟨item,update,update,0⟩

theorem Answering.batchEmpty (answering : updater.Answering item command)
    (other : command.update.faceId ≠ updater.batchFaceId) : updater.updatesForBatchFaceId = [] := by
  by_contra waiting
  have inside := answering.sent.subset List.mem_cons_self
  unfold current at inside
  rw [if_neg waiting] at inside
  exact other (answering.sorted.batchFace _ inside)

theorem Answering.batchWaiting (answering : updater.Answering item command)
    (same : command.update.faceId = updater.batchFaceId) : updater.updatesForBatchFaceId ≠ [] := by
  intro empty
  have inside := answering.sent.subset List.mem_cons_self
  unfold current at inside
  rw [if_pos empty] at inside
  exact answering.sorted.othersFace _ inside same

private theorem finishNonBatchUpdate_settled (answering : updater.Answering item command)
    (other : command.update.faceId ≠ updater.batchFaceId) :
    Settled updater (updater.finishNonBatchUpdate command).1 item command (updater.finishNonBatchUpdate command).2 := by
  have empty := answering.batchEmpty other
  have sorted := answering.sorted
  have sent := answering.sent
  rw [current,if_pos empty] at sent
  have left := perm_filter sorted.othersDistinct sent
  have result : updater.finishNonBatchUpdate command =
      ({updater with
          updatesForNonBatchFaceId := updater.updatesForNonBatchFaceId.filter fun update => update ≠ command.update},
        if updater.updatesForNonBatchFaceId.filter (fun update => update ≠ command.update) = [] then
          some (.onSuccess item updater.inheritedRoutes) else none) := by
    unfold finishNonBatchUpdate
    dsimp only
    rw [answering.own]
    cases updater.updatesForNonBatchFaceId.filter fun update => update ≠ command.update with
    | nil => rfl
    | cons update updates => rfl
  rw [result]
  constructor
  · refine ⟨⟨sorted.batchDistinct,sorted.othersDistinct.filter _,sorted.batchFace,?_⟩,answering.owned,?_⟩
    · intro update inside
      exact sorted.othersFace update (List.mem_filter.mp inside).1
    · rw [current,if_pos empty]
      exact left
  · rw [remaining,remaining,empty]
    rfl
  · rfl
  · rfl
  · rfl
  · dsimp only
    rw [remaining,empty,List.nil_append]
  · intro other inside
    exact Or.inl inside

private theorem onUpdateSuccess_settled (answering : updater.Answering item command) :
    Settled updater (updater.onUpdateSuccess command).1 item command (updater.onUpdateSuccess command).2 := by
  by_cases same : command.update.faceId = updater.batchFaceId
  · have waiting := answering.batchWaiting same
    have sorted := answering.sorted
    have sent := answering.sent
    rw [current,if_neg waiting] at sent
    have left := perm_filter sorted.batchDistinct sent
    have untouched : updater.updatesForNonBatchFaceId.filter (fun update => update ≠ command.update) =
        updater.updatesForNonBatchFaceId := by
      rw [List.filter_eq_self]
      intro update inside
      apply decide_eq_true
      intro equal
      exact sorted.othersFace update inside (equal ▸ same)
    have shrunk : Sorted updater.batchFaceId
        (updater.updatesForBatchFaceId.filter fun update => update ≠ command.update) updater.updatesForNonBatchFaceId := by
      refine ⟨sorted.batchDistinct.filter _,sorted.othersDistinct,?_,sorted.othersFace⟩
      intro update inside
      exact sorted.batchFace update (List.mem_filter.mp inside).1
    unfold onUpdateSuccess
    rw [if_pos same]
    dsimp only
    by_cases last : updater.updatesForBatchFaceId.filter (fun update => update ≠ command.update) = []
    · have quiet : updater.inFlight = [] := by
        rw [last] at left
        exact List.map_eq_nil_iff.mp left.eq_nil
      rw [if_pos (by rw [last]; rfl),answering.own,sendUpdatesForNonBatchFaceId_spec {updater with
        updatesForBatchFaceId := updater.updatesForBatchFaceId.filter fun update => update ≠ command.update} item quiet]
      constructor
      · exact matched_sent item shrunk rfl (if_pos last)
      · rw [remaining,remaining,List.filter_append,untouched]
      · rfl
      · rfl
      · rfl
      · dsimp only
        rw [remaining,last,List.nil_append]
      · intro other inside
        obtain ⟨update,there,rfl⟩ := List.mem_map.mp inside
        exact Or.inr ⟨waiting,update,there,rfl⟩
    · rw [if_neg (by rw [List.isEmpty_iff]; exact last)]
      constructor
      · refine ⟨shrunk,answering.owned,?_⟩
        rw [current,if_neg last]
        exact left
      · rw [remaining,remaining,List.filter_append,untouched]
      · rfl
      · rfl
      · rfl
      · dsimp only
        rw [remaining,if_neg]
        intro none_left
        exact last (List.append_eq_nil_iff.mp none_left).1
      · intro other inside
        exact Or.inl inside
  · have settled := finishNonBatchUpdate_settled answering same
    unfold onUpdateSuccess
    rw [if_neg same]
    exact settled

private theorem onUpdateTimeout_matched (answering : updater.Answering item command) {after : Updater}
    {callback : Option Callback} (sent : updater.onUpdateTimeout command = some (after,callback)) :
    after = {updater with
        inFlight := updater.inFlight ++ [⟨item,command.update,command.update.addRequest,command.nTimeouts + 1⟩]} ∧
      callback = none ∧ after.Matched item := by
  unfold onUpdateTimeout at sent
  split at sent
  · obtain ⟨rfl,rfl⟩ := Prod.mk.inj (Option.some.inj sent)
    rw [answering.own]
    refine ⟨rfl,rfl,answering.sorted,?_,?_⟩
    · intro other inside
      rcases List.mem_append.mp inside with old | new
      · exact answering.owned other old
      · rw [List.mem_singleton.mp new]
    · unfold sendAddNextHopUpdate
      dsimp only
      rw [List.map_append]
      exact List.perm_append_comm.trans answering.sent
  · cases sent

inductive Replied (updater : Updater) (item : UpdateQueueItem) (command : Command) :
    Answer → Updater → Option Callback → Prop where
  | success {after : Updater} {callback : Option Callback} :
      Settled (updater.carryOut command) after item command callback →
        Replied updater item command .success after callback
  | timeout {after : Updater} (done : Bool) : after.Matched item →
      after = {(if done then updater.carryOut command else updater) with
        inFlight := updater.inFlight ++ [⟨item,command.update,command.update.addRequest,command.nTimeouts + 1⟩]} →
        Replied updater item command (.timeout done) after none
  | otherFace {after : Updater} {callback : Option Callback} : command.update.faceId ≠ updater.batchFaceId →
      Settled updater after item command callback → Replied updater item command .faceNotFound after callback
  | batchFace : command.update.faceId = updater.batchFaceId →
      Replied updater item command .faceNotFound updater (some (.onFailure item))

theorem Answering.carryOut (answering : updater.Answering item command) : (updater.carryOut command).Answering item command :=
  ⟨answering.sorted,answering.own,answering.owned,answering.sent⟩

theorem Matched.replied (matched : updater.Matched item) (found : updater.inFlight[index]? = some command)
    {answer : Answer} {after : Updater} {callback : Option Callback}
    (answered : updater.reply index answer = some (after,callback)) :
    Replied {updater with inFlight := updater.inFlight.eraseIdx index} item command answer after callback := by
  have answering := matched.answering found
  unfold reply at answered
  rw [found] at answered
  dsimp only at answered
  generalize {updater with inFlight := updater.inFlight.eraseIdx index} = taken at answering answered
  cases answer with
  | success =>
    have same := Option.some.inj answered
    have settled := onUpdateSuccess_settled answering.carryOut
    rw [same] at settled
    exact .success settled
  | timeout done =>
    cases done with
    | true =>
      obtain ⟨same,rfl,kept⟩ := onUpdateTimeout_matched answering.carryOut answered
      exact .timeout true kept same
    | false =>
      obtain ⟨same,rfl,kept⟩ := onUpdateTimeout_matched answering answered
      exact .timeout false kept same
  | faceNotFound =>
    have same := Option.some.inj answered
    unfold onFaceNotFound at same
    split at same
    · rename_i here
      obtain ⟨rfl,rfl⟩ := Prod.mk.inj same
      rw [answering.own]
      exact .batchFace here
    · rename_i elsewhere
      have settled := finishNonBatchUpdate_settled answering elsewhere
      rw [same] at settled
      exact .otherFace elsewhere settled
  | other => cases answered

/-! The updates of a batch. -/

private theorem mem_addFibUpdate {updates : List FibUpdate} {new update : FibUpdate}
    (inside : update ∈ addFibUpdate updates new) : update ∈ updates ∨ update = new := by
  induction updates with
  | nil => exact Or.inr (List.mem_singleton.mp inside)
  | cons head rest ih =>
    unfold addFibUpdate at inside
    split at inside
    · rcases List.mem_cons.mp inside with here | there
      · exact Or.inr here
      · exact Or.inl (List.mem_cons_of_mem _ there)
    · rcases List.mem_cons.mp inside with here | there
      · exact Or.inl (here ▸ List.mem_cons_self)
      · exact (ih there).imp_left (List.mem_cons_of_mem _)

def Keyed (updates : List FibUpdate) : Prop :=
  updates.Pairwise fun first second => ¬(first.name = second.name ∧ first.faceId = second.faceId)

private theorem keyed_addFibUpdate {updates : List FibUpdate} (keyed : Keyed updates) (new : FibUpdate) :
    Keyed (addFibUpdate updates new) := by
  induction updates with
  | nil => exact List.pairwise_singleton _ _
  | cons head rest ih =>
    obtain ⟨apart,keyed⟩ := List.pairwise_cons.mp keyed
    unfold addFibUpdate
    split
    · rename_i same
      apply List.pairwise_cons.mpr
      refine ⟨?_,keyed⟩
      intro other inside equal
      exact apart other inside ⟨same.1.trans equal.1,same.2.trans equal.2⟩
    · rename_i different
      apply List.pairwise_cons.mpr
      refine ⟨?_,ih keyed⟩
      intro other inside
      rcases mem_addFibUpdate inside with old | rfl
      · exact apart other old
      · exact different

private theorem foldl_addFibUpdate (updates : List FibUpdate) :
    Keyed (updates.foldl addFibUpdate []) ∧ ∀ update ∈ updates.foldl addFibUpdate [], update ∈ updates := by
  have general : ∀ start, Keyed start → Keyed (updates.foldl addFibUpdate start) ∧
      ∀ update ∈ updates.foldl addFibUpdate start, update ∈ start ∨ update ∈ updates := by
    induction updates with
    | nil => exact fun start keyed => ⟨keyed,fun _ inside => Or.inl inside⟩
    | cons new updates ih =>
      intro start keyed
      obtain ⟨kept,members⟩ := ih _ (keyed_addFibUpdate keyed new)
      refine ⟨kept,?_⟩
      intro update inside
      rcases members update inside with early | late
      · rcases mem_addFibUpdate early with old | rfl
        · exact Or.inl old
        · exact Or.inr List.mem_cons_self
      · exact Or.inr (List.mem_cons_of_mem _ late)
  obtain ⟨keyed,members⟩ := general [] List.Pairwise.nil
  exact ⟨keyed,fun update inside => (members update inside).resolve_left List.not_mem_nil⟩

theorem Keyed.nodup {updates : List FibUpdate} (keyed : Keyed updates) : updates.Nodup := by
  apply keyed.imp
  intro first second apart same
  rw [same] at apart
  exact apart ⟨rfl,rfl⟩

theorem Keyed.eq {updates : List FibUpdate} (keyed : Keyed updates) {first second : FibUpdate}
    (one : first ∈ updates) (two : second ∈ updates) (name : first.name = second.name)
    (face : first.faceId = second.faceId) : first = second := by
  induction updates with
  | nil => cases one
  | cons head rest ih =>
    obtain ⟨apart,keyed⟩ := List.pairwise_cons.mp keyed
    rcases List.mem_cons.mp one with rfl | early
    · rcases List.mem_cons.mp two with rfl | late
      · rfl
      · exact absurd ⟨name,face⟩ (apart second late)
    · rcases List.mem_cons.mp two with rfl | late
      · exact absurd ⟨name.symm,face.symm⟩ (apart first early)
      · exact ih keyed early late

theorem computeUpdates_sorted (updater : Updater) (batchFaceId : Nat) (emissions : List Emission) (removesFace : Bool) :
    Sorted (updater.computeUpdates batchFaceId emissions removesFace).batchFaceId
      (updater.computeUpdates batchFaceId emissions removesFace).updatesForBatchFaceId
      (updater.computeUpdates batchFaceId emissions removesFace).updatesForNonBatchFaceId ∧
    Keyed (updater.computeUpdates batchFaceId emissions removesFace).remaining := by
  have first := foldl_addFibUpdate ((emissions.filterMap fibUpdate).filter fun update => update.faceId = batchFaceId)
  have second := foldl_addFibUpdate ((emissions.filterMap fibUpdate).filter fun update => update.faceId ≠ batchFaceId)
  have batchFace : ∀ update ∈ (updater.computeUpdates batchFaceId emissions removesFace).updatesForBatchFaceId,
      update.faceId = batchFaceId := by
    intro update inside
    unfold computeUpdates at inside
    cases removesFace with
    | true => cases inside
    | false => exact of_decide_eq_true (List.mem_filter.mp (first.2 update inside)).2
  have othersFace : ∀ update ∈ (updater.computeUpdates batchFaceId emissions removesFace).updatesForNonBatchFaceId,
      update.faceId ≠ batchFaceId := by
    intro update inside
    exact of_decide_eq_true (List.mem_filter.mp (second.2 update inside)).2
  have batchKeyed : Keyed (updater.computeUpdates batchFaceId emissions removesFace).updatesForBatchFaceId := by
    unfold computeUpdates
    cases removesFace with
    | true => exact List.Pairwise.nil
    | false => exact first.1
  refine ⟨⟨batchKeyed.nodup,second.1.nodup,batchFace,othersFace⟩,List.pairwise_append.mpr ⟨batchKeyed,second.1,?_⟩⟩
  intro update inside other there same
  exact othersFace other there (same.2.symm.trans (batchFace update inside))

end

end Updater

end FibUpdater

end Ncfcc.Nfd
