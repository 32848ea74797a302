import Mathlib.Data.List.Nodup
import Ncfcc.Nfd.Rib.FibCommands

/-! The queue of RIB updates: one batch is sent to the forwarder at a time, and the answers to
its commands decide on the outcome of the update. -/
namespace Ncfcc.Nfd
open FibUpdater Library

def RibUpdate.faceId : RibUpdate → Nat
  | .register _ route => route.faceId
  | .unregister _ route => route.faceId
  | .removeFace _ route => route.faceId

def RibUpdate.removesFace : RibUpdate → Bool
  | .removeFace _ _ => true
  | _ => false

def Rib.findRoutesWithFaceId (rib : Rib) (faceId : Nat) : List (Name × Route) :=
  (rib.faceMap faceId).flatMap fun name =>
    match rib.find name with
    | none => []
    | some entry => (entry.routes.filter fun route => route.faceId == faceId).map fun route => (name,route)

/-- `queued` holds all updates that were ever queued, and `outcomes` the items of which a callback
was run, with whether it was `onFibUpdateSuccess`. -/
structure UpdateQueue where
  rib : Rib
  updater : Updater
  updateBatches : List UpdateQueueItem
  isUpdateInProgress : Bool
  queued : List UpdateQueueItem
  outcomes : List (UpdateQueueItem × Bool)

namespace UpdateQueue

def initial : UpdateQueue := ⟨.empty,⟨0,[],[],[],[],fun _ _ => none⟩,[],false,[],[]⟩

def addUpdateToQueue (queue : UpdateQueue) (update : RibUpdate) : UpdateQueue :=
  {queue with
    updateBatches := queue.updateBatches ++ [⟨queue.queued.length,update⟩]
    queued := queue.queued ++ [⟨queue.queued.length,update⟩]}

def computeAndSendFibUpdates (readSecond : List Route → Route) (rib : Rib) (updater : Updater)
    (item : UpdateQueueItem) : Option (Updater × Option Callback) :=
  (item.update.emissions readSecond rib).map fun emissions =>
    (updater.computeUpdates item.update.faceId emissions item.update.removesFace).sendUpdatesForBatchFaceId item

/-- `onFibUpdateSuccess` and `onFibUpdateFailure` up to the call of `sendBatchFromQueue`. -/
def runCallback (queue : UpdateQueue) : Callback → Option UpdateQueue
  | .onSuccess item inheritedRoutes =>
    ((item.update.change queue.rib).modifyInheritedRoutes inheritedRoutes).map fun rib =>
      {queue with rib := rib,isUpdateInProgress := false,outcomes := queue.outcomes ++ [(item,true)]}
  | .onFailure item => some {queue with isUpdateInProgress := false,outcomes := queue.outcomes ++ [(item,false)]}

/-- `sendBatchFromQueue` on a queue of these items. A batch without commands succeeds at once, and
the next is sent. -/
def sendBatches (readSecond : List Route → Route) : List UpdateQueueItem → UpdateQueue → Option UpdateQueue
  | [],queue => some {queue with updateBatches := []}
  | item :: rest,queue =>
    if queue.isUpdateInProgress then some {queue with updateBatches := item :: rest}
    else
      (computeAndSendFibUpdates readSecond queue.rib queue.updater item).bind fun sent =>
        let queue := {queue with updater := sent.1,isUpdateInProgress := true,updateBatches := rest}
        match sent.2 with
        | none => some queue
        | some callback => (queue.runCallback callback).bind (sendBatches readSecond rest)

def sendBatchFromQueue (readSecond : List Route → Route) (queue : UpdateQueue) : Option UpdateQueue :=
  sendBatches readSecond queue.updateBatches queue

inductive Event where
  | beginApplyUpdate (update : RibUpdate)
  | beginRemoveFace (faceId : Nat)
  | reply (index : Nat) (answer : Answer)
  deriving DecidableEq

/-- None stands for an exception or a failed assertion, which end the run. -/
def step (readSecond : List Route → Route) (queue : UpdateQueue) : Event → Option UpdateQueue
  | .beginApplyUpdate update => (queue.addUpdateToQueue update).sendBatchFromQueue readSecond
  | .beginRemoveFace faceId =>
    ((queue.rib.findRoutesWithFaceId faceId).foldl (fun queue item =>
      queue.addUpdateToQueue (.removeFace item.1 item.2)) queue).sendBatchFromQueue readSecond
  | .reply index answer =>
    (queue.updater.reply index answer).bind fun replied =>
      let queue := {queue with updater := replied.1}
      match replied.2 with
      | none => some queue
      | some callback => (queue.runCallback callback).bind (sendBatchFromQueue readSecond)

/-! What is to hold of the queue. -/

/-- What was queued falls, in this order, into the updates with an outcome, at most one in progress,
and those that wait; nothing is left without an outcome when every command is answered. -/
structure Orderly (queue : UpdateQueue) : Prop where
  numbered : queue.queued.map UpdateQueueItem.number = List.range queue.queued.length
  divided : ∃ current : Option UpdateQueueItem,
    queue.queued = queue.outcomes.map Prod.fst ++ (current.toList ++ queue.updateBatches)
  complete : queue.updater.inFlight = [] → queue.outcomes.map Prod.fst = queue.queued

structure Unchanged (before after : UpdateQueue) : Prop where
  rib : after.rib = before.rib
  updateBatches : after.updateBatches = before.updateBatches
  isUpdateInProgress : after.isUpdateInProgress = before.isUpdateInProgress
  outcomes : after.outcomes = before.outcomes
  batchFaceId : after.updater.batchFaceId = before.updater.batchFaceId
  inheritedRoutes : after.updater.inheritedRoutes = before.updater.inheritedRoutes
  updatesForBatchFaceId : after.updater.updatesForBatchFaceId = before.updater.updatesForBatchFaceId
  updatesForNonBatchFaceId : after.updater.updatesForNonBatchFaceId = before.updater.updatesForNonBatchFaceId

/-- The answer to a command of a batch that has its outcome changes nothing. -/
def IgnoresFinished (readSecond : List Route → Route) (queue : UpdateQueue) (event : Event) : Prop :=
  ∀ index answer command next, event = .reply index answer → queue.updater.inFlight[index]? = some command →
    command.item ∈ queue.outcomes.map Prod.fst → queue.step readSecond event = some next → Unchanged queue next

/-- When the face of the batch is not found, no other command of the batch is in flight. -/
def failsAlone (queue : UpdateQueue) : Event → Bool
  | .reply index .faceNotFound =>
    match queue.updater.inFlight[index]? with
    | none => true
    | some command => command.update.faceId ≠ queue.updater.batchFaceId ||
        (queue.updater.inFlight.eraseIdx index).all fun other => other.item ≠ command.item
  | _ => true

/-! The invariant: the commands in flight belong to the one batch in progress. -/

structure Idle (queue : UpdateQueue) : Prop where
  isUpdateInProgress : queue.isUpdateInProgress = false
  inFlight : queue.updater.inFlight = []
  divided : queue.queued = queue.outcomes.map Prod.fst ++ queue.updateBatches

structure Busy (queue : UpdateQueue) (item : UpdateQueueItem) : Prop where
  isUpdateInProgress : queue.isUpdateInProgress = true
  matched : queue.updater.Matched item
  remains : queue.updater.remaining ≠ []
  divided : queue.queued = queue.outcomes.map Prod.fst ++ item :: queue.updateBatches

def Numbered (queue : UpdateQueue) : Prop := queue.queued.map UpdateQueueItem.number = List.range queue.queued.length

def Working (queue : UpdateQueue) : Prop := (queue.Idle ∧ queue.updateBatches = []) ∨ ∃ item, queue.Busy item

section
variable {queue next : UpdateQueue} {item : UpdateQueueItem}

theorem Numbered.distinct (numbered : queue.Numbered) : queue.queued.Nodup := by
  apply List.Nodup.of_map UpdateQueueItem.number
  rw [numbered]
  exact List.nodup_range

private theorem addUpdateToQueue_numbered (numbered : queue.Numbered) (update : RibUpdate) :
    (queue.addUpdateToQueue update).Numbered := by
  unfold Numbered addUpdateToQueue
  dsimp only
  rw [List.map_append,numbered,List.length_append,List.length_singleton,List.range_succ]
  rfl

private theorem quiet_of_settled {updater : Updater} (matched : updater.Matched item) (settled : updater.remaining = []) :
    updater.inFlight = [] := by
  have both := List.append_eq_nil_iff.mp settled
  have sent := matched.sent
  rw [Updater.current,if_pos both.1,both.2] at sent
  exact List.map_eq_nil_iff.mp sent.eq_nil

theorem Busy.inFlight (busy : queue.Busy item) : queue.updater.inFlight ≠ [] := by
  intro quiet
  have sent := busy.matched.sent
  rw [quiet] at sent
  have nothing := sent.symm.eq_nil
  unfold Updater.current at nothing
  split at nothing
  · rename_i empty
    exact busy.remains (List.append_eq_nil_iff.mpr ⟨empty,nothing⟩)
  · rename_i waits
    exact waits nothing

/-- A batch that is sent is in progress, or it had no commands and has succeeded. -/
theorem computeAndSendFibUpdates_spec {readSecond : List Route → Route} {rib : Rib} {updater : Updater}
    {sent : Updater × Option Callback} (quiet : updater.inFlight = [])
    (computed : computeAndSendFibUpdates readSecond rib updater item = some sent) :
    sent.1.Matched item ∧
      sent.2 = if sent.1.remaining = [] then some (.onSuccess item sent.1.inheritedRoutes) else none := by
  obtain ⟨emissions,-,rfl⟩ := Option.map_eq_some_iff.mp computed
  obtain ⟨sorted,-⟩ := Updater.computeUpdates_sorted updater item.update.faceId emissions item.update.removesFace
  rw [Updater.sendUpdatesForBatchFaceId_spec (updater.computeUpdates _ emissions _) item quiet]
  exact ⟨Updater.matched_sent item sorted rfl rfl,rfl⟩

private theorem runCallback_idle (queue : UpdateQueue) {callback : Callback} (quiet : queue.updater.inFlight = [])
    (divided : queue.queued = queue.outcomes.map Prod.fst ++ callback.item :: queue.updateBatches)
    (ran : queue.runCallback callback = some next) : next.Idle ∧ next.updateBatches = queue.updateBatches ∧
      next.queued = queue.queued := by
  cases callback with
  | onSuccess item routes =>
    obtain ⟨rib,-,rfl⟩ := Option.map_eq_some_iff.mp ran
    refine ⟨⟨rfl,quiet,?_⟩,rfl,rfl⟩
    simpa [Callback.item] using divided
  | onFailure item =>
    obtain rfl := Option.some.inj ran
    refine ⟨⟨rfl,quiet,?_⟩,rfl,rfl⟩
    simpa [Callback.item] using divided

private theorem sendBatches_working {readSecond : List Route → Route} (items : List UpdateQueueItem) {queue next : UpdateQueue}
    (idle : queue.Idle) (waiting : queue.updateBatches = items)
    (sent : sendBatches readSecond items queue = some next) : next.Working ∧ next.queued = queue.queued := by
  induction items generalizing queue with
  | nil =>
    obtain rfl := Option.some.inj sent
    refine ⟨Or.inl ⟨⟨idle.isUpdateInProgress,idle.inFlight,?_⟩,rfl⟩,rfl⟩
    rw [idle.divided,waiting]
  | cons item rest ih =>
    unfold sendBatches at sent
    rw [if_neg (by rw [idle.isUpdateInProgress]; exact Bool.false_ne_true)] at sent
    obtain ⟨⟨updater,callback⟩,computed,sent⟩ := Option.bind_eq_some_iff.mp sent
    obtain ⟨matched,report⟩ := computeAndSendFibUpdates_spec idle.inFlight computed
    have divided := idle.divided
    rw [waiting] at divided
    dsimp only at sent matched report
    by_cases settled : updater.remaining = []
    · rw [report,if_pos settled] at sent
      obtain ⟨after,ran,sent⟩ := Option.bind_eq_some_iff.mp sent
      have quiet := quiet_of_settled matched settled
      obtain ⟨again,same,kept⟩ := runCallback_idle _ quiet divided ran
      obtain ⟨working,queued⟩ := ih again same sent
      exact ⟨working,queued.trans kept⟩
    · rw [report,if_neg settled] at sent
      obtain rfl := Option.some.inj sent
      exact ⟨Or.inr ⟨item,rfl,matched,settled,divided⟩,rfl⟩

/-- A queue that has grown is sent from, unless a batch is in progress. -/
theorem sendBatchFromQueue_working {readSecond : List Route → Route} {queue next : UpdateQueue}
    (either : queue.Idle ∨ ∃ item, queue.Busy item) (sent : queue.sendBatchFromQueue readSecond = some next) :
    next.Working ∧ next.queued = queue.queued := by
  rcases either with idle | ⟨item,busy⟩
  · exact sendBatches_working _ idle rfl sent
  · unfold sendBatchFromQueue at sent
    have same : next = queue := by
      cases waiting : queue.updateBatches with
      | nil =>
        rw [waiting] at sent
        rw [← Option.some.inj sent,← waiting]
      | cons first rest =>
        rw [waiting] at sent
        unfold sendBatches at sent
        rw [if_pos busy.isUpdateInProgress] at sent
        rw [← Option.some.inj sent,← waiting]
    rw [same]
    exact ⟨Or.inr ⟨item,busy⟩,rfl⟩

private theorem addUpdateToQueue_either (either : queue.Idle ∨ ∃ item, queue.Busy item) (update : RibUpdate) :
    (queue.addUpdateToQueue update).Idle ∨ ∃ item, (queue.addUpdateToQueue update).Busy item := by
  rcases either with idle | ⟨item,busy⟩
  · refine Or.inl ⟨idle.isUpdateInProgress,idle.inFlight,?_⟩
    unfold addUpdateToQueue
    dsimp only
    rw [idle.divided,List.append_assoc]
  · refine Or.inr ⟨item,busy.isUpdateInProgress,busy.matched,busy.remains,?_⟩
    unfold addUpdateToQueue
    dsimp only
    rw [busy.divided,List.append_assoc]
    rfl

theorem Working.either (working : queue.Working) : queue.Idle ∨ ∃ item, queue.Busy item :=
  working.imp_left And.left

private theorem reply_working {readSecond : List Route → Route} (busy : queue.Busy item) {index : Nat} {answer : Answer}
    (alone : queue.failsAlone (.reply index answer) = true)
    (stepped : queue.step readSecond (.reply index answer) = some next) :
    next.Working ∧ next.queued = queue.queued := by
  obtain ⟨⟨updater,callback⟩,replied,stepped⟩ := Option.bind_eq_some_iff.mp stepped
  dsimp only at stepped
  have finishes : ∀ result : Updater, result.inFlight = [] → ∀ report : Callback, report.item = item →
      ((runCallback {queue with updater := result} report).bind (sendBatchFromQueue readSecond)) = some next →
      next.Working ∧ next.queued = queue.queued := by
    intro result quiet report own ran
    obtain ⟨after,ended,sent⟩ := Option.bind_eq_some_iff.mp ran
    obtain ⟨idle,-,kept⟩ := runCallback_idle {queue with updater := result} quiet (own ▸ busy.divided) ended
    obtain ⟨working,queued⟩ := sendBatchFromQueue_working (Or.inl idle) sent
    exact ⟨working,queued.trans kept⟩
  have settles : ∀ {before : Updater} {command : Command}, Updater.Settled before updater item command callback →
      next.Working ∧ next.queued = queue.queued := by
    intro before command settled
    by_cases last : updater.remaining = []
    · rw [settled.callback,if_pos last] at stepped
      exact finishes updater (quiet_of_settled settled.matched last) _ rfl stepped
    · rw [settled.callback,if_neg last] at stepped
      obtain rfl := Option.some.inj stepped
      exact ⟨Or.inr ⟨item,busy.isUpdateInProgress,settled.matched,last,busy.divided⟩,rfl⟩
  cases found : queue.updater.inFlight[index]? with
  | none =>
    have same : (queue.updater,none) = (updater,callback) := by
      unfold Updater.reply at replied
      rw [found] at replied
      exact Option.some.inj replied
    obtain ⟨rfl,rfl⟩ := Prod.mk.inj same
    obtain rfl := Option.some.inj stepped
    exact ⟨Or.inr ⟨item,busy⟩,rfl⟩
  | some command =>
    cases busy.matched.replied found replied with
    | success settled => exact settles settled
    | otherFace elsewhere settled => exact settles settled
    | timeout done matched same =>
      obtain rfl := Option.some.inj stepped
      have kept : updater.remaining = queue.updater.remaining := by
        rw [same]
        cases done with
        | true => rfl
        | false => rfl
      exact ⟨Or.inr ⟨item,busy.isUpdateInProgress,matched,kept ▸ busy.remains,busy.divided⟩,rfl⟩
    | batchFace here =>
      have others : ∀ other ∈ queue.updater.inFlight.eraseIdx index, other.item ≠ command.item := by
        unfold failsAlone at alone
        dsimp only at alone
        rw [found] at alone
        have here : command.update.faceId = queue.updater.batchFaceId := here
        simpa [here] using alone
      have own := busy.matched.owned command (List.mem_of_getElem? found)
      have quiet : queue.updater.inFlight.eraseIdx index = [] := by
        apply List.eq_nil_iff_forall_not_mem.mpr
        intro other inside
        exact others other inside ((busy.matched.owned other (List.mem_of_mem_eraseIdx inside)).trans own.symm)
      exact finishes _ quiet (.onFailure item) rfl stepped

private theorem foldl_addUpdateToQueue (updates : List (Name × Route)) {queue : UpdateQueue} (numbered : queue.Numbered)
    (either : queue.Idle ∨ ∃ item, queue.Busy item) :
    (updates.foldl (fun queue item => queue.addUpdateToQueue (.removeFace item.1 item.2)) queue).Numbered ∧
      ((updates.foldl (fun queue item => queue.addUpdateToQueue (.removeFace item.1 item.2)) queue).Idle ∨ ∃ item,
        (updates.foldl (fun queue item => queue.addUpdateToQueue (.removeFace item.1 item.2)) queue).Busy item) := by
  induction updates generalizing queue with
  | nil => exact ⟨numbered,either⟩
  | cons update updates ih =>
    exact ih (addUpdateToQueue_numbered numbered _) (addUpdateToQueue_either either _)

private theorem step_working {readSecond : List Route → Route} (numbered : queue.Numbered) (working : queue.Working)
    {event : Event} (alone : queue.failsAlone event = true) (stepped : queue.step readSecond event = some next) :
    next.Numbered ∧ next.Working := by
  cases event with
  | beginApplyUpdate update =>
    obtain ⟨again,queued⟩ := sendBatchFromQueue_working (addUpdateToQueue_either working.either update) stepped
    refine ⟨?_,again⟩
    unfold Numbered
    rw [queued]
    exact addUpdateToQueue_numbered numbered update
  | beginRemoveFace faceId =>
    obtain ⟨grown,either⟩ :=
      foldl_addUpdateToQueue (queue.rib.findRoutesWithFaceId faceId) numbered working.either
    obtain ⟨again,queued⟩ := sendBatchFromQueue_working either stepped
    refine ⟨?_,again⟩
    unfold Numbered
    rw [queued]
    exact grown
  | reply index answer =>
    rcases working with ⟨idle,empty⟩ | ⟨item,busy⟩
    · have same : next = queue := by
        unfold step Updater.reply at stepped
        rw [idle.inFlight] at stepped
        exact (Option.some.inj stepped).symm
      rw [same]
      exact ⟨numbered,Or.inl ⟨idle,empty⟩⟩
    · obtain ⟨again,queued⟩ := reply_working busy alone stepped
      refine ⟨?_,again⟩
      unfold Numbered
      rw [queued]
      exact numbered

theorem Working.orderly (numbered : queue.Numbered) (working : queue.Working) : queue.Orderly := by
  rcases working with ⟨idle,empty⟩ | ⟨item,busy⟩
  · refine ⟨numbered,⟨none,idle.divided⟩,?_⟩
    intro _
    rw [idle.divided,empty,List.append_nil]
  · refine ⟨numbered,⟨some item,busy.divided⟩,?_⟩
    intro quiet
    exact absurd quiet busy.inFlight

/-- No command of a batch with an outcome is in flight. -/
theorem Working.unfinished (numbered : queue.Numbered) (working : queue.Working) {command : Command}
    (inside : command ∈ queue.updater.inFlight) : command.item ∉ queue.outcomes.map Prod.fst := by
  rcases working with ⟨idle,-⟩ | ⟨item,busy⟩
  · rw [idle.inFlight] at inside
    cases inside
  · have distinct := numbered.distinct
    rw [busy.divided] at distinct
    rw [busy.matched.owned command inside]
    intro finished
    exact (List.nodup_append.mp distinct).2.2 item finished item List.mem_cons_self rfl

end

/-- In every run in which the face of a batch is not found only when no other command of the batch is
in flight, the queue is orderly in every state reached, and no answer to a finished batch does anything. -/
theorem queue_orderly (readSecond : List Route → Route) (events : List Event)
    (alone : Steps (attempt (step readSecond)) (fun state event => ∀ queue, state = some queue →
      queue.failsAlone event = true) (some initial) events) :
    Along (attempt (step readSecond)) (fun state => ∀ queue, state = some queue → queue.Orderly) (some initial) events ∧
      Steps (attempt (step readSecond)) (fun state event => ∀ queue, state = some queue →
        queue.IgnoresFinished readSecond event) (some initial) events := by
  have always : Along (attempt (step readSecond)) (fun state => ∀ queue, state = some queue →
      queue.Numbered ∧ queue.Working) (some initial) events := by
    refine along_of_steps ?_ ?_ alone
    · intro state event good admitted next stepped
      obtain ⟨queue,here,stepped⟩ := Option.bind_eq_some_iff.mp stepped
      obtain ⟨numbered,working⟩ := good queue here
      exact step_working numbered working (admitted queue here) stepped
    · intro queue here
      obtain rfl := Option.some.inj here
      exact ⟨rfl,Or.inl ⟨⟨rfl,rfl,rfl⟩,rfl⟩⟩
  constructor
  · intro before inside queue here
    obtain ⟨numbered,working⟩ := always before inside queue here
    exact working.orderly numbered
  · refine steps_of_along ?_ always
    intro state event good queue here index answer command next _ found finished
    obtain ⟨numbered,working⟩ := good queue here
    exact absurd finished (working.unfinished numbered (List.mem_of_getElem? found))

def fallback : List Route → Route
  | route :: _ => route
  | [] => ⟨0,0,0,false,false⟩

/-- An update for a face that is gone fails with its last command, and the one behind it succeeds. -/
theorem queue_orderly_last_fails :
    Steps (attempt (step fallback)) (fun state event => ∀ queue, state = some queue → queue.failsAlone event = true)
      (some initial) [.beginApplyUpdate (.register [[97],[98]] ⟨2,0,5,false,false⟩),.reply 0 .success,
        .beginApplyUpdate (.register [[97]] ⟨1,0,10,true,false⟩),.beginApplyUpdate (.register [[99]] ⟨2,0,1,false,false⟩),
        .reply 1 .success,.reply 0 .faceNotFound,.reply 0 .success] ∧
    Along (attempt (step fallback)) (fun state => ∀ queue, state = some queue → queue.Orderly)
      (some initial) [.beginApplyUpdate (.register [[97],[98]] ⟨2,0,5,false,false⟩),.reply 0 .success,
        .beginApplyUpdate (.register [[97]] ⟨1,0,10,true,false⟩),.beginApplyUpdate (.register [[99]] ⟨2,0,1,false,false⟩),
        .reply 1 .success,.reply 0 .faceNotFound,.reply 0 .success] := by
  have decided : Steps (attempt (step fallback)) (fun state event =>
      (state.all fun queue => queue.failsAlone event) = true)
      (some initial) [.beginApplyUpdate (.register [[97],[98]] ⟨2,0,5,false,false⟩),.reply 0 .success,
        .beginApplyUpdate (.register [[97]] ⟨1,0,10,true,false⟩),.beginApplyUpdate (.register [[99]] ⟨2,0,1,false,false⟩),
        .reply 1 .success,.reply 0 .faceNotFound,.reply 0 .success] := by decide +kernel
  have alone : Steps (attempt (step fallback)) (fun state event => ∀ queue, state = some queue →
      queue.failsAlone event = true)
      (some initial) [.beginApplyUpdate (.register [[97],[98]] ⟨2,0,5,false,false⟩),.reply 0 .success,
        .beginApplyUpdate (.register [[97]] ⟨1,0,10,true,false⟩),.beginApplyUpdate (.register [[99]] ⟨2,0,1,false,false⟩),
        .reply 1 .success,.reply 0 .faceNotFound,.reply 0 .success] := by
    intro before event inside queue here
    have held := decided before event inside
    rw [here] at held
    exact held
  exact ⟨alone,(queue_orderly fallback _ alone).1⟩

/-- Two commands of one batch find that its face is gone, and the update fails twice. -/
theorem update_fails_twice :
    ¬∀ (readSecond : List Route → Route) (events : List Event),
      Along (attempt (step readSecond)) (fun state => ∀ queue, state = some queue → queue.Orderly)
        (some initial) events := by
  intro always
  have last := always fallback [.beginApplyUpdate (.register [[97],[98]] ⟨2,0,5,false,false⟩),.reply 0 .success,
    .beginApplyUpdate (.register [[97]] ⟨1,0,10,true,false⟩),.reply 0 .faceNotFound,.reply 0 .faceNotFound] _
    List.prefix_rfl
  have evaluated : (run (attempt (step fallback)) (some initial)
      [.beginApplyUpdate (.register [[97],[98]] ⟨2,0,5,false,false⟩),.reply 0 .success,
        .beginApplyUpdate (.register [[97]] ⟨1,0,10,true,false⟩),.reply 0 .faceNotFound,.reply 0 .faceNotFound]).map
      (fun queue => (queue.queued.length,queue.outcomes.length)) = some (2,3) := by decide +kernel
  obtain ⟨queue,here,sizes⟩ := Option.map_eq_some_iff.mp evaluated
  obtain ⟨queued,outcomes⟩ := Prod.mk.inj sizes
  obtain ⟨current,divided⟩ := (last queue here).divided
  have counted := congrArg List.length divided
  rw [queued,List.length_append,List.length_map,outcomes] at counted
  omega

end UpdateQueue

end Ncfcc.Nfd
