import Ncfcc.Library.Scheduler
import Ncfcc.Nfd.Rib.UpdateQueue

/-! Expiration events of routes. A route carries the id of its event, and copies of the route
carry the same id: the copy on which an unregistration is computed cancels the event of the
route in the RIB, before any command was answered. -/
namespace Ncfcc.Nfd
open FibUpdater Library

/-- The pending expiration events with what they unregister, the ids in the routes of the
RIB by name, face and origin, and those in the routes of queued updates. -/
structure Expirations where
  scheduler : Scheduler (Name × Route)
  expirationEvent : Name → Nat → Nat → Option Nat
  queuedEvent : Nat → Option Nat

namespace Expirations

def cancel (expirations : Expirations) (name : Name) (route : Route) : Expirations :=
  {expirations with
    scheduler := expirations.scheduler.cancel (expirations.expirationEvent name route.faceId route.origin)}

def setExpirationEvent (expirations : Expirations) (name : Name) (route : Route) (event : Option Nat) : Expirations :=
  {expirations with expirationEvent := fun other faceId origin =>
    if other = name ∧ faceId = route.faceId ∧ origin = route.origin then event
    else expirations.expirationEvent other faceId origin}

/-- What `eraseRoute` does for an entry or a copy of it, and an insertion for an existing route. -/
def cancelExisting (expirations : Expirations) (rib : Rib) (name : Name) (route : Route) : Expirations :=
  match (rib.find name).bind fun entry => entry.findRoute route with
  | none => expirations
  | some existing => expirations.cancel name existing

/-- The copy of an entry from which the route is erased before its FIB updates are created. -/
def computeUpdates (expirations : Expirations) (rib : Rib) : RibUpdate → Expirations
  | .register _ _ => expirations
  | .unregister name route => expirations.cancelExisting rib name route
  | .removeFace name route => expirations.cancelExisting rib name route

/-- `Rib::insert` and `Rib::erase`. -/
def change (expirations : Expirations) (rib : Rib) (item : UpdateQueueItem) : Expirations :=
  match item.update with
  | .register name route =>
    (expirations.cancelExisting rib name route).setExpirationEvent name route (expirations.queuedEvent item.number)
  | .unregister name route => (expirations.cancelExisting rib name route).setExpirationEvent name route none
  | .removeFace name route => (expirations.cancelExisting rib name route).setExpirationEvent name route none

end Expirations

structure ExpiringQueue where
  queue : UpdateQueue
  expirations : Expirations

namespace ExpiringQueue

def initial (now : Int) (nextId : Nat) : ExpiringQueue :=
  ⟨.initial,⟨.initial now nextId,fun _ _ _ => none,fun _ => none⟩⟩

def runCallback (state : ExpiringQueue) (callback : Callback) : Option ExpiringQueue :=
  (state.queue.runCallback callback).map fun queue =>
    match callback with
    | .onSuccess item _ => ⟨queue,state.expirations.change state.queue.rib item⟩
    | .onFailure _ => ⟨queue,state.expirations⟩

def sendBatches (readSecond : List Route → Route) : List UpdateQueueItem → ExpiringQueue → Option ExpiringQueue
  | [],state => some {state with queue := {state.queue with updateBatches := []}}
  | item :: rest,state =>
    if state.queue.isUpdateInProgress then
      some {state with queue := {state.queue with updateBatches := item :: rest}}
    else
      (UpdateQueue.computeAndSendFibUpdates readSecond state.queue.rib state.queue.updater item).bind fun sent =>
        let state : ExpiringQueue :=
          ⟨{state.queue with updater := sent.1,isUpdateInProgress := true,updateBatches := rest},
            state.expirations.computeUpdates state.queue.rib item.update⟩
        match sent.2 with
        | none => some state
        | some callback => (state.runCallback callback).bind (sendBatches readSecond rest)

def sendBatchFromQueue (readSecond : List Route → Route) (state : ExpiringQueue) : Option ExpiringQueue :=
  sendBatches readSecond state.queue.updateBatches state

def beginApplyUpdate (readSecond : List Route → Route) (state : ExpiringQueue) (update : RibUpdate) :
    Option ExpiringQueue :=
  sendBatchFromQueue readSecond {state with queue := state.queue.addUpdateToQueue update}

/-- `registerEntry` from the construction of the route on. The event is scheduled before the
route is given its id, so that it unregisters a route without one. -/
def registerEntry (readSecond : List Route → Route) (state : ExpiringQueue) (name : Name) (route : Route)
    (expirationPeriod : Option Int) : Option ExpiringQueue :=
  match expirationPeriod with
  | none => state.beginApplyUpdate readSecond (.register name route)
  | some period =>
    let expirations := state.expirations
    let scheduled : ExpiringQueue :=
      {state with expirations := {expirations with
        scheduler := expirations.scheduler.schedule period (name,route)
        queuedEvent := fun number =>
          if number = state.queue.queued.length then some expirations.scheduler.nextId
          else expirations.queuedEvent number}}
    scheduled.beginApplyUpdate readSecond (.register name route)

def onRouteExpiration (readSecond : List Route → Route) (state : ExpiringQueue) : Option ExpiringQueue :=
  match state.expirations.scheduler.next with
  | none => some state
  | some event =>
    let expirations := {state.expirations with scheduler := state.expirations.scheduler.fire event}
    beginApplyUpdate readSecond {state with expirations} (.unregister event.callback.1 event.callback.2)

inductive Event where
  | registerEntry (name : Name) (route : Route) (expirationPeriod : Option Int)
  | unregisterEntry (name : Name) (route : Route)
  | beginRemoveFace (faceId : Nat)
  | onRouteExpiration
  | reply (index : Nat) (answer : Answer)
  deriving DecidableEq

def reply (readSecond : List Route → Route) (state : ExpiringQueue) (index : Nat) (answer : Answer) :
    Option ExpiringQueue :=
  (state.queue.updater.reply index answer).bind fun replied =>
    let state := {state with queue := {state.queue with updater := replied.1}}
    match replied.2 with
    | none => some state
    | some callback => (state.runCallback callback).bind (sendBatchFromQueue readSecond)

def step (readSecond : List Route → Route) (state : ExpiringQueue) : Event → Option ExpiringQueue
  | .registerEntry name route expirationPeriod => state.registerEntry readSecond name route expirationPeriod
  | .unregisterEntry name route => state.beginApplyUpdate readSecond (.unregister name route)
  | .beginRemoveFace faceId => sendBatchFromQueue readSecond {state with
      queue := (state.queue.rib.findRoutesWithFaceId faceId).foldl (fun queue item =>
        queue.addUpdateToQueue (.removeFace item.1 item.2)) state.queue}
  | .onRouteExpiration => state.onRouteExpiration readSecond
  | .reply index answer => state.reply readSecond index answer

def Pends (state : ExpiringQueue) (name : Name) (route : Route) : Prop :=
  ∃ existing, ((state.queue.rib.find name).bind fun entry => entry.findRoute route) = some existing ∧
    ∃ event ∈ state.expirations.scheduler.pending,
      state.expirations.expirationEvent name existing.faceId existing.origin = some event.id

/-! The queue below takes its own steps. -/

def untimed (state : ExpiringQueue) : Event → Option UpdateQueue.Event
  | .registerEntry name route _ => some (.beginApplyUpdate (.register name route))
  | .unregisterEntry name route => some (.beginApplyUpdate (.unregister name route))
  | .beginRemoveFace faceId => some (.beginRemoveFace faceId)
  | .onRouteExpiration => state.expirations.scheduler.next.map fun event =>
      .beginApplyUpdate (.unregister event.callback.1 event.callback.2)
  | .reply index answer => some (.reply index answer)

section
variable {readSecond : List Route → Route}

private theorem runCallback_queue (state : ExpiringQueue) (callback : Callback) {next : ExpiringQueue → Option ExpiringQueue}
    {below : UpdateQueue → Option UpdateQueue} (same : ∀ after, (next after).map queue = below after.queue) :
    ((state.runCallback callback).bind next).map queue = (state.queue.runCallback callback).bind below := by
  unfold runCallback
  cases state.queue.runCallback callback with
  | none => rfl
  | some queue => cases callback <;> exact same _

private theorem sendBatches_queue (items : List UpdateQueueItem) (state : ExpiringQueue) :
    (sendBatches readSecond items state).map ExpiringQueue.queue =
      UpdateQueue.sendBatches readSecond items state.queue := by
  induction items generalizing state with
  | nil => rfl
  | cons item rest ih =>
    unfold sendBatches UpdateQueue.sendBatches
    split
    · rfl
    · rw [Option.map_bind]
      congr 1
      funext sent
      cases answer : sent.2 with
      | none => simp [answer]
      | some callback =>
        simp only [Function.comp_apply,answer]
        exact runCallback_queue _ callback ih

private theorem step_queue (state : ExpiringQueue) (event : Event) :
    (state.step readSecond event).map ExpiringQueue.queue =
      match state.untimed event with
      | none => some state.queue
      | some below => state.queue.step readSecond below := by
  cases event with
  | registerEntry name route period => cases period <;> exact sendBatches_queue _ _
  | unregisterEntry name route => exact sendBatches_queue _ _
  | beginRemoveFace faceId => exact sendBatches_queue _ _
  | onRouteExpiration =>
    simp only [step,onRouteExpiration,untimed]
    cases state.expirations.scheduler.next with
    | none => rfl
    | some event => exact sendBatches_queue _ _
  | reply index answer =>
    simp only [step,reply,untimed,UpdateQueue.step]
    rw [Option.map_bind]
    congr 1
    funext replied
    cases report : replied.2 with
    | none => simp [report]
    | some callback =>
      simp only [Function.comp_apply,report]
      exact runCallback_queue _ callback fun after => sendBatches_queue _ after

/-! An update without its commands. -/

def Drained (queue : UpdateQueue) : Prop := queue.isUpdateInProgress = false → queue.updateBatches = []

private theorem sendBatches_drained (items : List UpdateQueueItem) {queue next : UpdateQueue}
    (sent : UpdateQueue.sendBatches readSecond items queue = some next) : Drained next := by
  induction items generalizing queue with
  | nil =>
    obtain rfl := Option.some.inj sent
    exact fun _ => rfl
  | cons item rest ih =>
    unfold UpdateQueue.sendBatches at sent
    split at sent
    · rename_i busy
      obtain rfl := Option.some.inj sent
      intro free
      exact absurd (busy.symm.trans free) (by decide)
    · obtain ⟨⟨updater,callback⟩,-,sent⟩ := Option.bind_eq_some_iff.mp sent
      cases callback with
      | none =>
        obtain rfl := Option.some.inj sent
        intro free
        cases free
      | some callback =>
        obtain ⟨after,-,sent⟩ := Option.bind_eq_some_iff.mp sent
        exact ih sent

private theorem step_drained {queue next : UpdateQueue} {event : UpdateQueue.Event} (drained : Drained queue)
    (stepped : queue.step readSecond event = some next) : Drained next := by
  cases event with
  | beginApplyUpdate update => exact sendBatches_drained _ stepped
  | beginRemoveFace faceId => exact sendBatches_drained _ stepped
  | reply index answer =>
    obtain ⟨⟨updater,callback⟩,-,stepped⟩ := Option.bind_eq_some_iff.mp stepped
    cases callback with
    | none =>
      obtain rfl := Option.some.inj stepped
      exact drained
    | some callback =>
      obtain ⟨after,-,sent⟩ := Option.bind_eq_some_iff.mp stepped
      exact sendBatches_drained _ sent

private theorem reached_drained {now : Int} {nextId : Nat} {events : List Event} {state : ExpiringQueue}
    (reached : run (attempt (step readSecond)) (some (initial now nextId)) events = some state) :
    Drained state.queue := by
  refine attempt_invariant (P := fun state => Drained state.queue) ?_ (fun _ => rfl) reached
  intro before event after drained stepped
  have below := congrArg (Option.map queue) stepped
  rw [step_queue,Option.map_some] at below
  cases kind : before.untimed event with
  | none =>
    rw [kind] at below
    rw [← Option.some.inj below]
    exact drained
  | some made =>
    rw [kind] at below
    exact step_drained drained below

/-! Batches that fail. -/

private theorem reply_quiet {state : ExpiringQueue} (quiet : state.queue.updater.inFlight = []) (index : Nat) (answer : Answer) :
    state.reply readSecond index answer = some state := by
  simp [reply,Updater.reply,quiet]

private theorem sendBatches_busy (state : ExpiringQueue) (busy : state.queue.isUpdateInProgress = true)
    (items : List UpdateQueueItem) : sendBatches readSecond items state =
      some {state with queue := {state.queue with updateBatches := items}} := by
  cases items with
  | nil => rfl
  | cons item rest =>
    unfold sendBatches
    rw [if_pos busy]

/-- With no batch waiting, an answer changes the RIB and the events only by a success. -/
theorem reply_outcomes {state next : ExpiringQueue} {index : Nat} {answer : Answer}
    (empty : state.queue.updateBatches = []) (replied : state.reply readSecond index answer = some next) :
    next.queue.updateBatches = [] ∧ ∃ more, next.queue.outcomes = state.queue.outcomes ++ more ∧
      ((∀ outcome ∈ more, outcome.2 = false) →
        next.queue.rib = state.queue.rib ∧ next.expirations = state.expirations) := by
  obtain ⟨⟨updater,callback⟩,-,replied⟩ := Option.bind_eq_some_iff.mp replied
  cases callback with
  | none =>
    obtain rfl := Option.some.inj replied
    exact ⟨empty,[],(List.append_nil _).symm,fun _ => ⟨rfl,rfl⟩⟩
  | some callback =>
    obtain ⟨after,ran,sent⟩ := Option.bind_eq_some_iff.mp replied
    obtain ⟨queue,below,rfl⟩ := Option.map_eq_some_iff.mp ran
    cases callback with
    | onSuccess item routes =>
      obtain ⟨rib,-,rfl⟩ := Option.map_eq_some_iff.mp below
      unfold sendBatchFromQueue at sent
      simp only [empty,sendBatches,Option.some.injEq] at sent
      subst sent
      refine ⟨rfl,[(item,true)],rfl,?_⟩
      intro failed
      exact absurd (failed _ (List.mem_singleton_self _)) (by simp)
    | onFailure item =>
      obtain rfl := Option.some.inj below
      unfold sendBatchFromQueue at sent
      simp only [empty,sendBatches,Option.some.injEq] at sent
      subst sent
      exact ⟨rfl,[(item,false)],rfl,fun _ => ⟨rfl,rfl⟩⟩

def answers (replies : List (Nat × Answer)) : List Event := replies.map fun answered => .reply answered.1 answered.2

private theorem replies_outcomes (replies : List (Nat × Answer)) {state last : ExpiringQueue}
    (empty : state.queue.updateBatches = [])
    (ran : run (attempt (step readSecond)) (some state) (answers replies) = some last) :
    ∃ more, last.queue.outcomes = state.queue.outcomes ++ more ∧
      ((∀ outcome ∈ more, outcome.2 = false) →
        last.queue.rib = state.queue.rib ∧ last.expirations = state.expirations) := by
  induction replies generalizing state with
  | nil =>
    obtain rfl := Option.some.inj ran
    exact ⟨[],(List.append_nil _).symm,fun _ => ⟨rfl,rfl⟩⟩
  | cons answered replies ih =>
    rw [answers,List.map_cons,run_cons] at ran
    cases stepped : state.reply readSecond answered.1 answered.2 with
    | none =>
      rw [show attempt (step readSecond) (some state) (.reply answered.1 answered.2) = none from stepped,
        run_attempt_none] at ran
      cases ran
    | some next =>
      rw [show attempt (step readSecond) (some state) (.reply answered.1 answered.2) = some next from stepped] at ran
      obtain ⟨still,first,grown,kept⟩ := reply_outcomes empty stepped
      obtain ⟨more,final,keeps⟩ := ih still ran
      refine ⟨first ++ more,by rw [final,grown,List.append_assoc],?_⟩
      intro failed
      obtain ⟨rib,events⟩ := kept fun outcome inside => failed outcome (List.mem_append_left more inside)
      obtain ⟨rest,later⟩ := keeps fun outcome inside => failed outcome (List.mem_append_right first inside)
      exact ⟨rest.trans rib,later.trans events⟩

private theorem replies_quiet (state : ExpiringQueue) (replies : List (Nat × Answer))
    (quiet : state.queue.updater.inFlight = []) :
    run (attempt (step readSecond)) (some state) (answers replies) = some state := by
  induction replies with
  | nil => rfl
  | cons answered replies ih =>
    rw [answers,List.map_cons,run_cons]
    rw [show attempt (step readSecond) (some state) (.reply answered.1 answered.2) = some state from
      reply_quiet quiet answered.1 answered.2]
    exact ih

/-- A batch that is sent from an empty queue with no command in flight has commands, and the RIB
and the outcomes are left as they are, or it succeeds at once. -/
theorem beginApplyUpdate_sends {state sent : ExpiringQueue} {update : RibUpdate}
    (free : state.queue.isUpdateInProgress = false) (empty : state.queue.updateBatches = [])
    (quiet : state.queue.updater.inFlight = []) (began : state.beginApplyUpdate readSecond update = some sent) :
    sent.queue.updateBatches = [] ∧
      ((sent.queue.outcomes = state.queue.outcomes ∧ sent.queue.rib = state.queue.rib ∧
          sent.expirations = state.expirations.computeUpdates state.queue.rib update) ∨
        sent.queue.outcomes = state.queue.outcomes ++ [(⟨state.queue.queued.length,update⟩,true)]) := by
  unfold beginApplyUpdate sendBatchFromQueue UpdateQueue.addUpdateToQueue at began
  simp only [empty,List.nil_append,sendBatches,free] at began
  obtain ⟨⟨updater,callback⟩,computed,began⟩ := Option.bind_eq_some_iff.mp began
  obtain ⟨-,report⟩ := UpdateQueue.computeAndSendFibUpdates_spec quiet computed
  dsimp only at began report
  split at report
  · rw [report] at began
    obtain ⟨after,ran,began⟩ := Option.bind_eq_some_iff.mp began
    obtain ⟨queue,below,rfl⟩ := Option.map_eq_some_iff.mp ran
    obtain ⟨rib,-,rfl⟩ := Option.map_eq_some_iff.mp below
    obtain rfl := Option.some.inj began
    exact ⟨rfl,Or.inr rfl⟩
  · rw [report] at began
    obtain rfl := Option.some.inj began
    exact ⟨rfl,Or.inl ⟨rfl,rfl,rfl⟩⟩

/-- An unregistration that fails has computed its updates and done nothing else. -/
theorem failed_computes {state failed : ExpiringQueue} {update : RibUpdate} {replies : List (Nat × Answer)}
    (drained : Drained state.queue) (quiet : state.queue.updater.inFlight = [])
    (ran : (state.beginApplyUpdate readSecond update).bind (fun sent =>
      run (attempt (step readSecond)) (some sent) (answers replies)) = some failed)
    (fails : failed.queue.outcomes = state.queue.outcomes ++ [(⟨state.queue.queued.length,update⟩,false)]) :
    failed.queue.rib = state.queue.rib ∧
      failed.expirations = state.expirations.computeUpdates state.queue.rib update := by
  obtain ⟨sent,began,ran⟩ := Option.bind_eq_some_iff.mp ran
  cases progress : state.queue.isUpdateInProgress with
  | true =>
    -- The update waits for a batch that gets no answers.
    have waits : state.beginApplyUpdate readSecond update =
        some {state with queue := state.queue.addUpdateToQueue update} := by
      exact sendBatches_busy ⟨state.queue.addUpdateToQueue update,state.expirations⟩ progress _
    obtain rfl := Option.some.inj (waits.symm.trans began)
    rw [replies_quiet ⟨state.queue.addUpdateToQueue update,state.expirations⟩ replies quiet] at ran
    obtain rfl := Option.some.inj ran
    exact absurd fails (by simp [UpdateQueue.addUpdateToQueue])
  | false =>
    obtain ⟨still,sends⟩ := beginApplyUpdate_sends progress (drained progress) quiet began
    obtain ⟨more,final,keeps⟩ := replies_outcomes replies still ran
    rcases sends with ⟨outcomes,rib,expirations⟩ | succeeded
    · rw [outcomes] at final
      obtain rfl := List.append_cancel_left (fails.symm.trans final)
      obtain ⟨sameRib,same⟩ := keeps (by simp)
      exact ⟨sameRib.trans rib,same.trans expirations⟩
    · rw [succeeded,fails,List.append_assoc,List.append_cancel_left_eq] at final
      simp at final

end

private theorem cancelExisting_iff (state : ExpiringQueue) (name : Name) (route : Route) :
    (state.expirations.cancelExisting state.queue.rib name route).scheduler.pending =
      state.expirations.scheduler.pending ↔ ¬ state.Pends name route := by
  unfold Expirations.cancelExisting Pends
  cases (state.queue.rib.find name).bind fun entry => entry.findRoute route with
  | none => simp
  | some existing =>
    simp only [Expirations.cancel,Scheduler.cancel,List.filter_eq_self,Option.some.injEq,exists_eq_left',
      decide_eq_true_eq,not_exists,not_and]
    constructor
    · intro kept event inside same
      exact kept event inside same.symm
    · intro apart event inside same
      exact apart event inside same.symm

/-- From a state without commands in flight, an unregistration that fails leaves the RIB as it
was, and the pending expiration events exactly when that of its route was not pending. -/
theorem failed_unregistration_iff (readSecond : List Route → Route) (now : Int) (nextId : Nat) (events : List Event)
    (state : ExpiringQueue)
    (reached : run (attempt (step readSecond)) (some (initial now nextId)) events = some state)
    (quiet : state.queue.updater.inFlight = []) (name : Name) (route : Route) (replies : List (Nat × Answer))
    (failed : ExpiringQueue)
    (ran : run (attempt (step readSecond)) (some state) (.unregisterEntry name route :: answers replies) = some failed)
    (fails : failed.queue.outcomes =
      state.queue.outcomes ++ [(⟨state.queue.queued.length,.unregister name route⟩,false)]) :
    failed.queue.rib = state.queue.rib ∧
      (failed.expirations.scheduler.pending = state.expirations.scheduler.pending ↔ ¬ state.Pends name route) := by
  rw [run_cons] at ran
  have split : (state.beginApplyUpdate readSecond (.unregister name route)).bind (fun sent =>
      run (attempt (step readSecond)) (some sent) (answers replies)) = some failed := by
    cases began : state.beginApplyUpdate readSecond (.unregister name route) with
    | none =>
      rw [show attempt (step readSecond) (some state) (.unregisterEntry name route) = none from began,
        run_attempt_none] at ran
      cases ran
    | some sent =>
      rw [show attempt (step readSecond) (some state) (.unregisterEntry name route) = some sent from began] at ran
      exact ran
  obtain ⟨rib,expirations⟩ := failed_computes (reached_drained reached) quiet split fails
  rw [expirations]
  exact ⟨rib,cancelExisting_iff state name route⟩

def failing (expirationPeriod : Option Int) : List Event :=
  [.registerEntry [[97]] ⟨1,0,10,true,false⟩ expirationPeriod,.reply 0 .success,
    .unregisterEntry [[97]] ⟨1,0,0,false,false⟩,.reply 0 .faceNotFound]

def summary (state : ExpiringQueue) : List Command × List (UpdateQueueItem × Bool) × Nat × List Nat :=
  (state.queue.updater.inFlight,state.queue.outcomes,state.queue.queued.length,
    state.expirations.scheduler.pending.map Scheduled.id)

theorem failed_unregistration_unscheduled :
    ∃ state failed, run (attempt (step UpdateQueue.fallback)) (some (initial 0 0)) ((failing none).take 2) = some state ∧
      run (attempt (step UpdateQueue.fallback)) (some state)
        (.unregisterEntry [[97]] ⟨1,0,0,false,false⟩ :: answers [(0,.faceNotFound)]) = some failed ∧
      failed.queue.rib = state.queue.rib ∧ (failed.expirations.scheduler.pending =
        state.expirations.scheduler.pending ↔ ¬ state.Pends [[97]] ⟨1,0,0,false,false⟩) := by
  have first : (run (attempt (step UpdateQueue.fallback)) (some (initial 0 0)) ((failing none).take 2)).map summary =
      some ([],[(⟨0,.register [[97]] ⟨1,0,10,true,false⟩⟩,true)],1,[]) := by decide +kernel
  have whole : (run (attempt (step UpdateQueue.fallback)) (some (initial 0 0)) (failing none)).map summary =
      some ([],[(⟨0,.register [[97]] ⟨1,0,10,true,false⟩⟩,true),
        (⟨1,.unregister [[97]] ⟨1,0,0,false,false⟩⟩,false)],2,[]) := by decide +kernel
  obtain ⟨state,reached,here⟩ := Option.map_eq_some_iff.mp first
  obtain ⟨failed,ran,there⟩ := Option.map_eq_some_iff.mp whole
  rw [← List.take_append_drop 2 (failing none),run_append,reached] at ran
  simp only [summary,Prod.mk.injEq] at here there
  obtain ⟨quiet,before,queued,-⟩ := here
  refine ⟨state,failed,reached,ran,?_⟩
  refine failed_unregistration_iff UpdateQueue.fallback 0 0 _ state reached quiet [[97]] ⟨1,0,0,false,false⟩
    [(0,.faceNotFound)] failed ran ?_
  rw [there.2.1,before,queued]
  rfl

/-- The route was to expire after ten seconds, and does not any more. -/
theorem failed_unregistration_cancels :
    ¬∀ (readSecond : List Route → Route) (now : Int) (nextId : Nat) (events : List Event) (state : ExpiringQueue),
      run (attempt (step readSecond)) (some (initial now nextId)) events = some state →
      state.queue.updater.inFlight = [] →
      ∀ (name : Name) (route : Route) (replies : List (Nat × Answer)) (failed : ExpiringQueue),
        run (attempt (step readSecond)) (some state) (.unregisterEntry name route :: answers replies) = some failed →
        failed.queue.outcomes =
          state.queue.outcomes ++ [(⟨state.queue.queued.length,.unregister name route⟩,false)] →
        failed.expirations.scheduler.pending = state.expirations.scheduler.pending := by
  intro always
  have first : (run (attempt (step UpdateQueue.fallback)) (some (initial 0 0))
      ((failing (some 10000000000)).take 2)).map summary =
      some ([],[(⟨0,.register [[97]] ⟨1,0,10,true,false⟩⟩,true)],1,[0]) := by decide +kernel
  have whole : (run (attempt (step UpdateQueue.fallback)) (some (initial 0 0))
      (failing (some 10000000000))).map summary = some ([],[(⟨0,.register [[97]] ⟨1,0,10,true,false⟩⟩,true),
        (⟨1,.unregister [[97]] ⟨1,0,0,false,false⟩⟩,false)],2,[]) := by decide +kernel
  obtain ⟨state,reached,here⟩ := Option.map_eq_some_iff.mp first
  obtain ⟨failed,ran,there⟩ := Option.map_eq_some_iff.mp whole
  rw [← List.take_append_drop 2 (failing _),run_append,reached] at ran
  simp only [summary,Prod.mk.injEq] at here there
  obtain ⟨quiet,before,queued,pending⟩ := here
  have fails : failed.queue.outcomes = state.queue.outcomes ++
      [(⟨state.queue.queued.length,.unregister [[97]] ⟨1,0,0,false,false⟩⟩,false)] := by
    rw [there.2.1,before,queued]
    rfl
  have same := always UpdateQueue.fallback 0 0 _ state reached quiet [[97]] ⟨1,0,0,false,false⟩
    [(0,.faceNotFound)] failed ran fails
  rw [← same,there.2.2.2] at pending
  cases pending

end ExpiringQueue

end Ncfcc.Nfd
