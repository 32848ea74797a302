import Ncfcc.Library.KeyedList
import Ncfcc.Library.Run
import Ncfcc.Library.TaskOrder
import Ncfcc.Nfd.Table.InterestMatch

/-! The face of an application. What the application and the forwarder ask of it is put off to
an event of the simulator; an Interest is pending until matching Data come, its timer
expires, or it is taken back. -/
namespace Ncfcc.NdnCxx
open Ncfcc.Library
open Ncfcc.Cs (milliSeconds)
open Ncfcc.Nfd.Table (Interest Data)

/-- The regular expression is given by what it matches. -/
structure InterestFilter where
  pattern : Ncfcc.Name
  regexFilter : Option (Ncfcc.Name → Bool)

def InterestFilter.doesMatch (filter : InterestFilter) (name : Ncfcc.Name) : Bool :=
  if name.length < filter.pattern.length then false
  else
    match filter.regexFilter with
    | some isMatch => filter.pattern.isPrefixOf name && isMatch (name.drop filter.pattern.length)
    | none => filter.pattern.isPrefixOf name

/-- The id of a record is its address. -/
structure InterestFilterRecord where
  id : Nat
  filter : InterestFilter

/-- What the application asks of the face, and then what the forwarder does. The id of an
Interest is the address of the copy that `expressInterest` makes. -/
inductive Call
  | expressInterest (id : Nat) (interest : Interest) (hasOnTimeout : Bool)
  | removePendingInterest (pendingInterestId : Nat)
  | put (data : Data)
  | setInterestFilter (record : InterestFilterRecord)
  | unsetInterestFilter (interestFilterId : Nat)
  | shutdown
  | sendInterest (interest : Interest)
  | sendData (data : Data)

/-- Calls and timers, the latter with the number of their pending Interest. -/
inductive Task
  | call (call : Call)
  | invokeTimeoutCallback (number : Nat)

def Task.isCall : Task → Bool
  | .call _ => true
  | .invokeTimeoutCallback _ => false

/-- An Interest that was expressed, with the number and the time of the event that was
scheduled for it. -/
structure Request where
  number : Nat
  time : Int
  id : Nat
  interest : Interest
  hasOnTimeout : Bool

def Request.ofEvent (event : Scheduled Task) : Option Request :=
  match event.callback with
  | .call (.expressInterest id interest hasOnTimeout) => some ⟨event.id,event.due,id,interest,hasOnTimeout⟩
  | _ => none

def Request.asked (request : Request) : Nat × Interest × Bool := (request.id,request.interest,request.hasOnTimeout)

def Call.asked : Call → Option (Nat × Interest × Bool)
  | .expressInterest id interest hasOnTimeout => some (id,interest,hasOnTimeout)
  | _ => none

def defaultInterestLifetime : Int := 4000

def Request.lifetime (request : Request) : Int :=
  milliSeconds (if 0 < request.interest.interestLifetime then request.interest.interestLifetime else defaultInterestLifetime)

def Request.deadline (request : Request) : Int := request.time + request.lifetime

structure PendingInterest where
  request : Request
  timeoutEvent : Nat

/-- What becomes of a request: `onData` is called, or `onTimeout` if it is given, or nothing
when it is removed by a call with that number and id, or when the face is shut down. -/
inductive Outcome
  | data (data : Data)
  | timeout
  | removed (call pendingInterestId : Nat)
  | cleared

structure Ended where
  request : Request
  outcome : Outcome
  time : Int

/-- Data match and come in time, the timer expires on time, and a request is removed by its id
and by a call that was made after it. -/
def Ended.Right (ended : Ended) : Prop :=
  match ended.outcome with
  | .data data => ended.request.interest.matchesData data = true ∧ ended.time ≤ ended.request.deadline
  | .timeout => ended.time = ended.request.deadline
  | .removed call pendingInterestId =>
    ended.request.id = pendingInterestId ∧ ended.request.number < call ∧ ended.time ≤ ended.request.deadline
  | .cleared => ended.time ≤ ended.request.deadline

inductive Packet
  | interest (interest : Interest)
  | data (data : Data)

structure Face where
  scheduler : Scheduler Task
  pendingInterestTable : List PendingInterest
  interestFilterTable : List InterestFilterRecord
  isClosed : Bool
  /-- What went to the forwarder. -/
  emitted : List Packet
  /-- The filters whose callbacks were invoked, with the Interests. -/
  invoked : List (InterestFilterRecord × Interest)
  ended : List Ended
  /-- The calls that were carried out. -/
  executed : List Call

structure Effects where
  interestFilterTable : List InterestFilterRecord
  isClosed : Bool
  emitted : List Packet
  invoked : List (InterestFilterRecord × Interest)

def Effects.perform (effects : Effects) : Call → Effects
  | .expressInterest _ interest _ => {effects with emitted := effects.emitted ++ [.interest interest]}
  | .put data => {effects with emitted := effects.emitted ++ [.data data]}
  | .setInterestFilter record => {effects with interestFilterTable := effects.interestFilterTable ++ [record]}
  | .unsetInterestFilter id => {effects with interestFilterTable := effects.interestFilterTable.eraseP (·.id == id)}
  | .shutdown => {effects with isClosed := true}
  | .sendInterest interest =>
    let matching := effects.interestFilterTable.filter fun record => record.filter.doesMatch interest.name
    {effects with invoked := effects.invoked ++ matching.map fun record => (record,interest)}
  | .removePendingInterest _ => effects
  | .sendData _ => effects

namespace Face

def new (now : Int) : Face := ⟨.initial now 0,[],[],false,[],[],[],[]⟩

def erase (face : Face) (entry : PendingInterest) (outcome : Outcome) : Face :=
  { face with
    scheduler := face.scheduler.cancel (some entry.timeoutEvent)
    pendingInterestTable := face.pendingInterestTable.eraseP fun other => other.request.number = entry.request.number
    ended := face.ended ++ [⟨entry.request,outcome,face.scheduler.now⟩] }

def eraseIf (meets : Request → Bool) (outcome : Outcome) (face : Face) : Face :=
  face.pendingInterestTable.foldl (fun face entry => if meets entry.request then face.erase entry outcome else face) face

def satisfyPendingInterests (face : Face) (data : Data) : Face :=
  face.eraseIf (fun request => request.interest.matchesData data) (.data data)

def processInterestFilters (face : Face) (interest : Interest) : Face :=
  { face with invoked := face.invoked ++
      (face.interestFilterTable.filter fun record => record.filter.doesMatch interest.name).map fun record => (record,interest) }

def asyncExpressInterest (face : Face) (request : Request) : Face :=
  { face with
    scheduler := face.scheduler.schedule request.lifetime (.invokeTimeoutCallback request.number)
    pendingInterestTable := face.pendingInterestTable ++ [⟨request,face.scheduler.nextId⟩]
    emitted := face.emitted ++ [.interest request.interest] }

def asyncRemovePendingInterest (face : Face) (call pendingInterestId : Nat) : Face :=
  face.eraseIf (fun request => request.id == pendingInterestId) (.removed call pendingInterestId)

def asyncPutData (face : Face) (data : Data) : Face := {face with emitted := face.emitted ++ [.data data]}

def asyncSetInterestFilter (face : Face) (record : InterestFilterRecord) : Face :=
  {face with interestFilterTable := face.interestFilterTable ++ [record]}

def asyncUnsetInterestFilter (face : Face) (interestFilterId : Nat) : Face :=
  {face with interestFilterTable := face.interestFilterTable.eraseP fun record => record.id == interestFilterId}

def asyncShutdown (face : Face) : Face := {face.eraseIf (fun _ => true) .cleared with isClosed := true}

/-- There is no behaviour for the timer of a pending Interest that was destroyed. -/
def invokeTimeoutCallback (face : Face) (number : Nat) : Option Face :=
  (face.pendingInterestTable.find? fun entry => entry.request.number = number).map fun entry => face.erase entry .timeout

def execute (face : Face) (event : Scheduled Task) : Option Face :=
  match event.callback with
  | .invokeTimeoutCallback number => face.invokeTimeoutCallback number
  | .call call =>
    let face := {face with executed := face.executed ++ [call]}
    match call with
    | .expressInterest id interest hasOnTimeout =>
      face.asyncExpressInterest ⟨event.id,event.due,id,interest,hasOnTimeout⟩
    | .removePendingInterest pendingInterestId => face.asyncRemovePendingInterest event.id pendingInterestId
    | .put data => face.asyncPutData data
    | .setInterestFilter record => face.asyncSetInterestFilter record
    | .unsetInterestFilter interestFilterId => face.asyncUnsetInterestFilter interestFilterId
    | .shutdown => face.asyncShutdown
    | .sendInterest interest => face.processInterestFilters interest
    | .sendData data => face.satisfyPendingInterests data

def fire (face : Face) : Option Face :=
  face.scheduler.next.bind fun event => {face with scheduler := face.scheduler.fire event}.execute event

inductive FaceEvent
  | call (call : Call)
  | fire
  | advance (time : Int)

def FaceEvent.toCall : FaceEvent → Option Call
  | .call asked => some asked
  | .fire => none
  | .advance _ => none

def step (face : Face) : FaceEvent → Option Face
  | .call call => some {face with scheduler := face.scheduler.schedule 0 (.call call)}
  | .fire => face.fire
  | .advance time => some {face with scheduler := face.scheduler.advance time}

def timer (entry : PendingInterest) : Scheduled Task :=
  ⟨entry.timeoutEvent,entry.request.deadline,.invokeTimeoutCallback entry.request.number⟩

def isTimer (task : Task) : Bool := !task.isCall

/-- The requests that have not ended: those in the table, and those whose call is to come. -/
def openRequests (face : Face) : List Request :=
  face.pendingInterestTable.map PendingInterest.request ++ (face.scheduler.pendingOf Task.isCall).filterMap Request.ofEvent

def requests (face : Face) : List Request := face.openRequests ++ face.ended.map Ended.request

structure Sound (face : Face) : Prop where
  inOrder : face.scheduler.InOrder Task.isCall 0
  timers : face.scheduler.pendingOf isTimer = face.pendingInterestTable.map timer
  numbers : (face.requests.map Request.number).Nodup
  fresh : ∀ request ∈ face.requests, request.number < face.scheduler.nextId
  earlier : ∀ entry ∈ face.pendingInterestTable, ∀ event ∈ face.scheduler.pendingOf Task.isCall,
    entry.request.number < event.id
  right : ∀ ended ∈ face.ended, ended.Right

section
variable {face before after : Face} {entry : PendingInterest} {event : Scheduled Task}

private theorem mem_requests_of_table (inside : entry ∈ face.pendingInterestTable) : entry.request ∈ face.requests :=
  List.mem_append_left _ (List.mem_append_left _ (List.mem_map_of_mem inside))

theorem Sound.table_numbers (sound : face.Sound) :
    (face.pendingInterestTable.map fun entry => entry.request.number).Nodup := by
  have numbers := sound.numbers
  rw [requests,openRequests,List.append_assoc,List.map_append,List.map_map] at numbers
  exact numbers.of_append_left

theorem Sound.timer_mem (sound : face.Sound) (inside : entry ∈ face.pendingInterestTable) :
    timer entry ∈ face.scheduler.pending := by
  have there : timer entry ∈ face.scheduler.pendingOf isTimer := by
    rw [sound.timers]
    exact List.mem_map_of_mem inside
  exact (Scheduler.mem_pendingOf.mp there).1

/-- No two entries have a timer in common. -/
theorem Sound.timer_eq (sound : face.Sound) {other : PendingInterest} (inside : entry ∈ face.pendingInterestTable)
    (also : other ∈ face.pendingInterestTable) :
    other.timeoutEvent = entry.timeoutEvent ↔ other.request.number = entry.request.number := by
  constructor
  · intro same
    have timers := Scheduler.eq_of_id (sound.timer_mem also) (sound.timer_mem inside) same
    exact Task.invokeTimeoutCallback.inj (congrArg Scheduled.callback timers)
  · intro same
    rw [List.inj_on_of_nodup_map sound.table_numbers also inside same]

theorem Sound.timers_erase (sound : face.Sound) (inside : entry ∈ face.pendingInterestTable) (outcome : Outcome) :
    (face.scheduler.cancel (some entry.timeoutEvent)).pendingOf isTimer =
      (face.erase entry outcome).pendingInterestTable.map timer := by
  change _ = (face.pendingInterestTable.eraseP fun other => other.request.number = entry.request.number).map timer
  rw [Scheduler.pendingOf_cancel,sound.timers,List.filter_map,eraseP_key sound.table_numbers]
  congr 1
  refine List.filter_congr fun other also => ?_
  simp [timer,sound.timer_eq inside also]

/-- The calls are not among the timers. -/
theorem Sound.calls_erase (sound : face.Sound) (inside : entry ∈ face.pendingInterestTable) :
    (face.scheduler.cancel (some entry.timeoutEvent)).pendingOf Task.isCall = face.scheduler.pendingOf Task.isCall := by
  rw [Scheduler.pendingOf_cancel]
  refine List.filter_eq_self.mpr fun event there => decide_eq_true fun same => ?_
  obtain ⟨pending,call⟩ := Scheduler.mem_pendingOf.mp there
  rw [Scheduler.eq_of_id pending (sound.timer_mem inside) (Option.some.inj same)] at call
  cases call

theorem Sound.table_erase (sound : face.Sound) (inside : entry ∈ face.pendingInterestTable) (outcome : Outcome) :
    face.pendingInterestTable.Perm (entry :: (face.erase entry outcome).pendingInterestTable) := by
  obtain ⟨found,front,back,-,same,split,rest⟩ := List.exists_of_eraseP
    (p := fun other : PendingInterest => decide (other.request.number = entry.request.number)) inside (decide_eq_true rfl)
  have here : found ∈ face.pendingInterestTable := by
    rw [split]
    exact List.mem_append_right _ List.mem_cons_self
  rw [List.inj_on_of_nodup_map sound.table_numbers here inside (of_decide_eq_true same)] at split
  change List.Perm _ (entry :: face.pendingInterestTable.eraseP _)
  rw [rest,split]
  exact List.perm_middle

/-- The entry leaves the table and its timer the scheduler, and the request has ended. -/
theorem Sound.erased (sound : face.Sound) (inside : entry ∈ face.pendingInterestTable) {outcome : Outcome}
    {scheduler : Scheduler Task} {time : Int}
    (calls : scheduler.pendingOf Task.isCall = face.scheduler.pendingOf Task.isCall)
    (timers : scheduler.pendingOf isTimer = (face.scheduler.cancel (some entry.timeoutEvent)).pendingOf isTimer)
    (inOrder : scheduler.InOrder Task.isCall 0) (next : scheduler.nextId = face.scheduler.nextId)
    (right : Ended.Right ⟨entry.request,outcome,time⟩)
    (after_eq : after = {face.erase entry outcome with
      scheduler := scheduler
      ended := face.ended ++ [⟨entry.request,outcome,time⟩]}) :
    after.Sound ∧ after.requests.Perm face.requests := by
  subst after_eq
  have same : (Face.requests {face.erase entry outcome with
      scheduler := scheduler
      ended := face.ended ++ [⟨entry.request,outcome,time⟩]}).Perm face.requests := by
    have table := (sound.table_erase inside outcome).map PendingInterest.request
    unfold requests openRequests
    rw [calls,List.map_append,List.map_singleton,← List.append_assoc]
    refine (List.perm_append_singleton _ _).trans ?_
    rw [← List.cons_append,← List.cons_append]
    exact (table.symm.append_right _).append_right _
  refine ⟨⟨inOrder,?_,?_,?_,?_,?_⟩,same⟩
  · exact timers.trans (sound.timers_erase inside outcome)
  · exact (same.map Request.number).nodup_iff.mpr sound.numbers
  · intro request there
    exact next ▸ sound.fresh request (same.subset there)
  · intro other there event call
    exact sound.earlier other ((List.eraseP_sublist).subset there) event (calls ▸ call)
  · intro ended there
    rcases List.mem_append.mp there with old | new
    · exact sound.right ended old
    · rw [List.mem_singleton.mp new]
      exact right

def initialEffects : Effects := ⟨[],false,[],[]⟩

def effects (face : Face) : Effects := ⟨face.interestFilterTable,face.isClosed,face.emitted,face.invoked⟩

structure Erased (before after : Face) : Prop where
  sound : after.Sound
  requests : after.requests.Perm before.requests
  calls : after.scheduler.pendingOf Task.isCall = before.scheduler.pendingOf Task.isCall
  nextId : after.scheduler.nextId = before.scheduler.nextId
  now : after.scheduler.now = before.scheduler.now
  effects : after.effects = before.effects
  executed : after.executed = before.executed

theorem Erased.trans {middle : Face} (first : Erased before middle) (second : Erased middle after) : Erased before after :=
  ⟨second.sound,second.requests.trans first.requests,second.calls.trans first.calls,second.nextId.trans first.nextId,
    second.now.trans first.now,second.effects.trans first.effects,second.executed.trans first.executed⟩

theorem Sound.erase (sound : face.Sound) (inside : entry ∈ face.pendingInterestTable) {outcome : Outcome}
    (right : Ended.Right ⟨entry.request,outcome,face.scheduler.now⟩) : Erased face (face.erase entry outcome) := by
  have calls := sound.calls_erase inside
  obtain ⟨after,same⟩ := sound.erased inside calls rfl (sound.inOrder.cancel _) rfl right rfl
  exact ⟨after,same,calls,rfl,rfl,rfl,rfl⟩

theorem Sound.foldl_erase {meets : Request → Bool} {outcome : Outcome} {entries : List PendingInterest}
    (sound : face.Sound) (inside : entries ⊆ face.pendingInterestTable)
    (distinct : (entries.map fun entry => entry.request.number).Nodup)
    (right : ∀ entry ∈ entries, meets entry.request = true → Ended.Right ⟨entry.request,outcome,face.scheduler.now⟩) :
    Erased face (entries.foldl (fun face entry => if meets entry.request then face.erase entry outcome else face) face) := by
  induction entries generalizing face with
  | nil => exact ⟨sound,.refl _,rfl,rfl,rfl,rfl,rfl⟩
  | cons entry entries ih =>
    rw [List.map_cons,List.nodup_cons] at distinct
    have there := inside List.mem_cons_self
    have others := List.subset_of_cons_subset inside
    have later := fun other also => right other (List.mem_cons_of_mem _ also)
    rw [List.foldl_cons]
    split
    · rename_i meeting
      have erased := sound.erase there (right entry List.mem_cons_self meeting)
      refine erased.trans (ih erased.sound ?_ distinct.2 (erased.now ▸ later))
      intro other also
      rcases List.mem_cons.mp ((sound.table_erase there outcome).subset (others also)) with rfl | rest
      · exact absurd (List.mem_map_of_mem also) distinct.1
      · exact rest
    · exact ih sound others distinct.2 later

theorem Sound.eraseIf (sound : face.Sound) {meets : Request → Bool} {outcome : Outcome}
    (right : ∀ entry ∈ face.pendingInterestTable, meets entry.request = true →
      Ended.Right ⟨entry.request,outcome,face.scheduler.now⟩) : Erased face (face.eraseIf meets outcome) :=
  sound.foldl_erase (List.Subset.refl _) sound.table_numbers right

/-- A timer of the table is not overdue. -/
theorem Sound.now_le_deadline (sound : face.Sound) (inside : entry ∈ face.pendingInterestTable) :
    face.scheduler.now ≤ entry.request.deadline :=
  sound.inOrder.ahead _ (sound.timer_mem inside)

theorem Sound.satisfyPendingInterests (sound : face.Sound) (data : Data) :
    Erased face (face.satisfyPendingInterests data) :=
  sound.eraseIf fun _ inside meeting => ⟨meeting,sound.now_le_deadline inside⟩

theorem Sound.asyncRemovePendingInterest (sound : face.Sound) {call : Nat} (pendingInterestId : Nat)
    (later : ∀ entry ∈ face.pendingInterestTable, entry.request.number < call) :
    Erased face (face.asyncRemovePendingInterest call pendingInterestId) :=
  sound.eraseIf fun entry inside meeting =>
    ⟨beq_iff_eq.mp meeting,later entry inside,sound.now_le_deadline inside⟩

def callOf (event : Scheduled Task) : Option Call :=
  match event.callback with
  | .call call => some call
  | .invokeTimeoutCallback _ => none

def calls (face : Face) : List Call := (face.scheduler.pendingOf Task.isCall).filterMap callOf

/-- An event of a call is taken from the scheduler. -/
theorem Sound.taken (sound : face.Sound) (first : face.scheduler.next = some event) (call : event.callback.isCall = true)
    (executed : List Call) :
    let taken := {face with scheduler := face.scheduler.fire event, executed := executed}
    taken.Sound ∧ face.requests.Perm ((Request.ofEvent event).toList ++ taken.requests) := by
  intro taken
  have calls := sound.inOrder.pendingOf_fire first call
  have timers : taken.scheduler.pendingOf isTimer = face.scheduler.pendingOf isTimer :=
    Scheduler.pendingOf_fire_other (Scheduler.next_mem first) (by rw [isTimer,call]; rfl)
  have same : face.requests.Perm ((Request.ofEvent event).toList ++ taken.requests) := by
    have head : (face.scheduler.pendingOf Task.isCall).filterMap Request.ofEvent =
        (Request.ofEvent event).toList ++ (taken.scheduler.pendingOf Task.isCall).filterMap Request.ofEvent := by
      rw [calls,List.filterMap_cons]
      cases Request.ofEvent event <;> rfl
    unfold requests openRequests
    rw [head,← List.append_assoc,← List.append_assoc]
    refine ((List.perm_append_comm.append_right _).append_right _).trans (.of_eq ?_)
    simp only [List.append_assoc]
    rfl
  refine ⟨⟨sound.inOrder.fire first,timers.trans sound.timers,?_,?_,?_,sound.right⟩,same⟩
  · have numbers := (same.map Request.number).nodup_iff.mp sound.numbers
    rw [List.map_append] at numbers
    exact numbers.of_append_right
  · intro request there
    exact sound.fresh request (same.symm.subset (List.mem_append_right _ there))
  · intro entry there other later
    exact sound.earlier entry there other (calls ▸ List.mem_cons_of_mem _ later)

private theorem lifetime_pos (request : Request) : 0 < request.lifetime := by
  unfold Request.lifetime milliSeconds defaultInterestLifetime
  split <;> omega

private theorem pendingOf_asyncExpressInterest (face : Face) (request : Request) :
    (face.asyncExpressInterest request).scheduler.pendingOf Task.isCall = face.scheduler.pendingOf Task.isCall :=
  Scheduler.pendingOf_schedule_other _ rfl

theorem Sound.asyncExpressInterest (sound : face.Sound) {request : Request}
    (new : ∀ old ∈ face.requests, old.number ≠ request.number) (fresh : request.number < face.scheduler.nextId)
    (time : request.time = face.scheduler.now)
    (first : ∀ event ∈ face.scheduler.pendingOf Task.isCall, request.number < event.id) :
    (face.asyncExpressInterest request).Sound ∧
      (face.asyncExpressInterest request).requests.Perm (request :: face.requests) := by
  have calls := pendingOf_asyncExpressInterest face request
  have same : (face.asyncExpressInterest request).requests.Perm (request :: face.requests) := by
    unfold requests openRequests
    rw [calls]
    change (((face.pendingInterestTable ++ [_]).map PendingInterest.request ++ _) ++ _).Perm _
    rw [List.map_append,List.map_singleton,List.append_assoc,List.append_assoc,List.append_assoc,List.singleton_append]
    exact List.perm_middle
  have positive := lifetime_pos request
  refine ⟨⟨sound.inOrder.schedule positive.le (fun none => by cases none),?_,?_,?_,?_,sound.right⟩,same⟩
  · change (face.scheduler.schedule _ _).pendingOf isTimer = (face.pendingInterestTable ++ [_]).map timer
    rw [Scheduler.pendingOf_schedule _ rfl,sound.timers,List.map_append,List.map_singleton,timer,Request.deadline,time]
  · refine (same.map Request.number).nodup_iff.mpr (List.nodup_cons.mpr ⟨?_,sound.numbers⟩)
    intro there
    obtain ⟨old,inside,number⟩ := List.mem_map.mp there
    exact new old inside number
  · intro other there
    rcases List.mem_cons.mp (same.subset there) with rfl | old
    · exact Nat.lt_succ_of_lt fresh
    · exact Nat.lt_succ_of_lt (sound.fresh other old)
  · intro entry there event call
    rw [calls] at call
    rcases List.mem_append.mp there with old | single
    · exact sound.earlier entry old event call
    · rw [List.mem_singleton.mp single]
      exact first event call

theorem Sound.clear (sound : face.Sound) : Erased face (face.eraseIf (fun _ => true) .cleared) :=
  sound.eraseIf fun _ inside _ => sound.now_le_deadline inside

structure Fired (before after : Face) : Prop where
  sound : after.Sound
  requests : after.requests.Perm before.requests
  performed : (∃ call, before.calls = call :: after.calls ∧ after.executed = before.executed ++ [call] ∧
    after.effects = before.effects.perform call) ∨
    after.calls = before.calls ∧ after.executed = before.executed ∧ after.effects = before.effects

theorem Fired.of_erased {taken : Face} {call : Call} (erased : Erased taken after) (same : before.requests.Perm taken.requests)
    (calls : before.calls = call :: taken.calls) (executed : taken.executed = before.executed ++ [call])
    (effects : taken.effects = before.effects.perform call) : Fired before after := by
  refine ⟨erased.sound,erased.requests.trans same.symm,Or.inl ⟨call,?_,erased.executed.trans executed,
    erased.effects.trans effects⟩⟩
  rw [calls,Face.calls,Face.calls,erased.calls]

/-- What concerns neither the requests nor the scheduler. -/
theorem Fired.of_frame {taken : Face} {call : Call} (sound : taken.Sound) (same : before.requests.Perm taken.requests)
    (calls : before.calls = call :: taken.calls) (scheduler : after.scheduler = taken.scheduler)
    (table : after.pendingInterestTable = taken.pendingInterestTable) (ended : after.ended = taken.ended)
    (executed : after.executed = before.executed ++ [call]) (effects : after.effects = before.effects.perform call) :
    Fired before after := by
  have requests : after.requests = taken.requests := by
    rw [Face.requests,Face.requests,openRequests,openRequests,scheduler,table,ended]
  refine ⟨⟨?_,?_,?_,?_,?_,?_⟩,requests ▸ same.symm,Or.inl ⟨call,?_,executed,effects⟩⟩
  · exact scheduler ▸ sound.inOrder
  · rw [scheduler,table]
    exact sound.timers
  · exact requests ▸ sound.numbers
  · rw [requests,scheduler]
    exact sound.fresh
  · rw [scheduler,table]
    exact sound.earlier
  · exact ended ▸ sound.right
  · rw [calls,Face.calls,Face.calls,scheduler]

/-- A timer that runs is that of the entry with its number. -/
theorem Sound.timer_of_number (sound : face.Sound) {number : Nat} (pending : event ∈ face.scheduler.pending)
    (callback : event.callback = .invokeTimeoutCallback number) :
    ∃ entry, face.pendingInterestTable.find? (fun entry => entry.request.number = number) = some entry ∧ event = timer entry := by
  have kind : event ∈ face.scheduler.pendingOf isTimer := Scheduler.mem_pendingOf.mpr ⟨pending,by rw [callback]; rfl⟩
  rw [sound.timers] at kind
  obtain ⟨entry,inside,rfl⟩ := List.mem_map.mp kind
  have named : entry.request.number = number := Task.invokeTimeoutCallback.inj callback
  exact ⟨entry,(find_key_eq_some_iff sound.table_numbers number entry).mpr ⟨inside,named⟩,rfl⟩

theorem Sound.expire (sound : face.Sound) (first : face.scheduler.next = some (timer entry))
    (inside : entry ∈ face.pendingInterestTable) :
    Fired face (Face.erase {face with scheduler := face.scheduler.fire (timer entry)} entry .timeout) := by
  have twice : ∀ kind, (((face.scheduler.fire (timer entry)).cancel (some entry.timeoutEvent)).pendingOf kind) =
      (face.scheduler.cancel (some entry.timeoutEvent)).pendingOf kind := by
    intro kind
    rw [Scheduler.pendingOf_cancel]
    change ((face.scheduler.cancel (some entry.timeoutEvent)).pendingOf kind).filter _ = _
    rw [Scheduler.pendingOf_cancel,List.filter_filter]
    simp only [Bool.and_self]
  have calls := (twice Task.isCall).trans (sound.calls_erase inside)
  have right : Ended.Right ⟨entry.request,.timeout,(timer entry).due⟩ := rfl
  obtain ⟨after,same⟩ := sound.erased inside calls (twice isTimer) ((sound.inOrder.fire first).cancel _) rfl right rfl
  refine ⟨after,same,Or.inr ⟨?_,rfl,rfl⟩⟩
  exact congrArg (List.filterMap callOf) calls

private theorem calls_taken (sound : face.Sound) (first : face.scheduler.next = some event) {call : Call}
    (callback : event.callback = .call call) (executed : List Call) :
    face.calls = call :: calls {face with scheduler := face.scheduler.fire event, executed := executed} := by
  unfold calls
  rw [sound.inOrder.pendingOf_fire first (by rw [callback]; rfl),List.filterMap_cons,callOf,callback]

theorem Sound.fire (sound : face.Sound) (fired : face.fire = some after) : Fired face after := by
  obtain ⟨event,first,done⟩ := Option.bind_eq_some_iff.mp fired
  unfold execute at done
  cases callback : event.callback with
  | invokeTimeoutCallback number =>
    rw [callback] at done
    obtain ⟨entry,found,rfl⟩ := sound.timer_of_number (Scheduler.next_mem first) callback
    change Option.map _ (face.pendingInterestTable.find? _) = _ at done
    rw [found] at done
    cases done
    exact sound.expire first (List.mem_of_find?_eq_some found)
  | call call =>
    rw [callback] at done
    have call' : event.callback.isCall = true := by rw [callback]; rfl
    obtain ⟨taken,same⟩ := sound.taken first call' (face.executed ++ [call])
    have calls := calls_taken sound first callback (face.executed ++ [call])
    cases call with
    | expressInterest id interest hasOnTimeout =>
      cases done
      rw [Request.ofEvent,callback] at same
      have numbers := List.nodup_cons.mp ((same.map Request.number).nodup_iff.mp sound.numbers)
      have new : ∀ old ∈ Face.requests {face with
            scheduler := face.scheduler.fire event
            executed := face.executed ++ [.expressInterest id interest hasOnTimeout]},
          old.number ≠ Request.number ⟨event.id,event.due,id,interest,hasOnTimeout⟩ :=
        fun old inside number => numbers.1 (List.mem_map.mpr ⟨old,inside,number⟩)
      have ordered := sound.inOrder.numbered
      rw [sound.inOrder.pendingOf_fire first call',List.pairwise_cons] at ordered
      obtain ⟨after,requests⟩ :=
        taken.asyncExpressInterest new (sound.fresh _ (same.symm.subset List.mem_cons_self)) rfl ordered.1
      refine ⟨after,requests.trans same.symm,Or.inl ⟨_,calls.trans ?_,rfl,rfl⟩⟩
      exact congrArg (fun later => _ :: later.filterMap callOf) (pendingOf_asyncExpressInterest _ _).symm
    | removePendingInterest id =>
      cases done
      rw [Request.ofEvent,callback] at same
      refine .of_erased (taken.asyncRemovePendingInterest id ?_) same calls rfl rfl
      intro entry there
      exact sound.earlier entry there event (Scheduler.mem_pendingOf.mpr ⟨Scheduler.next_mem first,call'⟩)
    | put data =>
      cases done
      rw [Request.ofEvent,callback] at same
      exact .of_frame taken same calls rfl rfl rfl rfl rfl
    | setInterestFilter record =>
      cases done
      rw [Request.ofEvent,callback] at same
      exact .of_frame taken same calls rfl rfl rfl rfl rfl
    | unsetInterestFilter id =>
      cases done
      rw [Request.ofEvent,callback] at same
      exact .of_frame taken same calls rfl rfl rfl rfl rfl
    | shutdown =>
      cases done
      rw [Request.ofEvent,callback] at same
      have erased := taken.clear
      have later := congrArg (List.filterMap callOf) erased.calls
      have effects := congrArg (Effects.perform · .shutdown) erased.effects
      exact .of_frame erased.sound (same.trans erased.requests.symm) (calls.trans (congrArg (_ :: ·) later.symm)) rfl rfl rfl
        erased.executed effects
    | sendInterest interest =>
      cases done
      rw [Request.ofEvent,callback] at same
      exact .of_frame taken same calls rfl rfl rfl rfl rfl
    | sendData data =>
      cases done
      rw [Request.ofEvent,callback] at same
      exact .of_erased (taken.satisfyPendingInterests data) same calls rfl rfl

/-- No timer is left behind by an entry that is gone. -/
theorem Sound.fire_isSome (sound : face.Sound) (first : face.scheduler.next = some event) : face.fire.isSome := by
  unfold Face.fire execute
  rw [first,Option.bind_some]
  cases callback : event.callback with
  | invokeTimeoutCallback number =>
    obtain ⟨entry,found,-⟩ := sound.timer_of_number (Scheduler.next_mem first) callback
    change (Option.map _ (face.pendingInterestTable.find? _)).isSome
    rw [found]
    rfl
  | call call => cases call <;> rfl

theorem sound_new (now : Int) : (new now).Sound where
  inOrder := Scheduler.inOrder_initial _ _
  timers := rfl
  numbers := List.nodup_nil
  fresh := fun _ none => absurd none List.not_mem_nil
  earlier := fun _ none => absurd none List.not_mem_nil
  right := fun _ none => absurd none List.not_mem_nil

structure Stepped (before after : Face) (event : FaceEvent) : Prop where
  sound : after.Sound
  requests : (after.requests.map Request.asked).Perm (before.requests.map Request.asked ++ (event.toCall.bind Call.asked).toList)
  order : after.executed ++ after.calls = before.executed ++ before.calls ++ event.toCall.toList
  effects : before.effects = run Effects.perform initialEffects before.executed →
    after.effects = run Effects.perform initialEffects after.executed

theorem Sound.call (sound : face.Sound) (call : Call) :
    Stepped face {face with scheduler := face.scheduler.schedule 0 (.call call)} (.call call) := by
  have pending : (face.scheduler.schedule 0 (.call call)).pendingOf Task.isCall =
      face.scheduler.pendingOf Task.isCall ++ [⟨face.scheduler.nextId,face.scheduler.now + 0,.call call⟩] :=
    Scheduler.pendingOf_schedule 0 rfl
  have timers : (face.scheduler.schedule 0 (.call call)).pendingOf isTimer = face.scheduler.pendingOf isTimer :=
    Scheduler.pendingOf_schedule_other 0 rfl
  have same : (Face.requests {face with scheduler := face.scheduler.schedule 0 (.call call)}).Perm
      (face.requests ++ (Request.ofEvent ⟨face.scheduler.nextId,face.scheduler.now + 0,.call call⟩).toList) := by
    rw [requests,openRequests,pending,List.filterMap_append,requests,openRequests]
    simp only [List.append_assoc]
    exact (List.perm_append_comm.append_left _).append_left _
  have new : ∀ request ∈ Request.ofEvent ⟨face.scheduler.nextId,face.scheduler.now + 0,.call call⟩,
      request.number = face.scheduler.nextId ∧ some request.asked = call.asked := by
    intro request made
    cases call <;> cases made
    exact ⟨rfl,rfl⟩
  refine ⟨⟨sound.inOrder.schedule (Int.le_refl 0) fun _ => rfl,timers.trans sound.timers,?_,?_,?_,sound.right⟩,?_,?_,id⟩
  · refine (same.map Request.number).nodup_iff.mpr ?_
    rw [List.map_append,List.nodup_append]
    refine ⟨sound.numbers,?_,?_⟩
    · cases Request.ofEvent ⟨face.scheduler.nextId,face.scheduler.now + 0,.call call⟩ with
      | none => exact List.nodup_nil
      | some request => exact List.nodup_singleton _
    · intro number there other also
      obtain ⟨old,inside,rfl⟩ := List.mem_map.mp there
      obtain ⟨request,made,rfl⟩ := List.mem_map.mp also
      rw [(new request (Option.mem_toList.mp made)).1]
      exact Nat.ne_of_lt (sound.fresh old inside)
  · intro request there
    rcases List.mem_append.mp (same.subset there) with old | made
    · exact Nat.lt_succ_of_lt (sound.fresh request old)
    · rw [(new request (Option.mem_toList.mp made)).1]
      exact Nat.lt_succ_self _
  · intro entry there event inside
    rw [pending] at inside
    rcases List.mem_append.mp inside with old | single
    · exact sound.earlier entry there event old
    · rw [List.mem_singleton.mp single]
      exact sound.fresh _ (mem_requests_of_table there)
  · refine (same.map Request.asked).trans (.of_eq ?_)
    rw [List.map_append]
    cases made : Request.ofEvent ⟨face.scheduler.nextId,face.scheduler.now + 0,.call call⟩ with
    | none => cases call <;> first | rfl | cases made
    | some request =>
      change _ = _ ++ call.asked.toList
      rw [← (new request made).2]
      rfl
  · rw [calls,pending,List.filterMap_append,← List.append_assoc]
    rfl

theorem Sound.step (sound : face.Sound) {event : FaceEvent} (stepped : face.step event = some after) :
    Stepped face after event := by
  cases event with
  | call call =>
    cases stepped
    exact sound.call call
  | fire =>
    obtain ⟨after,requests,performed⟩ := sound.fire stepped
    refine ⟨after,?_,?_,?_⟩
    · change List.Perm _ (_ ++ [])
      rw [List.append_nil]
      exact requests.map _
    · rcases performed with ⟨call,calls,executed,-⟩ | ⟨calls,executed,-⟩
      · rw [executed,calls,FaceEvent.toCall,Option.toList_none,List.append_nil,List.append_assoc,List.singleton_append]
      · rw [executed,calls,FaceEvent.toCall,Option.toList_none,List.append_nil]
    · intro same
      rcases performed with ⟨call,-,executed,effects⟩ | ⟨-,executed,effects⟩
      · rw [effects,executed,run_concat,same]
      · rw [effects,executed,same]
  | advance time =>
    cases stepped
    have calls : (face.scheduler.advance time).pendingOf Task.isCall = face.scheduler.pendingOf Task.isCall :=
      Scheduler.pendingOf_advance time
    have requests : Face.requests {face with scheduler := face.scheduler.advance time} = face.requests := by
      rw [Face.requests,openRequests,calls,Face.requests,openRequests]
    have nextId := face.scheduler.advance_nextId time
    refine ⟨⟨sound.inOrder.advance time,?_,?_,?_,?_,sound.right⟩,?_,?_,id⟩
    · exact (Scheduler.pendingOf_advance time).trans sound.timers
    · exact requests ▸ sound.numbers
    · rw [requests]
      exact nextId.symm ▸ sound.fresh
    · exact calls.symm ▸ sound.earlier
    · rw [requests]
      exact .of_eq (List.append_nil _).symm
    · rw [Face.calls,calls]
      exact (List.append_nil _).symm

structure Reached (events : List FaceEvent) (face : Face) : Prop where
  sound : face.Sound
  requests : (face.requests.map Request.asked).Perm (events.filterMap fun event => event.toCall.bind Call.asked)
  order : face.executed ++ face.calls = events.filterMap FaceEvent.toCall
  effects : face.effects = run Effects.perform initialEffects face.executed

private theorem reached_run {now : Int} {events : List FaceEvent} (reached : run (attempt step) (some (new now)) events = some face) :
    Reached events face := by
  refine attempt_history (P := fun face events => Reached events face) ?_ ⟨sound_new now,.refl _,rfl,rfl⟩ reached
  intro before past event after holds stepped
  obtain ⟨sound,requests,order,effects⟩ := holds.sound.step stepped
  refine ⟨sound,requests.trans ?_,order.trans ?_,effects holds.effects⟩
  · rw [List.filterMap_append,List.filterMap_cons,List.filterMap_nil]
    refine (holds.requests.append_right _).trans (.of_eq ?_)
    cases event.toCall.bind Call.asked <;> rfl
  · rw [List.filterMap_append,holds.order,List.filterMap_cons,List.filterMap_nil]
    cases event.toCall <;> rfl

/-- Whatever the order of calls, timers and packets: each Interest that was expressed is open or has
ended in one way, with Data that match it by its deadline, or at the deadline. An open one is
not past its deadline, and no timer outlives its entry. -/
theorem expressInterest_run (now : Int) (events : List FaceEvent) (face : Face)
    (reached : run (attempt step) (some (new now)) events = some face) :
    let requests := face.openRequests ++ face.ended.map Ended.request
    (requests.map Request.asked).Perm (events.filterMap fun event => event.toCall.bind Call.asked) ∧
    (requests.map Request.number).Nodup ∧
    (∀ ended ∈ face.ended, ended.Right) ∧
    (∀ request ∈ face.openRequests, face.scheduler.now ≤ request.deadline) ∧
    (face.scheduler.pending ≠ [] → face.fire.isSome) := by
  obtain ⟨sound,requests,-,-⟩ := reached_run reached
  refine ⟨requests,sound.numbers,sound.right,?_,?_⟩
  · intro request inside
    rcases List.mem_append.mp inside with there | waiting
    · obtain ⟨entry,stored,rfl⟩ := List.mem_map.mp there
      exact sound.now_le_deadline stored
    · obtain ⟨event,pending,made⟩ := List.mem_filterMap.mp waiting
      have ahead := sound.inOrder.ahead event (Scheduler.mem_pendingOf.mp pending).1
      have positive := lifetime_pos request
      have time : request.time = event.due := by
        unfold Request.ofEvent at made
        split at made <;> cases made
        rfl
      rw [Request.deadline,time]
      omega
  · intro some
    obtain ⟨event,first⟩ := Scheduler.next_of_pending some
    exact sound.fire_isSome first

/-- The calls are carried out in the order in which they were made, and the forwarder and the
filters see them as if each had taken effect at once, whatever the timers do. -/
theorem executed_run (now : Int) (events : List FaceEvent) (face : Face)
    (reached : run (attempt step) (some (new now)) events = some face) :
    face.executed ++ face.calls = events.filterMap FaceEvent.toCall ∧
    face.effects = run Effects.perform initialEffects face.executed :=
  ⟨(reached_run reached).order,(reached_run reached).effects⟩

end

private theorem sessionDigest_length : (List.replicate 32 (0 : UInt8)).length = 32 := rfl

/-- `/1` is asked for and answered, then asked for again until its deadline. -/
def session : List FaceEvent :=
  [.call (.expressInterest 7 ⟨[[8,1,1]],.none,0,-1⟩ true),.fire,
    .call (.sendData ⟨[[8,1,1],[8,1,2]],⟨List.replicate 32 0,sessionDigest_length⟩,none⟩),.fire,
    .call (.expressInterest 7 ⟨[[8,1,1]],.none,0,100⟩ true),.fire,.advance (milliSeconds 100),.fire]

private theorem session_isSome : (run (attempt step) (some (new 0)) session).isSome = true := by decide

def sessionEnd : Face := (run (attempt step) (some (new 0)) session).get session_isSome

theorem expressInterest_run_session :
    ((sessionEnd.openRequests ++ sessionEnd.ended.map Ended.request).map Request.asked).Perm
        [(7,⟨[[8,1,1]],.none,0,-1⟩,true),(7,⟨[[8,1,1]],.none,0,100⟩,true)] ∧
      ∀ ended ∈ sessionEnd.ended, ended.Right := by
  obtain ⟨requests,-,right,-⟩ := expressInterest_run 0 session sessionEnd (Option.some_get session_isSome).symm
  exact ⟨requests,right⟩

/-- Both have ended, the second at 100 ms. -/
example : sessionEnd.openRequests.length = 0 ∧ sessionEnd.ended.map Ended.time = [0,milliSeconds 100] := by decide

theorem executed_run_session : sessionEnd.executed ++ sessionEnd.calls = session.filterMap FaceEvent.toCall :=
  (executed_run 0 session sessionEnd (Option.some_get session_isSome).symm).1

end Face

end Ncfcc.NdnCxx
