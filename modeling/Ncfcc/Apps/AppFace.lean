import Ncfcc.Apps.WindowConsumer

/-! The way of a packet from the forwarder to an application. The face decouples the two:
it schedules a call of a virtual method, and what runs is the method of the class. -/
namespace Ncfcc.Apps
open Ncfcc.Library

inductive Packet where
  | interest (name : Name)
  | data (data : Data)
  deriving DecidableEq, Repr

inductive ScheduledCall where
  | onInterest (name : Name)
  | onData (data : Data)
  deriving DecidableEq, Repr

/-- An application of any class, with what its trace sources reported and with the names for
which its `OnRsr` ran and for which that reduced the window, oldest first. -/
structure App where
  consumer : WindowConsumer
  receivedInterests : List Name
  receivedDatas : List Data
  rsrRuns : List Name
  windowReductions : List Name

/-- The virtual methods of `App` that handle packets. -/
structure AppMethods where
  onInterest : Time → Name → App → App
  onData : Time → Data → App → App
  onRsr : Time → Name → App → App

namespace App

def new (consumer : WindowConsumer) : App := ⟨consumer,[],[],[],[]⟩

def onInterest (name : Name) (app : App) : App :=
  { app with receivedInterests := app.receivedInterests ++ [name] }

def onData (data : Data) (app : App) : App := { app with receivedDatas := app.receivedDatas ++ [data] }

def onRsr (name : Name) (app : App) : App := { app with receivedInterests := app.receivedInterests ++ [name] }

def methods : AppMethods := ⟨fun _ => onInterest,fun _ => onData,fun _ => onRsr⟩

end App

namespace FullyDistributed

/-- `OnData`; the trace of `App` reports the Data of an active consumer only. -/
def appOnData (now : Time) (data : Data) (app : App) : App :=
  let traced := if app.consumer.base.active then app.onData data else app
  { traced with consumer := onData now data app.consumer }

def appOnRsr (now : Time) (name : Name) (app : App) : App :=
  { app.onRsr name with
    consumer := onRsr now name app.consumer
    rsrRuns := app.rsrRuns ++ [name]
    windowReductions := if name = Name.rsr then app.windowReductions ++ [name] else app.windowReductions }

/-- `Consumer` and `FullyDistributed` override `OnData` and `OnRsr`, and not `OnInterest`. -/
def methods : AppMethods := { App.methods with onData := appOnData, onRsr := appOnRsr }

end FullyDistributed

/-- An application behind its face, with the calls that are scheduled for now. -/
structure AppFace where
  app : App
  scheduled : List ScheduledCall

/-- What happens at the face: the forwarder sends a packet, the first of the scheduled calls
runs, or another event of the consumer takes place. -/
inductive FaceEvent where
  | send (packet : Packet)
  | runScheduled (now : Time)
  | startApplication (now : Time)
  | stopApplication
  | sendPacket (now : Time) (uid : Nat)
  | checkRetxTimeout (now : Time)
  deriving DecidableEq, Repr

namespace AppFace

def new (consumer : WindowConsumer) : AppFace := ⟨.new consumer,[]⟩

def sendInterest (name : Name) (face : AppFace) : AppFace :=
  { face with scheduled := face.scheduled ++ [.onInterest name] }

def sendData (data : Data) (face : AppFace) : AppFace :=
  { face with scheduled := face.scheduled ++ [.onData data] }

def send (packet : Packet) (face : AppFace) : AppFace :=
  match packet with
  | .interest name => face.sendInterest name
  | .data data => face.sendData data

def dispatch (methods : AppMethods) (now : Time) (app : App) : ScheduledCall → App
  | .onInterest name => methods.onInterest now name app
  | .onData data => methods.onData now data app

def runScheduled (methods : AppMethods) (now : Time) (face : AppFace) : AppFace :=
  match face.scheduled with
  | [] => face
  | call :: rest => ⟨dispatch methods now face.app call,rest⟩

def runAll (methods : AppMethods) (now : Time) (face : AppFace) : App :=
  face.scheduled.foldl (dispatch methods now) face.app

def withConsumer (change : WindowConsumer → WindowConsumer) (face : AppFace) : AppFace :=
  { face with app := { face.app with consumer := change face.app.consumer } }

def step (methods : AppMethods) (virtual : Virtual WindowConsumer) (face : AppFace) : FaceEvent → AppFace
  | .send packet => face.send packet
  | .runScheduled now => face.runScheduled methods now
  | .startApplication now => face.withConsumer (virtual.startApplication now)
  | .stopApplication => face.withConsumer virtual.stopApplication
  | .sendPacket now uid => face.withConsumer fun consumer => virtual.sendPacket now (virtual.fire uid consumer)
  | .checkRetxTimeout now => face.withConsumer (virtual.checkRetxTimeout now)

end AppFace

namespace FullyDistributed
open AppFace

def faceStep : AppFace → FaceEvent → AppFace := AppFace.step methods WindowClass.fullyDistributed.virtual

def sent (events : List FaceEvent) : List Packet :=
  events.filterMap fun
    | .send packet => some packet
    | _ => none

/-- The names `/RSR` among those of the Interests sent. -/
def rsrInterests (packets : List Packet) : List Name :=
  packets.filterMap fun
    | .interest name => if name = Name.rsr then some name else none
    | .data _ => none

/-- When the calls that are left have run too, `OnRsr` ran for the Interests named `/RSR` and
for no others, and reduced the window each time. -/
structure Reacts (consumer : WindowConsumer) (events : List FaceEvent) (now : Time) : Prop where
  runs : ((run faceStep (AppFace.new consumer) events).runAll methods now).rsrRuns = rsrInterests (sent events)
  reductions : ((run faceStep (AppFace.new consumer) events).runAll methods now).windowReductions =
    rsrInterests (sent events)

/-- `OnRsr` did not run. -/
structure Unreached (app : App) : Prop where
  runs : app.rsrRuns = []
  reductions : app.windowReductions = []

/-- Neither of the methods that the face schedules leads to `OnRsr`. -/
theorem Unreached.dispatch {app : App} (unreached : Unreached app) (now : Time) (call : ScheduledCall) :
    Unreached (dispatch methods now app call) := by
  cases call with
  | onInterest name => exact ⟨unreached.runs,unreached.reductions⟩
  | onData data =>
    simp only [AppFace.dispatch,methods,appOnData]
    split
    · exact ⟨unreached.runs,unreached.reductions⟩
    · exact ⟨unreached.runs,unreached.reductions⟩

theorem Unreached.step {face : AppFace} (unreached : Unreached face.app) (event : FaceEvent) :
    Unreached (faceStep face event).app := by
  cases event with
  | send packet =>
    cases packet with
    | interest name => exact unreached
    | data data => exact unreached
  | runScheduled now =>
    simp only [faceStep,AppFace.step,runScheduled]
    cases face.scheduled with
    | nil => exact unreached
    | cons call rest => exact unreached.dispatch now call
  | startApplication now => exact ⟨unreached.runs,unreached.reductions⟩
  | stopApplication => exact ⟨unreached.runs,unreached.reductions⟩
  | sendPacket now uid => exact ⟨unreached.runs,unreached.reductions⟩
  | checkRetxTimeout now => exact ⟨unreached.runs,unreached.reductions⟩

theorem Unreached.run {face : AppFace} (unreached : Unreached face.app) (events : List FaceEvent) :
    Unreached (run faceStep face events).app := by
  induction events generalizing face with
  | nil => exact unreached
  | cons event events ih => exact ih (unreached.step event)

theorem Unreached.calls {app : App} (unreached : Unreached app) (now : Time) (calls : List ScheduledCall) :
    Unreached (calls.foldl (AppFace.dispatch methods now) app) := by
  induction calls generalizing app with
  | nil => exact unreached
  | cons call calls ih => exact ih (unreached.dispatch now call)

private theorem unreached_runAll (consumer : WindowConsumer) (events : List FaceEvent) (now : Time) :
    Unreached ((Library.run faceStep (AppFace.new consumer) events).runAll methods now) := by
  have start : Unreached (AppFace.new consumer).app := ⟨rfl,rfl⟩
  exact (start.run events).calls now _

private theorem rsrInterests_eq_nil_iff (packets : List Packet) :
    rsrInterests packets = [] ↔ Packet.interest Name.rsr ∉ packets := by
  unfold rsrInterests
  rw [List.filterMap_eq_nil_iff]
  constructor
  · intro none member
    simpa using none _ member
  · intro absent packet member
    cases packet with
    | interest name =>
      refine if_neg ?_
      intro named
      exact absent (named ▸ member)
    | data data => rfl

/-- Whatever the order of packets and events, the consumer reacts as told only if the
forwarder sends it no Interest named `/RSR`. -/
theorem reacts_iff_no_rsr (consumer : WindowConsumer) (events : List FaceEvent) (now : Time) :
    Reacts consumer events now ↔ Packet.interest Name.rsr ∉ sent events := by
  have unreached := unreached_runAll consumer events now
  rw [← rsrInterests_eq_nil_iff]
  constructor
  · intro reacts
    rw [← reacts.runs]
    exact unreached.runs
  · intro none
    exact ⟨unreached.runs.trans none.symm,unreached.reductions.trans none.symm⟩

def started : WindowConsumer :=
  WindowClass.fullyDistributed.virtual.startApplication 0
    (WindowClass.fullyDistributed.configured (Consumer.initial 0 maxWord (second / 20) (.initial .ticks)) 4 true)

/-- An active consumer gets an Interest named `/RSR`, and `OnInterest` runs in place of `OnRsr`. -/
theorem rsr_not_handled : started.base.active = true ∧ ¬ Reacts started [.send (.interest Name.rsr),.runScheduled 0] 0 := by
  refine ⟨rfl,?_⟩
  intro reacts
  exact absurd reacts.runs (by decide)

end FullyDistributed

end Ncfcc.Apps
