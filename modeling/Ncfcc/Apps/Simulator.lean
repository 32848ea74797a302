import Mathlib.Data.List.Nodup

/-! Pending simulator events of one consumer application. Event ids are the
simulator's unique, increasing uids; an id is running while its event is pending
and expired from the moment it fires, is removed or is cancelled. -/
namespace Ncfcc.Apps

/-- Simulation time, a signed number of ticks. -/
abbrev Time := Int

def second : Time := 1000000000

structure ScheduledEvent where
  uid : Nat
  due : Time
  deriving DecidableEq, Repr

/-- An unassigned `EventId` names no event. -/
abbrev EventId := Option Nat

/-- The pending `SendPacket` and `CheckRetxTimeout` events. -/
structure Simulator where
  nextUid : Nat
  sends : List ScheduledEvent
  checks : List ScheduledEvent
  fresh : ∀ event ∈ sends, event.uid < nextUid
  distinct : (sends.map ScheduledEvent.uid).Nodup

namespace Simulator

def initial : Simulator := ⟨0,[],[],by simp,List.nodup_nil⟩

def isRunning (simulator : Simulator) (id : EventId) : Bool :=
  simulator.sends.any (fun event => some event.uid = id)

def scheduleSend (simulator : Simulator) (due : Time) : Simulator :=
  { simulator with
    nextUid := simulator.nextUid + 1
    sends := simulator.sends ++ [⟨simulator.nextUid,due⟩]
    fresh := by
      intro event member
      rcases List.mem_append.mp member with old | new
      · exact Nat.lt_succ_of_lt (simulator.fresh event old)
      · rw [List.mem_singleton.mp new]
        exact Nat.lt_succ_self _
    distinct := by
      rw [List.map_append,List.nodup_append]
      refine ⟨simulator.distinct,List.nodup_singleton _,?_⟩
      intro old member new single
      obtain ⟨event,pending,rfl⟩ := List.mem_map.mp member
      rw [List.mem_singleton.mp single]
      exact Nat.ne_of_lt (simulator.fresh event pending) }

/-- `Simulator::Remove` and `Simulator::Cancel`: nothing happens to an expired id. -/
def remove (simulator : Simulator) (id : EventId) : Simulator :=
  { simulator with
    sends := simulator.sends.filter (fun event => some event.uid ≠ id)
    fresh := fun event member => simulator.fresh event (List.mem_filter.mp member).1
    distinct := simulator.distinct.sublist (List.filter_sublist.map _) }

def scheduleCheck (simulator : Simulator) (due : Time) : Simulator :=
  { simulator with
    nextUid := simulator.nextUid + 1
    checks := simulator.checks ++ [⟨simulator.nextUid,due⟩]
    fresh := fun event member => Nat.lt_succ_of_lt (simulator.fresh event member) }

@[simp] theorem remove_sends (simulator : Simulator) (id : EventId) :
    (simulator.remove id).sends = simulator.sends.filter (fun event => some event.uid ≠ id) := rfl

end Simulator

end Ncfcc.Apps
