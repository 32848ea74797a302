import Mathlib.Logic.Function.Basic
import Ncfcc.Helper.GlobalRouting

/-! `CalculateAllPossibleRoutes`: at each node the faces are disabled but one, which is tried for
all prefixes. What it does to the metrics of the faces. -/
namespace Ncfcc.Helper
open Ncfcc.Library Ncfcc.Nfd.Table

structure Network (Node Router Face : Type) extends Topology Router Face where
  nodes : List Node
  router : Node → Option Router
  faceTable : Node → List Face
  netDevice : Face → Bool
  distinct : ∀ node, (faceTable node).Nodup

structure RoutingState (Node Face : Type) where
  metric : Face → Nat
  fib : Node → Fib Face

def disabledMetric : Nat := 2^16 - 2

section
variable {Node Router Face : Type} [DecidableEq Node] [DecidableEq Router] [DecidableEq Face]

/-- The metric of the face goes into the map of original metrics, whose values have 16 bits, and the
face is disabled. -/
def rememberFace (state : (Face → Nat) × (Face → Nat)) (face : Face) : (Face → Nat) × (Face → Nat) :=
  (Function.update state.1 face disabledMetric,Function.update state.2 face (state.1 face % 2^16))

def enabledRoutesTo (topology : Topology Router Face) (distances : Router → Weight Face) (source : Router)
    (fib : Fib Face) (vertex : Router) : Fib Face :=
  if vertex = source then fib
  else
    match (distances vertex).face with
    | none => fib
    | some face =>
      (topology.localPrefixes vertex).foldl (fun fib name =>
        if topology.metric face = disabledMetric then fib else addRoute fib name face (distances vertex).metric) fib

namespace Network

variable (network : Network Node Router Face) (order : List Router)
  (dijkstra : Topology Router Face → Router → Router → Weight Face)

def withMetric (metric : Face → Nat) : Topology Router Face := {network.toTopology with metric := metric}

/-- The face is enabled with its original metric for one run of Dijkstra's algorithm. -/
def tryFace (source : Router) (originalMetrics : Face → Nat) (state : (Face → Nat) × Fib Face) (face : Face) :
    (Face → Nat) × Fib Face :=
  if network.netDevice face then
    let metric := Function.update state.1 face (originalMetrics face)
    let topology := network.withMetric metric
    (Function.update metric face disabledMetric,
      order.foldl (enabledRoutesTo topology (dijkstra topology source) source) state.2)
  else state

/-- The routes of one node. A face without an original metric would be given zero. -/
def calculateAllAt (state : RoutingState Node Face) (node : Node) : RoutingState Node Face :=
  match network.router node with
  | none => state
  | some source =>
    let table := network.faceTable node
    let remembered := table.foldl rememberFace (state.metric,fun _ => 0)
    let tried := table.foldl (network.tryFace order dijkstra source remembered.2) (remembered.1,state.fib node)
    ⟨table.foldl (fun metric face => Function.update metric face (remembered.2 face)) tried.1,
      Function.update state.fib node tried.2⟩

def calculateAllPossibleRoutes (state : RoutingState Node Face) : RoutingState Node Face :=
  network.nodes.foldl (network.calculateAllAt order dijkstra) state

end Network

/-! The metrics on the way. -/

theorem foldl_rememberFace (table : List Face) (distinct : table.Nodup) (metric original : Face → Nat) (face : Face) :
    (table.foldl rememberFace (metric,original)).1 face = (if face ∈ table then disabledMetric else metric face) ∧
      (table.foldl rememberFace (metric,original)).2 face =
        if face ∈ table then metric face % 2^16 else original face := by
  induction table generalizing metric original with
  | nil => exact ⟨rfl,rfl⟩
  | cons head table ih =>
    obtain ⟨alone,distinct⟩ := List.nodup_cons.mp distinct
    rw [List.foldl_cons]
    unfold rememberFace
    dsimp only
    obtain ⟨disabled,remembered⟩ := ih distinct (Function.update metric head disabledMetric)
      (Function.update original head (metric head % 2^16))
    unfold rememberFace at disabled remembered
    rw [disabled,remembered]
    by_cases here : face = head
    · simp [here,alone]
    · simp [here]

private theorem foldl_restore (table : List Face) (original metric : Face → Nat) (face : Face) :
    table.foldl (fun metric face => Function.update metric face (original face)) metric face =
      if face ∈ table then original face else metric face := by
  induction table generalizing metric with
  | nil => rfl
  | cons head table ih =>
    rw [List.foldl_cons,ih]
    by_cases here : face = head
    · simp [here]
    · simp [here]

section
variable (network : Network Node Router Face) (order : List Router)
  (dijkstra : Topology Router Face → Router → Router → Weight Face)

omit [DecidableEq Node] in
/-- A face that was tried is disabled again, and no other is touched. -/
theorem tryFace_metric (source : Router) (original : Face → Nat) (state : (Face → Nat) × Fib Face) (tried face : Face)
    (disabled : state.1 tried = disabledMetric) :
    (network.tryFace order dijkstra source original state tried).1 face = state.1 face := by
  unfold Network.tryFace
  split
  · by_cases here : face = tried
    · simp [here,disabled]
    · simp [here]
  · rfl

omit [DecidableEq Node] in
private theorem foldl_tryFace_metric (source : Router) (original : Face → Nat) (table : List Face)
    (state : (Face → Nat) × Fib Face) (disabled : ∀ face ∈ table, state.1 face = disabledMetric) :
    (table.foldl (network.tryFace order dijkstra source original) state).1 = state.1 := by
  induction table generalizing state with
  | nil => rfl
  | cons head table ih =>
    have kept : (network.tryFace order dijkstra source original state head).1 = state.1 := by
      funext face
      exact tryFace_metric network order dijkstra source original state head face (disabled head List.mem_cons_self)
    rw [List.foldl_cons,ih]
    · exact kept
    · rw [kept]
      exact fun face inside => disabled face (List.mem_cons_of_mem _ inside)

/-- The faces of a node with a router come back with 16 bits of their metrics. -/
theorem calculateAllAt_metric (state : RoutingState Node Face) (node : Node) (face : Face) :
    (network.calculateAllAt order dijkstra state node).metric face =
      if (network.router node).isSome ∧ face ∈ network.faceTable node then state.metric face % 2^16
      else state.metric face := by
  unfold Network.calculateAllAt
  cases router : network.router node with
  | none => rfl
  | some source =>
    have remembered := foldl_rememberFace (network.faceTable node) (network.distinct node) state.metric fun _ => 0
    dsimp only
    rw [foldl_restore,foldl_tryFace_metric,(remembered face).1,(remembered face).2]
    · by_cases inside : face ∈ network.faceTable node
      · simp [inside]
      · simp [inside]
    · intro other inside
      rw [(remembered other).1,if_pos inside]

private theorem calculateAllPossibleRoutes_metric (state : RoutingState Node Face) (face : Face) :
    (network.calculateAllPossibleRoutes order dijkstra state).metric face =
      if ∃ node ∈ network.nodes, (network.router node).isSome ∧ face ∈ network.faceTable node then
        state.metric face % 2^16
      else state.metric face := by
  unfold Network.calculateAllPossibleRoutes
  induction network.nodes generalizing state with
  | nil => simp
  | cons node nodes ih =>
    rw [List.foldl_cons,ih,calculateAllAt_metric]
    by_cases here : (network.router node).isSome ∧ face ∈ network.faceTable node
    · simp [here]
    · simp [here]

/-- The metrics of all faces are back after the call exactly when those of the nodes with a
router fit 16 bits. -/
theorem metrics_recovered_iff (fib : Node → Fib Face) :
    (∀ node ∈ network.nodes, ∀ face ∈ network.faceTable node,
      (network.calculateAllPossibleRoutes order dijkstra ⟨network.metric,fib⟩).metric face = network.metric face) ↔
    ∀ node ∈ network.nodes, (network.router node).isSome → ∀ face ∈ network.faceTable node,
      network.metric face < 2^16 := by
  constructor
  · intro recovered node inside router face there
    have same := recovered node inside face there
    rw [calculateAllPossibleRoutes_metric,if_pos ⟨node,inside,router,there⟩] at same
    rw [← same]
    exact Nat.mod_lt _ (by decide)
  · intro fits node _ face _
    rw [calculateAllPossibleRoutes_metric]
    split
    · rename_i touched
      obtain ⟨other,inside,router,there⟩ := touched
      exact Nat.mod_eq_of_lt (fits other inside router face there)
    · rfl

end

end

def wideMetric : Network Unit Unit Unit where
  vertices := [()]
  incidencies _ := []
  metric _ := 70000
  localPrefixes _ := []
  nodes := [()]
  router _ := some ()
  faceTable _ := [()]
  netDevice _ := true
  distinct _ := List.nodup_singleton ()

theorem wide_metric_lost :
    ¬∀ (network : Network Unit Unit Unit) (order : List Unit)
      (dijkstra : Topology Unit Unit → Unit → Unit → Weight Unit) (fib : Unit → Fib Unit),
      ∀ node ∈ network.nodes, ∀ face ∈ network.faceTable node,
        (network.calculateAllPossibleRoutes order dijkstra ⟨network.metric,fib⟩).metric face = network.metric face := by
  intro always
  have same := always wideMetric [()] (fun _ _ _ => weightZero) (fun _ _ => []) () (by decide) () (by decide)
  rw [calculateAllPossibleRoutes_metric] at same
  revert same
  decide

end Ncfcc.Helper
