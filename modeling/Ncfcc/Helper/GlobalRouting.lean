import Ncfcc.Library.Paths
import Ncfcc.Name
import Ncfcc.Nfd.Table.FibEntry

/-! The global routing helper: the weights it gives to Dijkstra's algorithm and the
routes it installs from the distances found. -/
namespace Ncfcc.Helper
open Ncfcc.Library Ncfcc.Nfd.Table

/-- The global routers with their edges. An edge out of a channel has no face. -/
structure Topology (Router Face : Type) where
  vertices : List Router
  incidencies : Router → List (Option Face × Router)
  metric : Face → Nat
  localPrefixes : Router → List Name

/-- The face of the first edge and the metric in 32 bits; the delay is always zero. -/
structure Weight (Face : Type) where
  face : Option Face
  metric : Nat
  deriving DecidableEq

section
variable {Router Face : Type}

def weightZero : Weight Face := ⟨none,0⟩

def weightInf : Weight Face := ⟨none,2^16 - 1⟩

/-- `WeightCompare`. -/
def weightCompare (first second : Weight Face) : Bool := first.metric < second.metric

/-- `WeightCombine`. -/
def weightCombine (first second : Weight Face) : Weight Face :=
  match first.face with
  | none => ⟨second.face,(first.metric + second.metric) % 2^32⟩
  | some face => ⟨some face,(first.metric + second.metric) % 2^32⟩

/-- The metric an edge has for Dijkstra's algorithm, cut to 16 bits. -/
def Topology.narrowMetric (topology : Topology Router Face) : Option Face → Nat
  | none => 0
  | some face => topology.metric face % 2^16

def Topology.faceMetric (topology : Topology Router Face) : Option Face → Nat
  | none => 0
  | some face => topology.metric face

/-- `get` of the edge weights. -/
def Topology.edgeWeight (topology : Topology Router Face) (edge : Option Face) : Weight Face :=
  ⟨edge,topology.narrowMetric edge⟩

def Topology.combined (topology : Topology Router Face) (path : List (Option Face × Router)) : Weight Face :=
  path.foldl (fun weight step => weightCombine weight (topology.edgeWeight step.1)) weightZero

/-- What Dijkstra's algorithm promises of the distances it returns: each is infinity or
the combined weight of a path that is below it, and no path combines to less. The sums
that do not fit the 32 bits of a distance are left out, the algorithm never forms them. -/
structure ShortestPaths (topology : Topology Router Face) (source : Router) (distances : Router → Weight Face) :
    Prop where
  attained : ∀ vertex, vertex ≠ source → distances vertex = weightInf ∨
    weightCompare (distances vertex) weightInf = true ∧
      ∃ path, IsPath topology.incidencies source path vertex ∧ pathCost topology.narrowMetric path < 2^32 ∧
        distances vertex = topology.combined path
  least : ∀ vertex path, vertex ≠ source → IsPath topology.incidencies source path vertex →
    pathCost topology.narrowMetric path < 2^32 → weightCompare (topology.combined path) (distances vertex) = false

abbrev Fib (Face : Type) := Name → List (NextHop Face)

section
variable [DecidableEq Face]

/-- `FibHelper::AddRoute`: the metric passes through a signed 32-bit integer into the 64-bit cost. -/
def addRoute (fib : Fib Face) (name : Name) (face : Face) (metric : Nat) : Fib Face :=
  fun other =>
    if other = name then addNextHop (fib other) face (if metric < 2^31 then metric else metric + (2^64 - 2^32))
    else fib other

variable [DecidableEq Router]

def routesTo (topology : Topology Router Face) (distances : Router → Weight Face) (source : Router)
    (fib : Fib Face) (vertex : Router) : Fib Face :=
  if vertex = source then fib
  else
    match (distances vertex).face with
    | none => fib
    | some face =>
      (topology.localPrefixes vertex).foldl (fun fib name => addRoute fib name face (distances vertex).metric) fib

/-- `CalculateRoutes` at one node, from an empty FIB. The distance map is iterated in
the order of its keys, which are addresses. -/
def calculateRoutes (topology : Topology Router Face) (order : List Router) (distances : Router → Weight Face)
    (source : Router) : Fib Face :=
  order.foldl (routesTo topology distances source) fun _ => []

end

end

end Ncfcc.Helper
