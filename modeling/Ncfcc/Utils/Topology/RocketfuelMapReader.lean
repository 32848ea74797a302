import Mathlib.Algebra.Group.Nat.Defs
import Ncfcc.Library.Components

/-! The reader of Rocketfuel maps. The nodes of a map become clients, gateways and backbone routers by
their degrees; the backbone is connected with random links, links of the wrong type are deleted,
and what is not in the biggest connected component is left out. -/
namespace Ncfcc.Utils.Rocketfuel
open Ncfcc.Library

inductive NodeType where
  | unknown
  | client
  | gateway
  | backbone
  deriving DecidableEq

def NodeType.value : NodeType → Nat
  | unknown => 0
  | client => 1
  | gateway => 2
  | backbone => 3

structure NodeProperty where
  name : String
  index : Nat
  rank : NodeType
  color : String
  deriving DecidableEq

/-- An adjacency list with properties of its vertices, which are addresses. -/
structure Graph (π : Type) extends AdjacencyList Nat where
  property : Nat → π

namespace Graph
variable {π : Type}

def put (g : Graph π) (v : Nat) (value : π) : Graph π := {g with property := Function.update g.property v value}

/-- The addresses of vertices are decided by the allocator. -/
def addVertex (g : Graph π) (v : Nat) (value : π) : Graph π :=
  {g.toAdjacencyList.addVertex v with property := Function.update g.property v value}

def addEdge (g : Graph π) (first second : Nat) : Graph π := {g.toAdjacencyList.addEdge first second with property := g.property}

end Graph

structure Allocator where
  fresh : List Nat → Nat
  unused : ∀ used, fresh used ∉ used

def ascending : Allocator where
  fresh used := used.max?.getD 0 + 1
  unused _ inside := Nat.not_succ_le_self _ (List.le_max?_getD_of_mem inside)

/-- The greatest `int`. -/
def intMax : Nat := 2^31 - 1

/-- How `Read` may end otherwise: with one of its fatal errors, in a recursion that goes on after as many
calls as there are nodes, or where the language defines nothing. -/
inductive Failure where
  | fatal (message : String)
  | endless
  | undefined
  deriving DecidableEq

/-! Reading the map. -/

/-- What a line of the map gives: the node, its neighbours, and its distance from the area. -/
structure MapLine where
  uid : String
  neighList : List String
  radius : Int

structure Reading where
  graph : Graph NodeProperty
  graphNodes : List (String × Nat)
  maxNodeId : Nat

def Reading.empty : Reading := ⟨⟨⟨[],[]⟩,fun _ => ⟨"",0,.unknown,""⟩⟩,[],0⟩

section
variable (allocator : Allocator)

/-- The vertex of a name, which is added if there is none. The counter of vertices has 32 bits. -/
def findNode (reading : Reading) (uid : String) : Nat × Reading :=
  match reading.graphNodes.lookup uid with
  | some v => (v,reading)
  | none =>
    let v := allocator.fresh reading.graph.vertices
    (v,⟨reading.graph.addVertex v ⟨uid,reading.maxNodeId,.unknown,""⟩,(uid,v) :: reading.graphNodes,
      (reading.maxNodeId + 1) % 2^32⟩)

def addNeighbour (node : Nat) (reading : Reading) (nuid : String) : Reading :=
  if nuid.isEmpty then reading
  else
    let (other,found) := findNode allocator reading nuid
    {found with graph := found.graph.addEdge node other}

def generateFromMapsFile (reading : Reading) (line : MapLine) : Reading :=
  if line.radius > 0 then reading
  else if line.uid.isEmpty then reading
  else
    let (node,found) := findNode allocator reading line.uid
    line.neighList.foldl (addNeighbour allocator node) found

def mapGraph (lines : List MapLine) : Graph NodeProperty := (lines.foldl (generateFromMapsFile allocator) .empty).graph

end

/-! Connected components. -/

section
variable {π : Type} (labels : ComponentLabels Nat) (index : π → Nat)

/-- The indices number the vertices, which is what `connected_components` goes by. -/
def Numbered (g : Graph π) : Prop := (g.vertices.map fun v => index (g.property v)).Perm (List.range g.vertices.length)

instance decidableNumbered (g : Graph π) : Decidable (Numbered index g) := inferInstanceAs (Decidable (List.Perm _ _))

/-- How many components there are, counted by an `int`. -/
def connectedComponents (g : Graph π) : Except Failure Nat :=
  if Numbered index g ∧ labels.count g.toAdjacencyList ≤ intMax then .ok (labels.count g.toAdjacencyList) else .error .undefined

end

def countSizes (component : Nat → Nat) (sizes : List Nat) : List Nat → Except Failure (List Nat)
  | [] => .ok sizes
  | v :: rest =>
    match sizes[component v]? with
    | none => .error .undefined
    | some size => if size = intMax then .error .undefined else countSizes component (sizes.set (component v) (size + 1)) rest

/-- The index of the first greatest element, zero if there is none. -/
def maxElement (sizes : List Nat) : Nat := sizes.idxOf (sizes.foldl max 0)

def renumber (index : Nat) (g : Graph NodeProperty) : List Nat → Except Failure (Graph NodeProperty)
  | [] => .ok g
  | v :: rest =>
    if index = intMax then .error .undefined
    else renumber (index + 1) (g.put v {g.property v with index}) rest

def keepComponent (component : Nat → Nat) (kept : Nat) (g : Graph NodeProperty) : Graph NodeProperty :=
  let others := fun v => component v != kept
  let cleared := g.vertices.foldl (fun h v => if others v then AdjacencyList.clearVertex h v else h) g.toAdjacencyList
  {g.vertices.foldl (fun h v => if others v then AdjacencyList.removeVertex h v else h) cleared with property := g.property}

def keepOnlyBiggestConnectedComponent (labels : ComponentLabels Nat) (g : Graph NodeProperty) :
    Except Failure (Graph NodeProperty) :=
  (connectedComponents labels NodeProperty.index g).bind fun num =>
    (countSizes (labels.label g.toAdjacencyList) (List.replicate num 0) g.vertices).bind fun sizes =>
      let kept := keepComponent (labels.label g.toAdjacencyList) (maxElement sizes) g
      renumber 0 kept kept.vertices

/-! Node types. -/

/-- The vertices are ranked that this call and those inside it reach; none if it goes on after this
many calls inside each other. -/
def assignGw (degree : Nat) : (calls : Nat) → NodeType → Nat → Graph NodeProperty → Option (Graph NodeProperty)
  | 0, _, _, _ => none
  | calls + 1, nodeType, vertex, g =>
    (g.adjacentVertices vertex).foldlM (fun h u =>
      if (h.property u).rank ≠ .unknown then some h
      else
        let ranked := h.put u {h.property u with rank := nodeType, color := "green"}
        if ranked.outDegree u % 2^32 < degree then assignGw degree calls .backbone u ranked else some ranked) g

def assignClient (clientDegree gwDegree : Nat) (g : Graph NodeProperty) (v : Nat) : Option (Graph NodeProperty) :=
  if g.outDegree v % 2^32 = clientDegree then
    assignGw ((gwDegree + 1) % 2^32) (g.vertices.length + 1) .gateway v
      (g.put v {g.property v with rank := .client, color := "red"})
  else some g

def assignClients (clientDegree gwDegree : Nat) (g : Graph NodeProperty) : Option (Graph NodeProperty) :=
  g.vertices.foldlM (assignClient clientDegree gwDegree) g

/-- The loop over the degrees of clients, whose counter is an `int`. -/
def assignDegrees (clientNodeDegrees : Int32) (clientDegree : Nat) (g : Graph NodeProperty) :
    Except Failure (Graph NodeProperty) :=
  if (clientDegree : Int) ≤ clientNodeDegrees.toInt then
    match assignClients clientDegree (min clientDegree 3) g with
    | none => .error .endless
    | some ranked =>
      if clientDegree = intMax then .error .undefined else assignDegrees clientNodeDegrees (clientDegree + 1) ranked
  else .ok g
termination_by (clientNodeDegrees.toInt + 1 - clientDegree).toNat
decreasing_by omega

/-- All other nodes are backbone routers. -/
def assignBackbones (g : Graph NodeProperty) : Graph NodeProperty :=
  g.vertices.foldl (fun h v =>
    if (h.property v).rank = .unknown then h.put v {h.property v with rank := .backbone, color := "blue"} else h) g

/-! The backbone. -/

structure BbProperty where
  name : Nat
  index : Nat

structure BbReading where
  graph : Graph BbProperty
  nodeMap : Nat → Option Nat
  index : Nat

def addBackbone (allocator : Allocator) (g : Graph NodeProperty) (bb : BbReading) (v : Nat) : Except Failure BbReading :=
  if (g.property v).rank = .backbone then
    let newv := allocator.fresh (g.vertices ++ bb.graph.vertices)
    if bb.index = intMax then .error .undefined
    else .ok ⟨bb.graph.addVertex newv ⟨v,bb.index⟩,Function.update bb.nodeMap v (some newv),bb.index + 1⟩
  else .ok bb

def addBackboneEdges (g : Graph NodeProperty) (nodeMap : Nat → Option Nat) (bbGraph : Graph BbProperty) (bb : Nat) : Graph BbProperty :=
  let actualVertex := (bbGraph.property bb).name
  (g.adjacentVertices actualVertex).foldl (fun h u =>
    match nodeMap actualVertex,nodeMap u with
    | some first,some second => h.addEdge first second
    | _,_ => h) bbGraph

def backboneGraph (allocator : Allocator) (g : Graph NodeProperty) : Except Failure (Graph BbProperty) :=
  (g.vertices.foldlM (addBackbone allocator g) ⟨⟨⟨[],[]⟩,fun _ => ⟨0,0⟩⟩,fun _ => none,0⟩).map fun bb =>
    bb.graph.vertices.foldl (addBackboneEdges g bb.nodeMap) bb.graph

/-- A random vertex of a component and one of the next are joined. -/
def joinComponents (draw : Nat → Nat) (bbGraph : Graph BbProperty) (component : Nat → Nat) (g : Graph NodeProperty) (i : Nat) :
    Except Failure (Graph NodeProperty) :=
  let subgraph := fun label => bbGraph.vertices.filter fun bb => component bb = label
  let node1 := draw (2 * i) % (subgraph i).length
  let node2 := draw (2 * i + 1) % (subgraph (i + 1)).length
  match (subgraph i)[node1]?,(subgraph (i + 1))[node2]? with
  | some first,some second => .ok (g.addEdge (bbGraph.property first).name (bbGraph.property second).name)
  | _,_ => .error .undefined

def connectBackboneRouters (allocator : Allocator) (labels : ComponentLabels Nat) (draw : Nat → Nat) (g : Graph NodeProperty) :
    Except Failure (Graph NodeProperty) :=
  (backboneGraph allocator g).bind fun bbGraph =>
    (connectedComponents labels BbProperty.index bbGraph).bind fun num =>
      if num = 1 then .ok g
      else (List.range (num - 1)).foldlM (joinComponents draw bbGraph (labels.label bbGraph.toAdjacencyList)) g

/-! Links. -/

inductive LinkType where
  | b2b
  | b2g
  | g2c
  deriving DecidableEq

/-- The class of a link between nodes of these types; there is none for a wrong link. -/
def linkType : NodeType → NodeType → Option LinkType
  | .backbone,.backbone => some .b2b
  | .gateway,.backbone => some .b2g
  | .backbone,.gateway => some .b2g
  | .gateway,.gateway => some .b2g
  | .gateway,.client => some .g2c
  | .client,.gateway => some .g2c
  | _,_ => none

def deleteWrongLinks (g : Graph NodeProperty) : Graph NodeProperty :=
  {g.edges.foldl (fun h edge =>
    if (linkType (g.property edge.1).rank (g.property edge.2).rank).isNone then AdjacencyList.removeEdge h edge else h)
    g.toAdjacencyList with property := g.property}

structure LinkParams where
  minBandwidth : String
  minDelay : String
  maxBandwidth : String
  maxDelay : String
  deriving DecidableEq

structure RocketfuelParams where
  clientNodeDegrees : Int32
  links : LinkType → LinkParams

structure Link where
  fromName : String
  toName : String
  params : LinkParams
  deriving DecidableEq

structure Reader where
  graph : Graph NodeProperty
  backboneRouters : List String
  gatewayRouters : List String
  customerRouters : List String
  links : List Link

def createNode (reader : Reader) (v : Nat) : Except Failure Reader :=
  let property := reader.graph.property v
  let renamed := fun name => reader.graph.put v {property with name}
  match property.rank with
  | .backbone =>
    let name := "bb-" ++ property.name
    .ok {reader with graph := renamed name, backboneRouters := reader.backboneRouters ++ [name]}
  | .client =>
    let name := "leaf-" ++ property.name
    .ok {reader with graph := renamed name, customerRouters := reader.customerRouters ++ [name]}
  | .gateway =>
    let name := "gw-" ++ property.name
    .ok {reader with graph := renamed name, gatewayRouters := reader.gatewayRouters ++ [name]}
  | .unknown => .error (.fatal "Should not happen")

def createLink (params : RocketfuelParams) (reader : Reader) (edge : Nat × Nat) : Except Failure Reader :=
  let u := reader.graph.property edge.1
  let v := reader.graph.property edge.2
  match linkType u.rank v.rank with
  | some type => .ok {reader with links := reader.links ++ [⟨u.name,v.name,params.links type⟩]}
  | none => .error (.fatal s!"Wrong link type between nodes: {u.rank.value} <-> {v.rank.value}")

def createAll (params : RocketfuelParams) (g : Graph NodeProperty) : Except Failure Reader :=
  (g.vertices.foldlM createNode ⟨g,[],[],[],[]⟩).bind fun reader => reader.graph.edges.foldlM (createLink params) reader

/-! The reader. -/

section
variable (allocator : Allocator) (labels : ComponentLabels Nat) (draw : Nat → Nat) (params : RocketfuelParams)
  (keepOneComponent connectBackbones : Bool)

def rankedGraph (lines : List MapLine) : Except Failure (Graph NodeProperty) :=
  let graph := mapGraph allocator lines
  (if keepOneComponent then keepOnlyBiggestConnectedComponent labels graph else .ok graph).bind fun graph =>
    (assignDegrees params.clientNodeDegrees 1 graph).map assignBackbones

def linkedGraph (lines : List MapLine) : Except Failure (Graph NodeProperty) :=
  (rankedGraph allocator labels params keepOneComponent lines).bind fun graph =>
    (if connectBackbones then connectBackboneRouters allocator labels draw graph else .ok graph).bind fun graph =>
      if keepOneComponent then keepOnlyBiggestConnectedComponent labels (deleteWrongLinks graph)
      else .ok (deleteWrongLinks graph)

def read (lines : List MapLine) : Except Failure Reader :=
  (linkedGraph allocator labels draw params keepOneComponent connectBackbones lines).bind (createAll params)

end

end Ncfcc.Utils.Rocketfuel
