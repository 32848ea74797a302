import Mathlib.Data.List.Dedup
import Mathlib.Data.List.Sort
import Mathlib.Data.Set.Basic
import Mathlib.Logic.Relation

/-! Undirected graphs over arbitrary vertices: the set of vertices in their order, and the edges in
the order in which they were added, at most one between two vertices. -/
namespace Ncfcc.Library

structure AdjacencyList (V : Type) where
  vertices : List V
  edges : List (V × V)

namespace AdjacencyList
variable {V : Type} (g : AdjacencyList V)

/-- There is an edge between the vertices, in whichever direction it was added. -/
def Joined (first second : V) : Prop := (first,second) ∈ g.edges ∨ (second,first) ∈ g.edges

/-- Edges join vertices of the graph. -/
def Closed : Prop := ∀ edge ∈ g.edges, edge.1 ∈ g.vertices ∧ edge.2 ∈ g.vertices

def vertexSet : Set V := {v | v ∈ g.vertices}

/-! Paths inside a set of vertices. -/

def StepIn (inside : Set V) (first second : V) : Prop := first ∈ inside ∧ second ∈ inside ∧ g.Joined first second

def ReachIn (inside : Set V) : V → V → Prop := Relation.ReflTransGen (g.StepIn inside)

def ConnectedOn (inside : Set V) : Prop := ∀ first ∈ inside, ∀ second ∈ inside, g.ReachIn inside first second

section
variable {g} {other : AdjacencyList V} {inside wider : Set V} {first second : V}

theorem Joined.symm (joined : g.Joined first second) : g.Joined second first := Or.symm joined

theorem StepIn.symm (step : g.StepIn inside first second) : g.StepIn inside second first :=
  ⟨step.2.1,step.1,step.2.2.symm⟩

theorem ReachIn.symm (reached : g.ReachIn inside first second) : g.ReachIn inside second first := by
  induction reached with
  | refl => exact .refl
  | tail _ step ih => exact .head step.symm ih

theorem ReachIn.trans {third : V} (left : g.ReachIn inside first second) (right : g.ReachIn inside second third) :
    g.ReachIn inside first third := Relation.ReflTransGen.trans left right

theorem ReachIn.mono (reached : g.ReachIn inside first second)
    (kept : ∀ u v, g.StepIn inside u v → other.StepIn wider u v) : other.ReachIn wider first second :=
  Relation.ReflTransGen.mono kept _ _ reached

theorem ReachIn.map {W : Type} {image : AdjacencyList W} {range : Set W} (f : V → W) (reached : g.ReachIn inside first second)
    (kept : ∀ u v, g.StepIn inside u v → image.StepIn range (f u) (f v)) : image.ReachIn range (f first) (f second) :=
  Relation.ReflTransGen.lift f kept _ _ reached

/-- What no step leaves is not left by a path, which is a path inside it. -/
theorem ReachIn.restrict (reached : g.ReachIn inside first second) (kept : Set V) (start : first ∈ kept)
    (stays : ∀ u v, u ∈ kept → g.StepIn inside u v → v ∈ kept) :
    second ∈ kept ∧ g.ReachIn (inside ∩ kept) first second := by
  induction reached with
  | refl => exact ⟨start,.refl⟩
  | tail _ step ih =>
    obtain ⟨here,path⟩ := ih
    have there := stays _ _ here step
    exact ⟨there,path.tail ⟨⟨step.1,here⟩,⟨step.2.1,there⟩,step.2.2⟩⟩

theorem ConnectedOn.mono (connected : g.ConnectedOn inside) (more : ∀ u v, g.Joined u v → other.Joined u v) :
    other.ConnectedOn inside := by
  intro first here second there
  exact (connected first here second there).mono fun u v step => ⟨step.1,step.2.1,more u v step.2.2⟩

/-- An edge joins two connected parts. -/
theorem ConnectedOn.union (left : g.ConnectedOn inside) (right : g.ConnectedOn wider) (here : first ∈ inside)
    (there : second ∈ wider) (joined : g.Joined first second) : g.ConnectedOn (inside ∪ wider) := by
  have widenLeft : ∀ u v, g.ReachIn inside u v → g.ReachIn (inside ∪ wider) u v := fun u v reached =>
    reached.mono fun _ _ step => ⟨Or.inl step.1,Or.inl step.2.1,step.2.2⟩
  have widenRight : ∀ u v, g.ReachIn wider u v → g.ReachIn (inside ∪ wider) u v := fun u v reached =>
    reached.mono fun _ _ step => ⟨Or.inr step.1,Or.inr step.2.1,step.2.2⟩
  have bridge : g.ReachIn (inside ∪ wider) first second := .single ⟨Or.inl here,Or.inr there,joined⟩
  -- every vertex of either part reaches the first end of the edge
  have hub : ∀ v ∈ inside ∪ wider, g.ReachIn (inside ∪ wider) v first := by
    rintro v (inLeft | inRight)
    · exact widenLeft v first (left v inLeft first here)
    · exact (widenRight v second (right v inRight second there)).trans bridge.symm
  intro u inU v inV
  exact (hub u inU).trans (hub v inV).symm

end

/-! The operations. -/

variable [LinearOrder V]

instance decidableJoined (first second : V) : Decidable (g.Joined first second) :=
  inferInstanceAs (Decidable (_ ∨ _))

def addVertex (v : V) : AdjacencyList V := {g with vertices := g.vertices.orderedInsert (· ≤ ·) v}

/-- Parallel edges are not added. -/
def addEdge (first second : V) : AdjacencyList V :=
  if g.Joined first second then g else {g with edges := g.edges ++ [(first,second)]}

def adjacentVertices (v : V) : List V := g.vertices.filter fun other => g.Joined v other

def outDegree (v : V) : Nat := (g.adjacentVertices v).length

def clearVertex (v : V) : AdjacencyList V :=
  {g with edges := g.edges.filter fun edge => edge.1 ≠ v ∧ edge.2 ≠ v}

def removeVertex (v : V) : AdjacencyList V := {g with vertices := g.vertices.filter fun other => other ≠ v}

def removeEdge (edge : V × V) : AdjacencyList V := {g with edges := g.edges.filter fun other => other ≠ edge}

section
variable {g} {first second v : V}

theorem joined_addEdge (first second u v : V) : (g.addEdge first second).Joined u v ↔
    g.Joined u v ∨ u = first ∧ v = second ∨ u = second ∧ v = first := by
  unfold addEdge
  split
  · rename_i already
    refine (or_iff_left_of_imp ?_).symm
    rintro (⟨rfl,rfl⟩ | ⟨rfl,rfl⟩)
    · exact already
    · exact already.symm
  · simp only [Joined,List.mem_append,List.mem_singleton,Prod.mk.injEq]
    tauto

theorem addEdge_vertices (first second : V) : (g.addEdge first second).vertices = g.vertices := by
  unfold addEdge
  split <;> rfl

theorem mem_adjacentVertices {u : V} : u ∈ g.adjacentVertices v ↔ u ∈ g.vertices ∧ g.Joined v u := by
  simp [adjacentVertices]

theorem Closed.addVertex (closed : g.Closed) (v : V) : (g.addVertex v).Closed := by
  intro edge inside
  obtain ⟨left,right⟩ := closed edge inside
  simp only [AdjacencyList.addVertex,List.mem_orderedInsert]
  exact ⟨Or.inr left,Or.inr right⟩

theorem Closed.addEdge (closed : g.Closed) (here : first ∈ g.vertices) (there : second ∈ g.vertices) :
    (g.addEdge first second).Closed := by
  unfold AdjacencyList.addEdge
  split
  · exact closed
  · intro edge inside
    rcases List.mem_append.mp inside with old | new
    · exact closed edge old
    · rw [List.mem_singleton.mp new]
      exact ⟨here,there⟩

/-- A loop that removes from a list what is not apart from some doomed items. -/
theorem foldl_remove {σ ι ε : Type} (holding : List ε → σ) {remove : σ → ι → σ} (apart : ι → ε → Prop) [∀ item, DecidablePred (apart item)]
    (removes : ∀ held item, remove (holding held) item = holding (held.filter fun other => apart item other)) (doomed : ι → Bool)
    (order : List ι) (held : List ε) : order.foldl (fun state item => if doomed item then remove state item else state) (holding held) =
      holding (held.filter fun other => ∀ item ∈ order, doomed item = true → apart item other) := by
  induction order generalizing held with
  | nil => simp
  | cons item rest ih =>
    rw [List.foldl_cons]
    split
    · rename_i out
      rw [removes,ih]
      simp only [List.filter_filter,List.forall_mem_cons,out,forall_const,Bool.decide_and,Bool.and_comm]
    · rename_i stays
      rw [ih]
      simp only [List.forall_mem_cons,stays,Bool.false_eq_true,false_implies,true_and]

theorem foldl_clearVertex (doomed : V → Bool) (order : List V) (g : AdjacencyList V) :
    order.foldl (fun g v => if doomed v then g.clearVertex v else g) g =
      {g with edges := g.edges.filter fun edge => ∀ v ∈ order, doomed v = true → edge.1 ≠ v ∧ edge.2 ≠ v} :=
  foldl_remove (fun edges => {g with edges}) (fun v edge => edge.1 ≠ v ∧ edge.2 ≠ v) (fun _ _ => rfl) doomed order g.edges

theorem foldl_removeVertex (doomed : V → Bool) (order : List V) (g : AdjacencyList V) :
    order.foldl (fun g v => if doomed v then g.removeVertex v else g) g =
      {g with vertices := g.vertices.filter fun other => ∀ v ∈ order, doomed v = true → other ≠ v} :=
  foldl_remove (fun vertices => {g with vertices}) (fun v other => other ≠ v) (fun _ _ => rfl) doomed order g.vertices

theorem foldl_removeEdge (doomed : V × V → Bool) (order : List (V × V)) (g : AdjacencyList V) :
    order.foldl (fun g edge => if doomed edge then g.removeEdge edge else g) g =
      {g with edges := g.edges.filter fun other => ∀ edge ∈ order, doomed edge = true → other ≠ edge} :=
  foldl_remove (fun edges => {g with edges}) (fun edge other => other ≠ edge) (fun _ _ => rfl) doomed order g.edges

end

end AdjacencyList

end Ncfcc.Library
