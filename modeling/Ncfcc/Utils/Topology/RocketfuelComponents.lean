import Mathlib.Data.List.GetD
import Mathlib.Data.List.Perm.Basic
import Ncfcc.Utils.Topology.RocketfuelMapReader

/-! The graph of a Rocketfuel map and its biggest connected component: what is kept is connected, and
counters run over exactly if there are too many nodes or components. -/
namespace Ncfcc.Utils.Rocketfuel
open Ncfcc.Library

/-! The graph of the map. -/

/-- Vertices are numbered as they were added, up to the width of the counter. -/
structure Mapped (reading : Reading) : Prop where
  once : reading.graph.vertices.Nodup
  closed : reading.graph.Closed
  known : ∀ node ∈ reading.graphNodes, node.2 ∈ reading.graph.vertices
  index : (reading.graph.vertices.map fun v => (reading.graph.property v).index).Perm
    ((List.range reading.graph.vertices.length).map fun i => i % 2^32)
  counter : reading.maxNodeId = reading.graph.vertices.length % 2^32

theorem addVertex_perm {π : Type} (g : Graph π) (v : Nat) (value : π) : (g.addVertex v value).vertices.Perm (v :: g.vertices) :=
  List.perm_orderedInsert (· ≤ ·) v g.vertices

/-- A property of all vertices after one was added. -/
theorem addVertex_map {π α : Type} (g : Graph π) {v : Nat} (absent : v ∉ g.vertices) (value : π) (read : π → α) :
    ((g.addVertex v value).vertices.map fun u => read ((g.addVertex v value).property u)).Perm
      (read value :: g.vertices.map fun u => read (g.property u)) := by
  have others : (g.vertices.map fun u => read ((g.addVertex v value).property u)) = g.vertices.map fun u => read (g.property u) := by
    apply List.map_congr_left
    intro u inside
    apply congrArg
    apply Function.update_of_ne
    exact fun same => absent (same ▸ inside)
  refine ((addVertex_perm g v value).map _).trans ?_
  rw [List.map_cons,others]
  refine List.Perm.of_eq ?_
  apply congrArg (fun own => own :: _)
  exact congrArg read (Function.update_self ..)

section
variable {allocator : Allocator} {reading : Reading}

/-- A vertex is found or added, and no other changes. -/
theorem Mapped.findNode (allocator : Allocator) (mapped : Mapped reading) (uid : String) :
    Mapped (findNode allocator reading uid).2 ∧ (findNode allocator reading uid).1 ∈ (findNode allocator reading uid).2.graph.vertices ∧
      ∀ v ∈ reading.graph.vertices, v ∈ (findNode allocator reading uid).2.graph.vertices := by
  unfold Rocketfuel.findNode
  cases found : reading.graphNodes.lookup uid with
  | some v =>
    refine ⟨mapped,?_,fun _ inside => inside⟩
    obtain ⟨before,after,split,_⟩ := List.lookup_eq_some_iff.mp found
    exact mapped.known (uid,v) (split ▸ List.mem_append_right before List.mem_cons_self)
  | none =>
    have absent := allocator.unused reading.graph.vertices
    have perm := addVertex_perm reading.graph (allocator.fresh reading.graph.vertices) ⟨uid,reading.maxNodeId,.unknown,""⟩
    refine ⟨⟨?_,mapped.closed.addVertex _,?_,?_,?_⟩,perm.mem_iff.mpr List.mem_cons_self,fun v inside =>
      perm.mem_iff.mpr (List.mem_cons_of_mem _ inside)⟩
    · exact perm.nodup_iff.mpr (List.nodup_cons.mpr ⟨absent,mapped.once⟩)
    · intro node inside
      rcases List.mem_cons.mp inside with rfl | old
      · exact perm.mem_iff.mpr List.mem_cons_self
      · exact perm.mem_iff.mpr (List.mem_cons_of_mem _ (mapped.known node old))
    · have length := perm.length_eq
      dsimp only
      rw [length,List.length_cons,List.range_succ,List.map_append]
      refine (addVertex_map reading.graph absent _ NodeProperty.index).trans ?_
      refine List.Perm.trans ?_ (List.perm_append_singleton _ _).symm
      rw [mapped.counter]
      exact mapped.index.cons _
    · dsimp only
      rw [perm.length_eq,List.length_cons,mapped.counter]
      omega

theorem Mapped.addEdge (mapped : Mapped reading) {first second : Nat} (here : first ∈ reading.graph.vertices)
    (there : second ∈ reading.graph.vertices) : Mapped {reading with graph := reading.graph.addEdge first second} := by
  have same : (reading.graph.addEdge first second).vertices = reading.graph.vertices := AdjacencyList.addEdge_vertices _ _
  refine ⟨?_,mapped.closed.addEdge here there,?_,?_,?_⟩
  · rw [same]
    exact mapped.once
  · rw [same]
    exact mapped.known
  · rw [same]
    exact mapped.index
  · rw [same]
    exact mapped.counter

theorem Mapped.addNeighbour (mapped : Mapped reading) {node : Nat} (here : node ∈ reading.graph.vertices) (nuid : String) :
    Mapped (addNeighbour allocator node reading nuid) ∧ node ∈ (addNeighbour allocator node reading nuid).graph.vertices := by
  unfold Rocketfuel.addNeighbour
  split
  · exact ⟨mapped,here⟩
  · obtain ⟨after,there,grown⟩ := mapped.findNode allocator nuid
    refine ⟨after.addEdge (grown node here) there,?_⟩
    have same := AdjacencyList.addEdge_vertices (g := (Rocketfuel.findNode allocator reading nuid).2.graph.toAdjacencyList)
      node (Rocketfuel.findNode allocator reading nuid).1
    exact same.symm ▸ grown node here

theorem Mapped.addNeighbours (mapped : Mapped reading) {node : Nat} (here : node ∈ reading.graph.vertices) (neighList : List String) :
    Mapped (neighList.foldl (Rocketfuel.addNeighbour allocator node) reading) := by
  induction neighList generalizing reading with
  | nil => exact mapped
  | cons nuid rest ih =>
    obtain ⟨after,still⟩ := mapped.addNeighbour here nuid
    exact ih after still

theorem Mapped.line (mapped : Mapped reading) (line : MapLine) : Mapped (generateFromMapsFile allocator reading line) := by
  unfold generateFromMapsFile
  split
  · exact mapped
  · split
    · exact mapped
    · obtain ⟨after,there,_⟩ := mapped.findNode allocator line.uid
      exact after.addNeighbours there line.neighList

end

theorem Mapped.empty : Mapped .empty := by
  refine ⟨List.nodup_nil,?_,?_,List.Perm.refl _,rfl⟩
  · intro edge inside
    exact absurd inside List.not_mem_nil
  · intro node inside
    exact absurd inside List.not_mem_nil

theorem Mapped.lines (allocator : Allocator) {reading : Reading} (mapped : Mapped reading) (lines : List MapLine) :
    Mapped (lines.foldl (generateFromMapsFile allocator) reading) := by
  induction lines generalizing reading with
  | nil => exact mapped
  | cons line rest ih => exact ih (mapped.line line)

theorem mapGraph_mapped (allocator : Allocator) (lines : List MapLine) :
    Mapped (lines.foldl (generateFromMapsFile allocator) .empty) := Mapped.empty.lines allocator lines

/-- The counter of vertices has not run over. -/
theorem Mapped.numbered_iff {reading : Reading} (mapped : Mapped reading) :
    Numbered NodeProperty.index reading.graph ↔ reading.graph.vertices.length ≤ 2^32 := by
  constructor
  · intro numbered
    by_contra exceeds
    have range := numbered.symm.trans mapped.index
    have last := range.mem_iff.mp (List.mem_range.mpr (Nat.lt_of_not_le exceeds))
    obtain ⟨i,_,same⟩ := List.mem_map.mp last
    have below := Nat.mod_lt i (show 0 < 2^32 by decide)
    omega
  · intro fits
    refine mapped.index.trans (List.Perm.of_eq ?_)
    refine (List.map_congr_left ?_).trans (List.map_id _)
    intro i inside
    exact Nat.mod_eq_of_lt (Nat.lt_of_lt_of_le (List.mem_range.mp inside) fits)

/-! Counting vertices and numbering them again. -/

theorem Graph.put_read {π α : Type} (g : Graph π) {v : Nat} {value : π} (read : π → α) (same : read value = read (g.property v))
    (u : Nat) : read ((g.put v value).property u) = read (g.property u) := by
  by_cases own : u = v
  · subst own
    exact (congrArg read (Function.update_self ..)).trans same
  · exact congrArg read (Function.update_of_ne own ..)

def componentSize (labels : ComponentLabels Nat) (g : AdjacencyList Nat) (i : Nat) : Nat :=
  g.vertices.countP fun v => labels.label g v = i

/-- What is counted and what is to be counted stays the same. -/
theorem getD_set_add_countP (component : Nat → Nat) {sizes : List Nat} {v : Nat} (inside : component v < sizes.length)
    (rest : List Nat) (i : Nat) : (sizes.set (component v) (sizes[component v] + 1)).getD i 0 + rest.countP (component · = i) =
      sizes.getD i 0 + (v :: rest).countP (component · = i) := by
  rw [List.countP_cons,List.getD_eq_getElem?_getD,List.getD_eq_getElem?_getD,List.getElem?_set]
  split
  · rename_i same
    subst same
    simp only [inside,↓reduceIte,Option.getD_some,List.getElem?_eq_getElem,decide_true]
    omega
  · rename_i different
    simp only [different,decide_false,Bool.false_eq_true,↓reduceIte,Nat.add_zero]

private theorem countSizes_ok (component : Nat → Nat) (order sizes : List Nat) (inside : ∀ v ∈ order, component v < sizes.length)
    (fit : ∀ i, sizes.getD i 0 + order.countP (component · = i) ≤ intMax) :
    ∃ counted, countSizes component sizes order = .ok counted := by
  induction order generalizing sizes with
  | nil => exact ⟨sizes,rfl⟩
  | cons v rest ih =>
    have here := inside v List.mem_cons_self
    have bound := fit (component v)
    rw [← getD_set_add_countP component here,List.getD_eq_getElem?_getD,List.getElem?_set_self here] at bound
    have below : sizes[component v] ≠ intMax := by
      intro full
      rw [full,Option.getD_some] at bound
      omega
    simp only [countSizes,List.getElem?_eq_getElem here,below,↓reduceIte]
    apply ih
    · intro u member
      rw [List.length_set]
      exact inside u (List.mem_cons_of_mem v member)
    · intro i
      rw [getD_set_add_countP component here]
      exact fit i

private theorem countSizes_undefined (component : Nat → Nat) (order sizes : List Nat) (inside : ∀ v ∈ order, component v < sizes.length)
    (below : ∀ i, sizes.getD i 0 ≤ intMax) {i : Nat} (exceeds : intMax < sizes.getD i 0 + order.countP (component · = i)) :
    countSizes component sizes order = .error .undefined := by
  induction order generalizing sizes with
  | nil => exact absurd exceeds (Nat.not_lt_of_le (below i))
  | cons v rest ih =>
    have here := inside v List.mem_cons_self
    by_cases full : sizes[component v] = intMax
    · simp only [countSizes,List.getElem?_eq_getElem here,full,↓reduceIte]
    · simp only [countSizes,List.getElem?_eq_getElem here,full,↓reduceIte]
      apply ih
      · intro u member
        rw [List.length_set]
        exact inside u (List.mem_cons_of_mem v member)
      · intro j
        have before := below j
        have own := below (component v)
        rw [List.getD_eq_getElem?_getD,List.getElem?_eq_getElem here,Option.getD_some] at own
        rw [List.getD_eq_getElem?_getD] at before ⊢
        rw [List.getElem?_set]
        split
        · rw [Option.getD_some]
          omega
        · exact before
      · rw [getD_set_add_countP component here]
        exact exceeds

private theorem renumber_ok (order : List Nat) (once : order.Nodup) (index : Nat) (g : Graph NodeProperty)
    (fit : index + order.length ≤ intMax) : ∃ h, renumber index g order = .ok h ∧ h.toAdjacencyList = g.toAdjacencyList ∧
      (∀ v, (h.property v).rank = (g.property v).rank) ∧ (∀ v ∉ order, h.property v = g.property v) ∧
      order.map (fun v => (h.property v).index) = List.range' index order.length := by
  induction order generalizing index g with
  | nil => exact ⟨g,rfl,rfl,fun _ => rfl,fun _ _ => rfl,rfl⟩
  | cons v rest ih =>
    obtain ⟨absent,later⟩ := List.nodup_cons.mp once
    rw [List.length_cons] at fit
    obtain ⟨h,numbered,same,ranks,others,indices⟩ := ih later (index + 1) (g.put v {g.property v with index}) (by omega)
    refine ⟨h,?_,same,?_,?_,?_⟩
    · rw [renumber,if_neg (by omega)]
      exact numbered
    · intro u
      rw [ranks u]
      refine g.put_read NodeProperty.rank ?_ u
      rfl
    · intro u outside
      rw [List.mem_cons,not_or] at outside
      rw [others u outside.2]
      exact Function.update_of_ne outside.1 ..
    · rw [List.map_cons,List.length_cons,List.range'_succ,indices,others v absent]
      have own := Function.update_self v {g.property v with index} g.property
      exact congrArg (fun value : NodeProperty => value.index :: _) own

/-! The component that is kept. -/

section
variable {component : Nat → Nat} {kept : Nat} {g : Graph NodeProperty}

private theorem keepComponent_eq : (keepComponent component kept g).toAdjacencyList =
    ⟨g.vertices.filter fun other => ∀ v ∈ g.vertices, (component v != kept) = true → other ≠ v,
      g.edges.filter fun edge => ∀ v ∈ g.vertices, (component v != kept) = true → edge.1 ≠ v ∧ edge.2 ≠ v⟩ := by
  refine (AdjacencyList.foldl_removeVertex (fun v => component v != kept) g.vertices _).trans ?_
  rw [AdjacencyList.foldl_clearVertex (fun v => component v != kept)]

private theorem mem_keepComponent {v : Nat} : v ∈ (keepComponent component kept g).vertices ↔ v ∈ g.vertices ∧ component v = kept := by
  rw [keepComponent_eq]
  simp only [List.mem_filter,decide_eq_true_eq,bne_iff_ne]
  grind

private theorem mem_edges_keepComponent (closed : g.Closed) {edge : Nat × Nat} :
    edge ∈ (keepComponent component kept g).edges ↔ edge ∈ g.edges ∧ component edge.1 = kept ∧ component edge.2 = kept := by
  rw [keepComponent_eq]
  simp only [List.mem_filter,decide_eq_true_eq,bne_iff_ne]
  apply and_congr_right
  intro inside
  obtain ⟨here,there⟩ := closed edge inside
  grind

end

/-- One component of a graph, numbered again. -/
structure OneComponent (g kept : Graph NodeProperty) : Prop where
  once : kept.vertices.Nodup
  closed : kept.Closed
  connected : kept.ConnectedOn kept.vertexSet
  numbered : Numbered NodeProperty.index kept
  few : kept.vertices.length ≤ intMax
  ranks : ∀ v, (kept.property v).rank = (g.property v).rank
  taken : ∀ v ∈ kept.vertices, v ∈ g.vertices
  links : ∀ edge ∈ kept.edges, edge ∈ g.edges
  whole : ∀ u ∈ kept.vertices, ∀ v, g.Joined u v → v ∈ kept.vertices ∧ kept.Joined u v

section
variable {labels : ComponentLabels Nat} {g : Graph NodeProperty}

private theorem keepComponent_connectedOn (closed : g.Closed) (i : Nat) :
    (keepComponent (labels.label g.toAdjacencyList) i g).ConnectedOn
      (keepComponent (labels.label g.toAdjacencyList) i g).vertexSet := by
  intro u here v there
  have reached := labels.connectedOn closed i u (mem_keepComponent.mp here) v (mem_keepComponent.mp there)
  refine reached.mono fun a b step => ⟨mem_keepComponent.mpr step.1,mem_keepComponent.mpr step.2.1,?_⟩
  rcases step.2.2 with forward | backward
  · exact Or.inl ((mem_edges_keepComponent closed).mpr ⟨forward,step.1.2,step.2.1.2⟩)
  · exact Or.inr ((mem_edges_keepComponent closed).mpr ⟨backward,step.2.1.2,step.1.2⟩)

private theorem keepComponent_once (once : g.vertices.Nodup) (component : Nat → Nat) (i : Nat) :
    (keepComponent component i g).vertices.Nodup := by
  rw [keepComponent_eq]
  exact once.filter _

private theorem length_keepComponent (component : Nat → Nat) (i : Nat) :
    (keepComponent component i g).vertices.length = g.vertices.countP fun v => component v = i := by
  rw [keepComponent_eq,List.countP_eq_length_filter]
  refine congrArg List.length (List.filter_congr ?_)
  intro v inside
  simp only [bne_iff_ne,decide_eq_decide]
  grind

/-- No vertex that is joined to the component is left out. -/
theorem keepComponent_whole (closed : g.Closed) {i u v : Nat} (here : u ∈ (keepComponent (labels.label g.toAdjacencyList) i g).vertices)
    (joined : g.Joined u v) : v ∈ (keepComponent (labels.label g.toAdjacencyList) i g).vertices ∧
      (keepComponent (labels.label g.toAdjacencyList) i g).Joined u v := by
  obtain ⟨inside,own⟩ := mem_keepComponent.mp here
  have there : v ∈ g.vertices := by
    rcases joined with forward | backward
    · exact (closed _ forward).2
    · exact (closed _ backward).1
  have same := (labels.same g.toAdjacencyList closed u inside v there).mpr (.single ⟨inside,there,joined⟩)
  refine ⟨mem_keepComponent.mpr ⟨there,same ▸ own⟩,?_⟩
  rcases joined with forward | backward
  · exact Or.inl ((mem_edges_keepComponent closed).mpr ⟨forward,own,same ▸ own⟩)
  · exact Or.inr ((mem_edges_keepComponent closed).mpr ⟨backward,same ▸ own,own⟩)

private theorem keepComponent_closed (closed : g.Closed) (component : Nat → Nat) (i : Nat) : (keepComponent component i g).Closed := by
  intro edge inside
  obtain ⟨old,first,second⟩ := (mem_edges_keepComponent closed).mp inside
  obtain ⟨here,there⟩ := closed edge old
  exact ⟨mem_keepComponent.mpr ⟨here,first⟩,mem_keepComponent.mpr ⟨there,second⟩⟩

/-- What the counters of `KeepOnlyBiggestConnectedComponent` can hold. -/
def Countable (labels : ComponentLabels Nat) (g : AdjacencyList Nat) : Prop :=
  labels.count g ≤ intMax ∧ ∀ i < labels.count g, componentSize labels g i ≤ intMax

private theorem getD_replicate_zero (n i : Nat) : (List.replicate n 0).getD i 0 = 0 := by
  rw [List.getD_eq_getElem?_getD]
  exact List.getElem?_getD_replicate_default_eq 0 n i

private theorem label_below (labels : ComponentLabels Nat) (g : AdjacencyList Nat) :
    ∀ v ∈ g.vertices, labels.label g v < (List.replicate (labels.count g) 0).length := by
  intro v inside
  rw [List.length_replicate]
  exact labels.below g v inside

theorem keepOnlyBiggestConnectedComponent_ok (once : g.vertices.Nodup) (closed : g.Closed)
    (numbered : Numbered NodeProperty.index g) (countable : Countable labels g.toAdjacencyList) :
    ∃ kept, keepOnlyBiggestConnectedComponent labels g = .ok kept ∧ OneComponent g kept := by
  have small : ∀ i, componentSize labels g.toAdjacencyList i ≤ intMax := by
    intro i
    by_cases used : i < labels.count g.toAdjacencyList
    · exact countable.2 i used
    · -- labels that are not used have no vertices
      have none : componentSize labels g.toAdjacencyList i = 0 := by
        apply List.countP_eq_zero.mpr
        intro v inside same
        exact used (of_decide_eq_true same ▸ labels.below g.toAdjacencyList v inside)
      exact none ▸ Nat.zero_le _
  obtain ⟨sizes,counted⟩ := countSizes_ok (labels.label g.toAdjacencyList) g.vertices
    (List.replicate (labels.count g.toAdjacencyList) 0) (label_below labels _) (fun i => by
      rw [getD_replicate_zero,Nat.zero_add]
      exact small i)
  set kept := keepComponent (labels.label g.toAdjacencyList) (maxElement sizes) g with component
  have few : kept.vertices.length ≤ intMax := by
    rw [component,length_keepComponent]
    exact small (maxElement sizes)
  have alone : kept.vertices.Nodup := keepComponent_once once _ _
  obtain ⟨result,renumbered,same,ranks,_,indices⟩ := renumber_ok kept.vertices alone 0 kept (by omega)
  refine ⟨result,?_,?_⟩
  · rw [keepOnlyBiggestConnectedComponent,connectedComponents,if_pos ⟨numbered,countable.1⟩]
    simp only [Except.bind,counted]
    exact renumbered
  · have vertices : result.vertices = kept.vertices := congrArg AdjacencyList.vertices same
    refine ⟨vertices ▸ alone,same ▸ keepComponent_closed closed _ _,same ▸ keepComponent_connectedOn closed _,?_,
      vertices ▸ few,ranks,?_,?_,?_⟩
    · unfold Numbered
      rw [vertices,indices,List.range_eq_range']
    · intro v inside
      exact (mem_keepComponent.mp (vertices ▸ inside)).1
    · intro edge inside
      exact ((mem_edges_keepComponent closed).mp (same ▸ inside)).1
    · intro u here v joined
      rw [vertices] at here ⊢
      rw [same]
      exact keepComponent_whole closed here joined

theorem keepOnlyBiggestConnectedComponent_undefined
    (exceeds : ¬(Numbered NodeProperty.index g ∧ Countable labels g.toAdjacencyList)) :
    keepOnlyBiggestConnectedComponent labels g = .error .undefined := by
  rw [keepOnlyBiggestConnectedComponent,connectedComponents]
  by_cases counted : Numbered NodeProperty.index g ∧ labels.count g.toAdjacencyList ≤ intMax
  · have large : ∃ i < labels.count g.toAdjacencyList, intMax < componentSize labels g.toAdjacencyList i := by
      by_contra none
      simp only [not_exists,not_and,Nat.not_lt] at none
      exact exceeds ⟨counted.1,counted.2,none⟩
    obtain ⟨i,_,large⟩ := large
    have failed := countSizes_undefined (labels.label g.toAdjacencyList) g.vertices
      (List.replicate (labels.count g.toAdjacencyList) 0) (label_below labels _)
      (fun j => (getD_replicate_zero _ j).symm ▸ Nat.zero_le intMax) (i := i) (by
        rw [getD_replicate_zero,Nat.zero_add]
        exact large)
    rw [if_pos counted]
    simp only [Except.bind,failed]
  · rw [if_neg counted]
    rfl

end

end Ncfcc.Utils.Rocketfuel
