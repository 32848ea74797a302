import Ncfcc.Library.Iteration
import Ncfcc.Utils.Topology.RocketfuelComponents

/-! The backbone of a Rocketfuel map: its components are joined one after the other, so that it
is connected. -/
namespace Ncfcc.Utils.Rocketfuel
open Ncfcc.Library

def backbone (g : Graph NodeProperty) : Set Nat := {v | v ∈ g.vertices ∧ (g.property v).rank = .backbone}

/-! The graph of backbone routers. -/

structure Collected (g : Graph NodeProperty) (seen : List Nat) (bb : BbReading) : Prop where
  bare : bb.graph.edges = []
  index : (bb.graph.vertices.map fun n => (bb.graph.property n).index).Perm (List.range bb.graph.vertices.length)
  counter : bb.index = bb.graph.vertices.length
  few : bb.graph.vertices.length ≤ seen.length
  filed : ∀ v n, bb.nodeMap v = some n → n ∈ bb.graph.vertices ∧ (bb.graph.property n).name = v
  known : ∀ v ∈ seen, (g.property v).rank = .backbone → ∃ n, bb.nodeMap v = some n
  routers : ∀ n ∈ bb.graph.vertices, (bb.graph.property n).name ∈ seen ∧ (g.property (bb.graph.property n).name).rank = .backbone

section
variable {allocator : Allocator} {g : Graph NodeProperty} {seen : List Nat} {bb : BbReading}

theorem Collected.skip (collected : Collected g seen bb) {v : Nat} (other : (g.property v).rank ≠ .backbone) :
    Collected g (seen ++ [v]) bb := by
  refine ⟨collected.bare,collected.index,collected.counter,?_,collected.filed,?_,?_⟩
  · rw [List.length_append]
    exact Nat.le_add_right_of_le collected.few
  · intro u inside router
    rcases List.mem_append.mp inside with old | new
    · exact collected.known u old router
    · rw [List.mem_singleton.mp new] at router
      exact absurd router other
  · intro n inside
    obtain ⟨old,router⟩ := collected.routers n inside
    exact ⟨List.mem_append_left _ old,router⟩

theorem Collected.add (collected : Collected g seen bb) {v new : Nat} (router : (g.property v).rank = .backbone)
    (absent : new ∉ bb.graph.vertices) (unseen : v ∉ seen) :
    Collected g (seen ++ [v]) ⟨bb.graph.addVertex new ⟨v,bb.index⟩,Function.update bb.nodeMap v (some new),bb.index + 1⟩ := by
  have perm := addVertex_perm bb.graph new ⟨v,bb.index⟩
  have length : (bb.graph.addVertex new ⟨v,bb.index⟩).vertices.length = bb.graph.vertices.length + 1 := perm.length_eq
  have own : (bb.graph.addVertex new ⟨v,bb.index⟩).property new = ⟨v,bb.index⟩ := Function.update_self ..
  have others : ∀ n ∈ bb.graph.vertices, (bb.graph.addVertex new ⟨v,bb.index⟩).property n = bb.graph.property n := by
    intro n inside
    apply Function.update_of_ne
    rintro rfl
    exact absent inside
  refine ⟨collected.bare,?_,?_,?_,?_,?_,?_⟩
  · rw [length,List.range_succ]
    refine (addVertex_map bb.graph absent ⟨v,bb.index⟩ BbProperty.index).trans ?_
    refine List.Perm.trans ?_ (List.perm_append_singleton _ _).symm
    rw [← collected.counter]
    exact (collected.counter ▸ collected.index).cons _
  · rw [length,collected.counter]
  · rw [length,List.length_append]
    exact Nat.succ_le_succ collected.few
  · intro u n found
    by_cases same : u = v
    · subst same
      obtain rfl := Option.some.inj ((Function.update_self u (some new) bb.nodeMap).symm.trans found)
      exact ⟨perm.mem_iff.mpr List.mem_cons_self,congrArg BbProperty.name own⟩
    · obtain ⟨inside,called⟩ := collected.filed u n ((Function.update_of_ne same ..).symm.trans found)
      exact ⟨perm.mem_iff.mpr (List.mem_cons_of_mem new inside),(congrArg BbProperty.name (others n inside)).trans called⟩
  · intro u inside backboned
    by_cases same : u = v
    · exact ⟨new,same ▸ Function.update_self ..⟩
    · have old : u ∈ seen := (List.mem_append.mp inside).resolve_right fun last => same (List.mem_singleton.mp last)
      obtain ⟨n,found⟩ := collected.known u old backboned
      exact ⟨n,(Function.update_of_ne same ..).trans found⟩
  · intro n inside
    rcases List.mem_cons.mp (perm.mem_iff.mp inside) with rfl | old
    · rw [own]
      exact ⟨List.mem_append_right _ (List.mem_singleton_self v),router⟩
    · rw [others n old]
      obtain ⟨before,backboned⟩ := collected.routers n old
      exact ⟨List.mem_append_left _ before,backboned⟩

private theorem collected_all (allocator : Allocator) (once : g.vertices.Nodup) (few : g.vertices.length ≤ intMax) :
    ∃ bb, g.vertices.foldlM (addBackbone allocator g) ⟨⟨⟨[],[]⟩,fun _ => ⟨0,0⟩⟩,fun _ => none,0⟩ = .ok bb ∧
      Collected g g.vertices bb := by
  refine foldlM_pure (motive := Collected g) ⟨rfl,List.Perm.refl _,rfl,Nat.le_refl _,nofun,nofun,nofun⟩ ?_
  intro seen v front bb collected
  unfold addBackbone
  by_cases router : (g.property v).rank = .backbone
  · have bound := front.length_le
    have room := collected.few
    rw [List.length_append,List.length_singleton] at bound
    have below : bb.index ≠ intMax := by
      rw [collected.counter]
      omega
    have unseen : v ∉ seen := by
      intro again
      have distinct := once.sublist front.sublist
      exact (List.nodup_append.mp distinct).2.2 v again v (List.mem_singleton_self v) rfl
    have absent := allocator.unused (g.vertices ++ bb.graph.vertices)
    rw [if_pos router,if_neg below]
    exact ⟨_,rfl,collected.add router (fun inside => absent (List.mem_append_right _ inside)) unseen⟩
  · rw [if_neg router]
    exact ⟨bb,rfl,collected.skip router⟩

structure Within (g : Graph NodeProperty) (bb : BbReading) (h : Graph BbProperty) : Prop where
  vertices : h.vertices = bb.graph.vertices
  property : h.property = bb.graph.property
  closed : h.Closed
  joined : ∀ a b, h.Joined a b → g.Joined (h.property a).name (h.property b).name

theorem Within.addEdges (collected : Collected g g.vertices bb) {h : Graph BbProperty} (within : Within g bb h) (n : Nat) :
    Within g bb (addBackboneEdges g bb.nodeMap h n) := by
  refine List.foldlRecOn _ _ within ?_
  intro other within u inside
  have link := (AdjacencyList.mem_adjacentVertices.mp inside).2
  generalize (h.property n).name = router at link
  cases one : bb.nodeMap router with
  | none => exact within
  | some first =>
    cases two : bb.nodeMap u with
    | none => exact within
    | some second =>
      obtain ⟨here,called⟩ := collected.filed router first one
      obtain ⟨there,named⟩ := collected.filed u second two
      have same : (other.addEdge first second).vertices = other.vertices := AdjacencyList.addEdge_vertices _ _
      refine ⟨same.trans within.vertices,within.property,within.closed.addEdge (within.vertices ▸ here) (within.vertices ▸ there),?_⟩
      intro a b linked
      rcases (AdjacencyList.joined_addEdge ..).mp linked with old | ⟨rfl,rfl⟩ | ⟨rfl,rfl⟩
      · exact within.joined a b old
      · rw [show (other.addEdge a b).property = bb.graph.property from within.property,called,named]
        exact link
      · rw [show (other.addEdge b a).property = bb.graph.property from within.property,called,named]
        exact link.symm

/-- The graph of the backbone routers, which are joined there only if they are joined in the graph. -/
structure BackboneGraph (g : Graph NodeProperty) (h : Graph BbProperty) : Prop where
  closed : h.Closed
  numbered : Numbered BbProperty.index h
  few : h.vertices.length ≤ g.vertices.length
  routers : ∀ n ∈ h.vertices, (h.property n).name ∈ backbone g
  all : ∀ v ∈ backbone g, ∃ n ∈ h.vertices, (h.property n).name = v
  joined : ∀ a b, h.Joined a b → g.Joined (h.property a).name (h.property b).name

private theorem backboneGraph_ok (allocator : Allocator) (once : g.vertices.Nodup) (few : g.vertices.length ≤ intMax) :
    ∃ h, backboneGraph allocator g = .ok h ∧ BackboneGraph g h := by
  obtain ⟨bb,done,collected⟩ := collected_all allocator once few
  have bare : Within g bb bb.graph := by
    refine ⟨rfl,rfl,?_,?_⟩
    · intro edge inside
      rw [collected.bare] at inside
      exact nomatch inside
    · intro a b linked
      unfold AdjacencyList.Joined at linked
      rw [collected.bare] at linked
      rcases linked with forward | backward
      · exact nomatch forward
      · exact nomatch backward
  obtain ⟨vertices,property,closed,joined⟩ : Within g bb (bb.graph.vertices.foldl (addBackboneEdges g bb.nodeMap) bb.graph) :=
    List.foldlRecOn _ _ bare fun h within n _ => within.addEdges collected n
  refine ⟨_,by rw [backboneGraph,done]; rfl,closed,?_,?_,?_,?_,joined⟩
  · unfold Numbered
    rw [vertices,property]
    exact collected.index
  · rw [vertices]
    exact collected.few
  · rw [vertices,property]
    exact collected.routers
  · rw [vertices,property]
    rintro v ⟨inside,router⟩
    obtain ⟨n,found⟩ := collected.known v inside router
    exact ⟨n,collected.filed v n found⟩

end

/-! Joining the components. -/

structure Grown (g g' : Graph NodeProperty) : Prop where
  vertices : g'.vertices = g.vertices
  property : g'.property = g.property
  closed : g'.Closed
  joined : ∀ u v, g.Joined u v → g'.Joined u v

theorem Grown.addEdge {g g' : Graph NodeProperty} (grown : Grown g g') {first second : Nat} (here : first ∈ g.vertices)
    (there : second ∈ g.vertices) : Grown g (g'.addEdge first second) := by
  have same : (g'.addEdge first second).vertices = g'.vertices := AdjacencyList.addEdge_vertices _ _
  refine ⟨same.trans grown.vertices,grown.property,?_,?_⟩
  · exact grown.closed.addEdge (grown.vertices ▸ here) (grown.vertices ▸ there)
  · intro u v joined
    exact (AdjacencyList.joined_addEdge ..).mpr (Or.inl (grown.joined u v joined))

section
variable (labels : ComponentLabels Nat) (h : Graph BbProperty)

def component (i : Nat) : Set Nat := {v | ∃ n ∈ h.vertices, labels.label h.toAdjacencyList n = i ∧ (h.property n).name = v}

def upTo (last : Nat) : Set Nat := {v | ∃ n ∈ h.vertices, labels.label h.toAdjacencyList n ≤ last ∧ (h.property n).name = v}

end

section
variable {labels : ComponentLabels Nat} {draw : Nat → Nat} {g : Graph NodeProperty} {h : Graph BbProperty}

private theorem component_connectedOn (graph : BackboneGraph g h) (i : Nat) : g.ConnectedOn (component labels h i) := by
  rintro u ⟨m,here,own,rfl⟩ v ⟨n,there,same,rfl⟩
  have reached := labels.connectedOn graph.closed i m ⟨here,own⟩ n ⟨there,same⟩
  apply reached.map fun n => (h.property n).name
  intro a b step
  exact ⟨⟨a,step.1.1,step.1.2,rfl⟩,⟨b,step.2.1.1,step.2.1.2,rfl⟩,graph.joined a b step.2.2⟩

private theorem upTo_zero : upTo labels h 0 = component labels h 0 := by
  ext v
  simp only [upTo,component,Nat.le_zero]

private theorem upTo_succ (last : Nat) : upTo labels h (last + 1) = upTo labels h last ∪ component labels h (last + 1) := by
  ext v
  constructor
  · rintro ⟨n,inside,below,rfl⟩
    rcases Nat.le_succ_iff.mp below with before | own
    · exact Or.inl ⟨n,inside,before,rfl⟩
    · exact Or.inr ⟨n,inside,own,rfl⟩
  · rintro (⟨n,inside,before,rfl⟩ | ⟨n,inside,own,rfl⟩)
    · exact ⟨n,inside,Nat.le_succ_of_le before,rfl⟩
    · exact ⟨n,inside,own.le,rfl⟩

private theorem exists_drawn {i : Nat} (used : i < labels.count h.toAdjacencyList) (random : Nat) : ∃ n ∈ h.vertices,
    labels.label h.toAdjacencyList n = i ∧
      (h.vertices.filter fun bb => labels.label h.toAdjacencyList bb = i)[random %
        (h.vertices.filter fun bb => labels.label h.toAdjacencyList bb = i).length]? = some n := by
  obtain ⟨v,inside,own⟩ := labels.used h.toAdjacencyList i used
  have nonempty : 0 < (h.vertices.filter fun bb => labels.label h.toAdjacencyList bb = i).length :=
    List.length_pos_of_mem (List.mem_filter.mpr ⟨inside,decide_eq_true own⟩)
  have below := Nat.mod_lt random nonempty
  obtain ⟨there,same⟩ := List.mem_filter.mp (List.getElem_mem below)
  exact ⟨_,there,of_decide_eq_true same,List.getElem?_eq_getElem below⟩

private theorem joinComponents_joins (draw : Nat → Nat) {i : Nat} (used : i + 1 < labels.count h.toAdjacencyList) (g : Graph NodeProperty) :
    ∃ first ∈ component labels h i, ∃ second ∈ component labels h (i + 1),
      joinComponents draw h (labels.label h.toAdjacencyList) g i = .ok (g.addEdge first second) := by
  obtain ⟨m,here,own,one⟩ := exists_drawn (Nat.lt_of_succ_lt used) (draw (2 * i))
  obtain ⟨n,there,next,two⟩ := exists_drawn used (draw (2 * i + 1))
  refine ⟨_,⟨m,here,own,rfl⟩,_,⟨n,there,next,rfl⟩,?_⟩
  rw [joinComponents]
  simp only [one,two]

/-- Each round of the loop joins one more component to those before. -/
theorem joinComponents_all (draw : Nat → Nat) (graph : BackboneGraph g h) (closed : g.Closed) {rounds : Nat}
    (used : rounds = 0 ∨ rounds < labels.count h.toAdjacencyList) :
    ∃ g', (List.range rounds).foldlM (joinComponents draw h (labels.label h.toAdjacencyList)) g = .ok g' ∧ Grown g g' ∧
      g'.ConnectedOn (upTo labels h rounds) := by
  induction rounds with
  | zero =>
    refine ⟨g,rfl,⟨rfl,rfl,closed,fun _ _ joined => joined⟩,?_⟩
    rw [upTo_zero]
    exact component_connectedOn graph 0
  | succ rounds ih =>
    have below := used.resolve_left (Nat.succ_ne_zero rounds)
    obtain ⟨before,done,grown,connected⟩ := ih (Or.inr (Nat.lt_of_succ_lt below))
    obtain ⟨first,inFirst,second,inSecond,joins⟩ := joinComponents_joins draw below before
    have routers : ∀ {i v}, v ∈ component labels h i → v ∈ g.vertices := by
      rintro i v ⟨n,inside,_,rfl⟩
      exact (graph.routers n inside).1
    have added := grown.addEdge (routers inFirst) (routers inSecond)
    have more : ∀ u v, before.Joined u v → (before.addEdge first second).Joined u v := fun u v joined =>
      (AdjacencyList.joined_addEdge ..).mpr (Or.inl joined)
    refine ⟨before.addEdge first second,?_,added,?_⟩
    · rw [List.range_succ,List.foldlM_append,done]
      have last : [rounds].foldlM (joinComponents draw h (labels.label h.toAdjacencyList)) before = .ok (before.addEdge first second) := by
        rw [List.foldlM_cons,joins]
        rfl
      exact last
    · rw [upTo_succ]
      have left : (before.addEdge first second).ConnectedOn (upTo labels h rounds) := connected.mono more
      have right : (before.addEdge first second).ConnectedOn (component labels h (rounds + 1)) :=
        ((component_connectedOn graph (rounds + 1)).mono grown.joined).mono more
      obtain ⟨n,inside,own,rfl⟩ := inFirst
      refine left.union right ⟨n,inside,own.le,rfl⟩ inSecond ?_
      exact (AdjacencyList.joined_addEdge ..).mpr (Or.inr (Or.inl ⟨rfl,rfl⟩))

theorem connectBackboneRouters_ok (allocator : Allocator) (labels : ComponentLabels Nat) (draw : Nat → Nat) (once : g.vertices.Nodup)
    (closed : g.Closed) (few : g.vertices.length ≤ intMax) :
    ∃ g', connectBackboneRouters allocator labels draw g = .ok g' ∧ Grown g g' ∧ g'.ConnectedOn (backbone g) := by
  obtain ⟨h,made,graph⟩ := backboneGraph_ok allocator once few
  have count := labels.count_le h.toAdjacencyList
  have counted : connectedComponents labels BbProperty.index h = .ok (labels.count h.toAdjacencyList) :=
    if_pos ⟨graph.numbered,count.trans (graph.few.trans few)⟩
  have rounds : labels.count h.toAdjacencyList - 1 = 0 ∨ labels.count h.toAdjacencyList - 1 < labels.count h.toAdjacencyList := by
    omega
  obtain ⟨g',done,grown,connected⟩ := joinComponents_all draw graph closed rounds
  have all : backbone g = upTo labels h (labels.count h.toAdjacencyList - 1) := by
    ext v
    constructor
    · intro router
      obtain ⟨n,inside,called⟩ := graph.all v router
      exact ⟨n,inside,Nat.le_sub_one_of_lt (labels.below h.toAdjacencyList n inside),called⟩
    · rintro ⟨n,inside,_,rfl⟩
      exact graph.routers n inside
  refine ⟨g',?_,grown,all ▸ connected⟩
  rw [connectBackboneRouters,made]
  simp only [Except.bind,counted]
  split
  · rename_i single
    rw [single] at done
    exact done
  · exact done

end

end Ncfcc.Utils.Rocketfuel
