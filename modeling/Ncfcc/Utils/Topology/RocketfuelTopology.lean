import Ncfcc.Utils.Topology.RocketfuelBackbone
import Ncfcc.Utils.Topology.RocketfuelRanks

/-! The topology that the reader of Rocketfuel maps makes: connected, with a connected backbone, nodes that
all have a type and links between the right types. The reader only fails where a counter runs over. -/
namespace Ncfcc.Utils.Rocketfuel
open Ncfcc.Library

structure WellLinked (g : Graph NodeProperty) : Prop where
  connected : g.ConnectedOn g.vertexSet
  backbone : g.ConnectedOn (backbone g)
  known : ∀ v ∈ g.vertices, (g.property v).rank ≠ .unknown
  links : ∀ edge ∈ g.edges, (linkType (g.property edge.1).rank (g.property edge.2).rank).isSome

/-! Ranks. -/

structure Typed (g : Graph NodeProperty) : Prop where
  once : g.vertices.Nodup
  closed : g.Closed
  numbered : Numbered NodeProperty.index g
  few : g.vertices.length ≤ intMax
  known : ∀ v ∈ g.vertices, (g.property v).rank ≠ .unknown

section
variable {allocator : Allocator} {labels : ComponentLabels Nat} {params : RocketfuelParams} {lines : List MapLine}

/-- What the counters hold: the degrees, the vertices, the components and their sizes. -/
structure InRange (allocator : Allocator) (labels : ComponentLabels Nat) (params : RocketfuelParams) (lines : List MapLine) : Prop where
  degrees : params.clientNodeDegrees.toInt ≠ intMax
  vertices : (mapGraph allocator lines).vertices.length ≤ 2^32
  components : Countable labels (mapGraph allocator lines).toAdjacencyList

private theorem assignBackbones_typed {kept g : Graph NodeProperty} (one : OneComponent kept g) {h : Graph NodeProperty} (ranked : Ranked g h) :
    Typed (assignBackbones h) := by
  obtain ⟨last,known⟩ := foldl_assignBackbone h.vertices h
  have reranked := ranked.toReranked.trans last
  have same : (assignBackbones h).toAdjacencyList = g.toAdjacencyList := reranked.same
  refine ⟨?_,?_,reranked.numbered one.numbered,?_,?_⟩
  · rw [same]
    exact one.once
  · rw [same]
    exact one.closed
  · rw [same]
    exact one.few
  · intro v inside
    apply known
    rw [same,← ranked.same] at inside
    exact Or.inl inside

private theorem rankedGraph_ok (inRange : InRange allocator labels params lines) :
    ∃ g, rankedGraph allocator labels params true lines = .ok g ∧ Typed g := by
  have mapped := mapGraph_mapped allocator lines
  obtain ⟨kept,done,one⟩ := keepOnlyBiggestConnectedComponent_ok mapped.once mapped.closed
    (mapped.numbered_iff.mpr inRange.vertices) inRange.components
  obtain ⟨h,assigned,ranked⟩ := assignDegrees_ranked inRange.degrees 1 kept
  refine ⟨assignBackbones h,?_,assignBackbones_typed one ranked⟩
  rw [rankedGraph,if_pos rfl]
  exact (congrArg (fun kept => Except.bind kept _) done).trans (congrArg (Except.map assignBackbones) assigned)

private theorem rankedGraph_undefined (outside : ¬InRange allocator labels params lines) :
    rankedGraph allocator labels params true lines = .error .undefined := by
  have mapped := mapGraph_mapped allocator lines
  rw [rankedGraph,if_pos rfl]
  by_cases counted : (mapGraph allocator lines).vertices.length ≤ 2^32 ∧ Countable labels (mapGraph allocator lines).toAdjacencyList
  · obtain ⟨kept,done,_⟩ := keepOnlyBiggestConnectedComponent_ok mapped.once mapped.closed
      (mapped.numbered_iff.mpr counted.1) counted.2
    have greatest : params.clientNodeDegrees.toInt = intMax := by
      by_contra below
      exact outside ⟨below,counted.1,counted.2⟩
    have undefined := assignDegrees_undefined greatest 1 (by decide) kept
    exact (congrArg (fun kept => Except.bind kept _) done).trans (congrArg (Except.map assignBackbones) undefined)
  · have undefined : keepOnlyBiggestConnectedComponent labels (mapGraph allocator lines) = .error .undefined :=
      keepOnlyBiggestConnectedComponent_undefined fun both => counted ⟨mapped.numbered_iff.mp both.1,both.2⟩
    exact congrArg (fun kept => Except.bind kept _) undefined

end

/-! Links. -/

section
variable {g : Graph NodeProperty}

private theorem mem_deleteWrongLinks {edge : Nat × Nat} : edge ∈ (deleteWrongLinks g).edges ↔
    edge ∈ g.edges ∧ (linkType (g.property edge.1).rank (g.property edge.2).rank).isSome := by
  have edges : (deleteWrongLinks g).edges = g.edges.filter fun other => ∀ edge ∈ g.edges,
      (linkType (g.property edge.1).rank (g.property edge.2).rank).isNone = true → other ≠ edge :=
    congrArg AdjacencyList.edges (AdjacencyList.foldl_removeEdge
      (fun edge => (linkType (g.property edge.1).rank (g.property edge.2).rank).isNone) g.edges g.toAdjacencyList)
  rw [edges,List.mem_filter,decide_eq_true_eq]
  apply and_congr_right
  intro inside
  constructor
  · intro stays
    by_contra wrong
    exact stays edge inside (by simpa using wrong) rfl
  · rintro right other _ wrong rfl
    rw [Option.isNone_iff_eq_none] at wrong
    rw [wrong] at right
    exact nomatch right

private theorem deleteWrongLinks_vertices : (deleteWrongLinks g).vertices = g.vertices := by
  have whole := AdjacencyList.foldl_removeEdge
    (fun edge => (linkType (g.property edge.1).rank (g.property edge.2).rank).isNone) g.edges g.toAdjacencyList
  have vertices := congrArg AdjacencyList.vertices whole
  exact vertices

private theorem backbone_deleteWrongLinks : backbone (deleteWrongLinks g) = backbone g := by
  rw [backbone,deleteWrongLinks_vertices]
  rfl

private theorem deleteWrongLinks_backbone (connected : g.ConnectedOn (backbone g)) :
    (deleteWrongLinks g).ConnectedOn (backbone (deleteWrongLinks g)) := by
  rw [backbone_deleteWrongLinks]
  intro u here v there
  apply (connected u here v there).mono
  rintro a b ⟨one,other,joined⟩
  have right : ∀ edge ∈ g.edges, edge.1 ∈ backbone g → edge.2 ∈ backbone g → edge ∈ (deleteWrongLinks g).edges := by
    intro edge inside first second
    refine mem_deleteWrongLinks.mpr ⟨inside,?_⟩
    rw [first.2,second.2]
    rfl
  refine ⟨one,other,?_⟩
  rcases joined with forward | backward
  · exact Or.inl (right _ forward one other)
  · exact Or.inr (right _ backward other one)

/-- The backbone of a component is connected if the whole backbone is. -/
theorem OneComponent.backbone_connectedOn {kept : Graph NodeProperty} (one : OneComponent g kept)
    (connected : g.ConnectedOn (backbone g)) : kept.ConnectedOn (backbone kept) := by
  rintro u ⟨here,own⟩ v ⟨there,other⟩
  have first : u ∈ backbone g := ⟨one.taken u here,(one.ranks u).symm.trans own⟩
  have second : v ∈ backbone g := ⟨one.taken v there,(one.ranks v).symm.trans other⟩
  have inside := (connected u first v second).restrict kept.vertexSet here fun a b member step =>
    (one.whole a member b step.2.2).1
  apply inside.2.mono
  rintro a b ⟨⟨one',stays⟩,⟨other',stays'⟩,joined⟩
  exact ⟨⟨stays,(one.ranks a).trans one'.2⟩,⟨stays',(one.ranks b).trans other'.2⟩,(one.whole a stays b joined).2⟩

end

section
variable {allocator : Allocator} {labels : ComponentLabels Nat} {draw : Nat → Nat} {params : RocketfuelParams} {lines : List MapLine}

private theorem linkedGraph_ok (draw : Nat → Nat) (inRange : InRange allocator labels params lines) :
    ∃ g, linkedGraph allocator labels draw params true true lines = .ok g ∧ WellLinked g := by
  obtain ⟨ranked,first,typed⟩ := rankedGraph_ok inRange
  obtain ⟨joined,second,grown,connected⟩ := connectBackboneRouters_ok allocator labels draw typed.once typed.closed typed.few
  have whole : backbone joined = backbone ranked := by
    rw [backbone,grown.vertices,grown.property]
    rfl
  rw [← whole] at connected
  have vertices : (deleteWrongLinks joined).vertices = ranked.vertices := deleteWrongLinks_vertices.trans grown.vertices
  have closed : (deleteWrongLinks joined).Closed := by
    intro edge inside
    have ends := grown.closed edge (mem_deleteWrongLinks.mp inside).1
    rw [deleteWrongLinks_vertices]
    exact ends
  have numbered : Numbered NodeProperty.index (deleteWrongLinks joined) := by
    have property : (deleteWrongLinks joined).property = ranked.property := grown.property
    unfold Numbered
    rw [vertices,property]
    exact typed.numbered
  have few : (deleteWrongLinks joined).vertices.length ≤ intMax := vertices ▸ typed.few
  have countable : Countable labels (deleteWrongLinks joined).toAdjacencyList := by
    refine ⟨(labels.count_le _).trans few,fun i _ => ?_⟩
    exact List.countP_le_length.trans few
  obtain ⟨kept,third,one⟩ := keepOnlyBiggestConnectedComponent_ok (vertices ▸ typed.once) closed numbered countable
  refine ⟨kept,?_,one.connected,one.backbone_connectedOn (deleteWrongLinks_backbone connected),?_,?_⟩
  · rw [linkedGraph,first]
    simp only [Except.bind,↓reduceIte,second,third]
  · intro v inside
    have there := one.taken v inside
    rw [vertices] at there
    rw [one.ranks]
    have known := typed.known v there
    rw [← grown.property] at known
    exact known
  · intro edge inside
    rw [one.ranks,one.ranks]
    exact (mem_deleteWrongLinks.mp (one.links edge inside)).2

end

/-! Nodes and links are created. -/

structure Renamed (g : Graph NodeProperty) (reader : Reader) : Prop where
  same : reader.graph.toAdjacencyList = g.toAdjacencyList
  ranks : ∀ v, (reader.graph.property v).rank = (g.property v).rank

theorem Renamed.wellLinked {g : Graph NodeProperty} {reader : Reader} (renamed : Renamed g reader) (linked : WellLinked g) :
    WellLinked reader.graph := by
  have routers : backbone reader.graph = backbone g := by
    ext v
    rw [backbone,renamed.same]
    simp only [renamed.ranks]
    rfl
  refine ⟨?_,?_,?_,?_⟩
  · rw [renamed.same]
    exact linked.connected
  · rw [routers,renamed.same]
    exact linked.backbone
  · rw [renamed.same]
    simp only [renamed.ranks]
    exact linked.known
  · rw [renamed.same]
    simp only [renamed.ranks]
    exact linked.links

private theorem createNode_ok {g : Graph NodeProperty} {reader : Reader} (renamed : Renamed g reader) {v : Nat}
    (known : (g.property v).rank ≠ .unknown) : ∃ after, createNode reader v = .ok after ∧ Renamed g after := by
  have ranks : ∀ property : NodeProperty, property.rank = (reader.graph.property v).rank →
      ∀ u, ((reader.graph.put v property).property u).rank = (g.property u).rank := fun property same u =>
    (reader.graph.put_read NodeProperty.rank same u).trans (renamed.ranks u)
  have rank := renamed.ranks v
  cases own : (reader.graph.property v).rank with
  | unknown =>
    rw [own] at rank
    exact absurd rank.symm known
  | client =>
    simp only [createNode,own]
    exact ⟨_,rfl,renamed.same,ranks _ own.symm⟩
  | gateway =>
    simp only [createNode,own]
    exact ⟨_,rfl,renamed.same,ranks _ own.symm⟩
  | backbone =>
    simp only [createNode,own]
    exact ⟨_,rfl,renamed.same,ranks _ own.symm⟩

/-- Neither of the fatal errors is reached. -/
theorem createAll_ok (params : RocketfuelParams) {g : Graph NodeProperty} (linked : WellLinked g) :
    ∃ reader, createAll params g = .ok reader ∧ WellLinked reader.graph := by
  obtain ⟨nodes,created,renamed⟩ : ∃ nodes, g.vertices.foldlM createNode ⟨g,[],[],[],[]⟩ = .ok nodes ∧ Renamed g nodes := by
    refine foldlM_pure (motive := fun _ (reader : Reader) => Renamed g reader) ⟨rfl,fun _ => rfl⟩ ?_
    intro seen v front reader renamed
    apply createNode_ok renamed
    exact linked.known v (front.subset (List.mem_append_right seen (List.mem_singleton_self v)))
  have right := (renamed.wellLinked linked).links
  obtain ⟨reader,done,same⟩ : ∃ reader, nodes.graph.edges.foldlM (createLink params) nodes = .ok reader ∧ reader.graph = nodes.graph := by
    refine foldlM_pure (motive := fun _ (reader : Reader) => reader.graph = nodes.graph) rfl ?_
    intro seen edge front reader same
    have typed := right edge (front.subset (List.mem_append_right seen (List.mem_singleton_self edge)))
    rw [← same] at typed
    cases type : linkType (reader.graph.property edge.1).rank (reader.graph.property edge.2).rank with
    | none =>
      rw [type] at typed
      exact nomatch typed
    | some type' =>
      simp only [createLink,type]
      exact ⟨_,rfl,same⟩
  refine ⟨reader,?_,same ▸ renamed.wellLinked linked⟩
  rw [createAll,created]
  exact done

/-- Just where a counter runs over, no such topology is made. -/
theorem read_wellLinked_iff (allocator : Allocator) (labels : ComponentLabels Nat) (draw : Nat → Nat) (params : RocketfuelParams)
    (lines : List MapLine) : (∃ reader, read allocator labels draw params true true lines = .ok reader ∧ WellLinked reader.graph) ↔
      InRange allocator labels params lines := by
  constructor
  · rintro ⟨reader,done,_⟩
    by_contra outside
    rw [read,linkedGraph,rankedGraph_undefined outside] at done
    exact nomatch done
  · intro inRange
    obtain ⟨g,linked,wellLinked⟩ := linkedGraph_ok draw inRange
    obtain ⟨reader,done,result⟩ := createAll_ok params wellLinked
    refine ⟨reader,?_,result⟩
    rw [read,linked]
    exact done

def greatestDegrees : RocketfuelParams := ⟨2147483647,fun _ => ⟨"10Mbps","5ms","100Mbps","10ms"⟩⟩

/-- The loop over the degrees does not end within an `int`. -/
theorem greatestDegrees_undefined : ¬∃ reader, read ascending AdjacencyList.byRelabelling (fun _ => 0) greatestDegrees true true
    [⟨"1",["2"],0⟩] = .ok reader ∧ WellLinked reader.graph := by
  rintro ⟨reader,done,_⟩
  rw [read,linkedGraph,rankedGraph_undefined fun inRange => inRange.degrees rfl] at done
  exact nomatch done

end Ncfcc.Utils.Rocketfuel
