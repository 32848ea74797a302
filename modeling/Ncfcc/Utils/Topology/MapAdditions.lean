import Mathlib.Data.Set.Insert
import Ncfcc.Utils.Topology.RocketfuelComponents

/-! What a line adds to the graph of a Rocketfuel map, by the names of nodes. -/
namespace Ncfcc.Utils.Rocketfuel
open Ncfcc.Library

namespace Reading
variable (reading : Reading)

def nameOf (v : Nat) : String := (reading.graph.property v).name

def names : Set String := {name | ∃ v ∈ reading.graph.vertices, reading.nameOf v = name}

def Linked (first second : String) : Prop :=
  ∃ u v, reading.graph.Joined u v ∧ reading.nameOf u = first ∧ reading.nameOf v = second

structure Named : Prop extends Mapped reading where
  filed : ∀ name v, reading.graphNodes.lookup name = some v ↔ v ∈ reading.graph.vertices ∧ reading.nameOf v = name

def OnePerName : Prop := (reading.graph.vertices.map reading.nameOf).Nodup

end Reading

theorem Reading.Named.onePerName {reading : Reading} (named : reading.Named) : reading.OnePerName := by
  apply List.Nodup.map_on _ named.once
  intro u inU v inV same
  have first := (named.filed (reading.nameOf v) u).mpr ⟨inU,same⟩
  have second := (named.filed (reading.nameOf v) v).mpr ⟨inV,rfl⟩
  exact Option.some.inj (first.symm.trans second)

theorem Reading.Named.empty : Reading.Named .empty := by
  refine ⟨.empty,?_⟩
  intro name v
  simp [Reading.empty]

/-- Nodes and links are added, and no others change. -/
structure Adds (before : Reading) (names : Set String) (links : Set (String × String)) (after : Reading) : Prop where
  named : after.Named
  stays : ∀ v ∈ before.graph.vertices, v ∈ after.graph.vertices ∧ after.nameOf v = before.nameOf v
  names : after.names = before.names ∪ names
  links : ∀ first second, after.Linked first second ↔
    before.Linked first second ∨ (first,second) ∈ links ∨ (second,first) ∈ links

theorem Adds.nothing {reading : Reading} (named : reading.Named) : Adds reading ∅ ∅ reading := by
  refine ⟨named,fun v inside => ⟨inside,rfl⟩,by simp,?_⟩
  simp

theorem Adds.trans {first second third : Reading} {names others : Set String} {links more : Set (String × String)}
    (one : Adds first names links second) (two : Adds second others more third) :
    Adds first (names ∪ others) (links ∪ more) third := by
  refine ⟨two.named,?_,?_,?_⟩
  · intro v inside
    obtain ⟨there,same⟩ := one.stays v inside
    exact ⟨(two.stays v there).1,(two.stays v there).2.trans same⟩
  · rw [two.names,one.names,Set.union_assoc]
  · intro u v
    rw [two.links,one.links]
    simp only [Set.mem_union]
    tauto

section
variable {allocator : Allocator} {reading : Reading}

def withNode (reading : Reading) (new : Nat) (uid : String) : Reading :=
  ⟨reading.graph.addVertex new ⟨uid,reading.maxNodeId,.unknown,""⟩,(uid,new) :: reading.graphNodes,
    (reading.maxNodeId + 1) % 2^32⟩

private theorem adds_node {new : Nat} {uid : String} (named : reading.Named) (mapped : Mapped (withNode reading new uid))
    (absent : new ∉ reading.graph.vertices) (unfound : reading.graphNodes.lookup uid = none) :
    Adds reading {uid} ∅ (withNode reading new uid) ∧ new ∈ (withNode reading new uid).graph.vertices ∧
      (withNode reading new uid).nameOf new = uid := by
  have perm := addVertex_perm reading.graph new ⟨uid,reading.maxNodeId,.unknown,""⟩
  have own : (withNode reading new uid).nameOf new = uid := by
    have self := Function.update_self new ⟨uid,reading.maxNodeId,.unknown,""⟩ reading.graph.property
    exact congrArg NodeProperty.name self
  have others : ∀ v ∈ reading.graph.vertices, (withNode reading new uid).nameOf v = reading.nameOf v := by
    intro v inside
    apply congrArg NodeProperty.name
    apply Function.update_of_ne
    rintro rfl
    exact absent inside
  have members : ∀ v, v ∈ (withNode reading new uid).graph.vertices ↔ v = new ∨ v ∈ reading.graph.vertices := fun v =>
    perm.mem_iff.trans List.mem_cons
  have there := (members new).mpr (Or.inl rfl)
  have unnamed : ∀ v ∈ reading.graph.vertices, reading.nameOf v ≠ uid := by
    intro v inside same
    have filed := (named.filed uid v).mpr ⟨inside,same⟩
    exact nomatch unfound.symm.trans filed
  refine ⟨⟨⟨mapped,?_⟩,?_,?_,?_⟩,there,own⟩
  · intro name v
    refine Iff.trans ?_ (and_congr_left' (members v)).symm
    cases same : name == uid with
    | true =>
      obtain rfl := beq_iff_eq.mp same
      have first : (withNode reading new name).graphNodes.lookup name = some new := List.lookup_cons_self
      rw [first,Option.some_inj]
      constructor
      · rintro rfl
        exact ⟨Or.inl rfl,own⟩
      · rintro ⟨rfl | inside,called⟩
        · rfl
        · exact absurd ((others v inside).symm.trans called) (unnamed v inside)
    | false =>
      have later : (withNode reading new uid).graphNodes.lookup name = reading.graphNodes.lookup name := by
        rw [withNode,List.lookup_cons,same]
      rw [later,named.filed]
      constructor
      · rintro ⟨inside,called⟩
        exact ⟨Or.inr inside,(others v inside).trans called⟩
      · rintro ⟨rfl | inside,called⟩
        · exact absurd (called.symm.trans own) (beq_eq_false_iff_ne.mp same)
        · exact ⟨inside,(others v inside).symm.trans called⟩
  · intro v inside
    exact ⟨(members v).mpr (Or.inr inside),others v inside⟩
  · ext name
    constructor
    · rintro ⟨v,inside,rfl⟩
      rcases (members v).mp inside with rfl | old
      · exact Or.inr own
      · exact Or.inl ⟨v,old,(others v old).symm⟩
    · rintro (⟨v,old,rfl⟩ | rfl)
      · exact ⟨v,(members v).mpr (Or.inr old),others v old⟩
      · exact ⟨new,there,own⟩
  · intro first second
    simp only [Set.mem_empty_iff_false,or_false]
    have ends : ∀ {u v}, reading.graph.Joined u v → u ∈ reading.graph.vertices ∧ v ∈ reading.graph.vertices := by
      rintro u v (forward | backward)
      · exact named.closed _ forward
      · exact (named.closed _ backward).symm
    constructor
    · rintro ⟨u,v,joined,rfl,rfl⟩
      have joined : reading.graph.Joined u v := joined
      exact ⟨u,v,joined,(others u (ends joined).1).symm,(others v (ends joined).2).symm⟩
    · rintro ⟨u,v,joined,rfl,rfl⟩
      exact ⟨u,v,joined,others u (ends joined).1,others v (ends joined).2⟩

private theorem adds_findNode (allocator : Allocator) (named : reading.Named) (uid : String) :
    Adds reading {uid} ∅ (findNode allocator reading uid).2 ∧
      (findNode allocator reading uid).1 ∈ (findNode allocator reading uid).2.graph.vertices ∧
      (findNode allocator reading uid).2.nameOf (findNode allocator reading uid).1 = uid := by
  obtain ⟨mapped,_⟩ := named.toMapped.findNode allocator uid
  cases found : reading.graphNodes.lookup uid with
  | some v =>
    obtain ⟨there,own⟩ := (named.filed uid v).mp found
    have value : findNode allocator reading uid = (v,reading) := by
      rw [findNode,found]
    rw [value]
    refine ⟨⟨named,fun v inside => ⟨inside,rfl⟩,?_,by simp⟩,there,own⟩
    refine (Set.union_eq_left.mpr ?_).symm
    rintro name rfl
    exact ⟨v,there,own⟩
  | none =>
    have value : findNode allocator reading uid =
        (allocator.fresh reading.graph.vertices,withNode reading (allocator.fresh reading.graph.vertices) uid) := by
      rw [findNode,found]
      rfl
    rw [value] at mapped ⊢
    exact adds_node named mapped (allocator.unused _) found

private theorem adds_addEdge (named : reading.Named) {first second : Nat} (here : first ∈ reading.graph.vertices)
    (there : second ∈ reading.graph.vertices) : Adds reading ∅ {(reading.nameOf first,reading.nameOf second)}
      {reading with graph := reading.graph.addEdge first second} := by
  have same : (reading.graph.addEdge first second).vertices = reading.graph.vertices := AdjacencyList.addEdge_vertices _ _
  refine ⟨⟨named.toMapped.addEdge here there,?_⟩,?_,?_,?_⟩
  · rw [same]
    exact named.filed
  · rw [same]
    exact fun v inside => ⟨inside,rfl⟩
  · rw [Set.union_empty,Reading.names,same]
    rfl
  · intro u v
    simp only [Set.mem_singleton_iff,Prod.mk.injEq]
    constructor
    · rintro ⟨a,b,joined,rfl,rfl⟩
      rcases (AdjacencyList.joined_addEdge ..).mp joined with old | ⟨rfl,rfl⟩ | ⟨rfl,rfl⟩
      · exact Or.inl ⟨a,b,old,rfl,rfl⟩
      · exact Or.inr (Or.inl ⟨rfl,rfl⟩)
      · exact Or.inr (Or.inr ⟨rfl,rfl⟩)
    · rintro (⟨a,b,old,rfl,rfl⟩ | ⟨rfl,rfl⟩ | ⟨rfl,rfl⟩)
      · exact ⟨a,b,(AdjacencyList.joined_addEdge ..).mpr (Or.inl old),rfl,rfl⟩
      · exact ⟨first,second,(AdjacencyList.joined_addEdge ..).mpr (Or.inr (Or.inl ⟨rfl,rfl⟩)),rfl,rfl⟩
      · exact ⟨second,first,(AdjacencyList.joined_addEdge ..).mpr (Or.inr (Or.inr ⟨rfl,rfl⟩)),rfl,rfl⟩

private theorem adds_addNeighbour (allocator : Allocator) (named : reading.Named) {node : Nat} (here : node ∈ reading.graph.vertices)
    {nuid : String} (nonempty : nuid ≠ "") :
    Adds reading {nuid} {(reading.nameOf node,nuid)} (addNeighbour allocator node reading nuid) := by
  obtain ⟨found,there,called⟩ := adds_findNode allocator named nuid
  obtain ⟨still,name⟩ := found.stays node here
  have linked := adds_addEdge found.named still there
  rw [name,called] at linked
  have both := found.trans linked
  rw [Set.union_empty,Set.empty_union] at both
  have full : nuid.isEmpty = false := by
    simpa using nonempty
  rw [addNeighbour,full]
  exact both

/-- The loop over the neighbours, of which empty ones are passed over. -/
theorem adds_neighbours (allocator : Allocator) (named : reading.Named) {node : Nat} (here : node ∈ reading.graph.vertices)
    (neighList : List String) : Adds reading {nuid | nuid ∈ neighList ∧ nuid ≠ ""}
      {link | link.1 = reading.nameOf node ∧ link.2 ∈ neighList ∧ link.2 ≠ ""} (neighList.foldl (addNeighbour allocator node) reading) := by
  induction neighList generalizing reading with
  | nil =>
    have nothing := Adds.nothing named
    simpa using nothing
  | cons nuid rest ih =>
    by_cases empty : nuid = ""
    · subst empty
      have same : addNeighbour allocator node reading "" = reading := rfl
      rw [List.foldl_cons,same]
      refine cast (congrArg₂ (fun names links => Adds reading names links _) ?_ ?_) (ih named here)
      · ext name
        simp only [Set.mem_ofPred_eq,List.mem_cons]
        tauto
      · ext link
        simp only [Set.mem_ofPred_eq,List.mem_cons]
        tauto
    · have first := adds_addNeighbour allocator named here empty
      obtain ⟨still,name⟩ := first.stays node here
      have both := first.trans (ih first.named still)
      refine cast (congrArg₂ (fun names links => Adds reading names links _) ?_ ?_) both
      · ext name
        simp only [Set.mem_union,Set.mem_singleton_iff,Set.mem_ofPred_eq,List.mem_cons]
        grind
      · ext ⟨one,other⟩
        rw [name]
        simp only [Set.mem_union,Set.mem_singleton_iff,Set.mem_ofPred_eq,List.mem_cons,Prod.mk.injEq]
        grind

/-- A line in the area adds its node and its neighbours. -/
theorem adds_line (allocator : Allocator) (named : reading.Named) {uid : String} (nonempty : uid ≠ "") (neighList : List String) :
    Adds reading (insert uid {nuid | nuid ∈ neighList ∧ nuid ≠ ""}) {link | link.1 = uid ∧ link.2 ∈ neighList ∧ link.2 ≠ ""}
      (generateFromMapsFile allocator reading ⟨uid,neighList,0⟩) := by
  obtain ⟨found,there,called⟩ := adds_findNode allocator named uid
  have both := found.trans (adds_neighbours allocator found.named there neighList)
  rw [called,Set.empty_union,Set.singleton_union] at both
  have full : uid.isEmpty = false := by
    simpa using nonempty
  rw [generateFromMapsFile,if_neg (Int.lt_irrefl 0),full]
  exact both

end

end Ncfcc.Utils.Rocketfuel
