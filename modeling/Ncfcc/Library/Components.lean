import Mathlib.Data.List.Perm.Subperm
import Ncfcc.Library.AdjacencyList

/-! Connected components of undirected graphs, numbered from zero. What a labelling guarantees, and one
that gives the vertices of the same component the same label by going through the edges. -/
namespace Ncfcc.Library
variable {V : Type}

/-- Vertices have the same label if there is a path between them; the labels are those below the count,
and all of them are used. -/
structure ComponentLabels (V : Type) where
  label : AdjacencyList V → V → Nat
  count : AdjacencyList V → Nat
  same : ∀ g, g.Closed → ∀ u ∈ g.vertices, ∀ v ∈ g.vertices, label g u = label g v ↔ g.ReachIn g.vertexSet u v
  below : ∀ g, ∀ v ∈ g.vertices, label g v < count g
  used : ∀ g, ∀ i < count g, ∃ v ∈ g.vertices, label g v = i

theorem ComponentLabels.count_le (labels : ComponentLabels V) (g : AdjacencyList V) :
    labels.count g ≤ g.vertices.length := by
  have inside : List.range (labels.count g) ⊆ g.vertices.map (labels.label g) := by
    intro i member
    obtain ⟨v,there,rfl⟩ := labels.used g i (List.mem_range.mp member)
    exact List.mem_map_of_mem there
  have short := (List.subperm_of_subset List.nodup_range inside).length_le
  rwa [List.length_range,List.length_map] at short

/-- The vertices that have a label are connected. -/
theorem ComponentLabels.connectedOn (labels : ComponentLabels V) {g : AdjacencyList V} (closed : g.Closed) (i : Nat) :
    g.ConnectedOn {v | v ∈ g.vertices ∧ labels.label g v = i} := by
  rintro u ⟨here,rfl⟩ v ⟨there,same⟩
  have reached := (labels.same g closed u here v there).mp same.symm
  have inside := reached.restrict {w | w ∈ g.vertices ∧ labels.label g w = labels.label g u} ⟨here,rfl⟩
    fun a b start step => ⟨step.2.1,((labels.same g closed b step.2.1 a start.1).mpr
      (.single step.symm)).trans start.2⟩
  exact inside.2.mono fun a b step => ⟨step.1.2,step.2.1.2,step.2.2⟩

namespace AdjacencyList
variable [LinearOrder V]

def relabel (label : V → V) (edge : V × V) (v : V) : V := if label v = label edge.1 then label edge.2 else label v

def root (g : AdjacencyList V) : V → V := g.edges.foldl relabel id

private theorem eqvGen_iff_of_le {α : Type} {first second : α → α → Prop} (left : ∀ a b, first a b → Relation.EqvGen second a b)
    (right : ∀ a b, second a b → Relation.EqvGen first a b) (u v : α) :
    Relation.EqvGen first u v ↔ Relation.EqvGen second u v := by
  have widen : ∀ {one two : α → α → Prop}, (∀ a b, one a b → Relation.EqvGen two a b) → Relation.EqvGen one u v →
      Relation.EqvGen two u v := by
    intro one two each path
    induction path with
    | rel a b step => exact each a b step
    | refl a => exact .refl a
    | symm a b _ ih => exact .symm _ _ ih
    | trans a b c _ _ one two => exact .trans _ _ _ one two
  exact ⟨widen left,widen right⟩

private theorem foldl_relabel (edges : List (V × V)) (label : V → V) (u v : V) :
    edges.foldl relabel label u = edges.foldl relabel label v ↔
      Relation.EqvGen (fun a b => label a = label b ∨ (a,b) ∈ edges) u v := by
  induction edges generalizing label with
  | nil =>
    constructor
    · exact fun same => .rel _ _ (Or.inl same)
    · intro path
      induction path with
      | rel a b step => exact step.resolve_right List.not_mem_nil
      | refl a => rfl
      | symm a b _ ih => exact ih.symm
      | trans a b c _ _ one two => exact one.trans two
  | cons edge rest ih =>
    rw [List.foldl_cons,ih]
    apply eqvGen_iff_of_le
    · rintro a b (same | member)
      · have ends : Relation.EqvGen (fun a b => label a = label b ∨ (a,b) ∈ edge :: rest) edge.1 edge.2 :=
          .rel _ _ (Or.inr List.mem_cons_self)
        unfold relabel at same
        -- either side may be of the class that is renamed
        by_cases first : label a = label edge.1 <;> by_cases second : label b = label edge.1
        · exact .rel _ _ (Or.inl (first.trans second.symm))
        · rw [if_pos first,if_neg second] at same
          exact .trans _ _ _ (.rel _ _ (Or.inl first)) (.trans _ _ _ ends (.rel _ _ (Or.inl same)))
        · rw [if_neg first,if_pos second] at same
          exact .trans _ _ _ (.rel _ _ (Or.inl same)) (.trans _ _ _ (.symm _ _ ends) (.rel _ _ (Or.inl second.symm)))
        · rw [if_neg first,if_neg second] at same
          exact .rel _ _ (Or.inl same)
      · exact .rel _ _ (Or.inr (List.mem_cons_of_mem edge member))
    · rintro a b (same | member)
      · refine .rel _ _ (Or.inl ?_)
        unfold relabel
        rw [same]
      · rcases List.mem_cons.mp member with rfl | later
        · refine .rel _ _ (Or.inl ?_)
          simp [relabel]
        · exact .rel _ _ (Or.inr later)

private theorem root_iff {g : AdjacencyList V} (closed : g.Closed) (u v : V) : g.root u = g.root v ↔ g.ReachIn g.vertexSet u v := by
  rw [root,foldl_relabel]
  constructor
  · intro path
    induction path with
    | rel a b step =>
      rcases step with rfl | member
      · exact .refl
      · obtain ⟨here,there⟩ := closed (a,b) member
        exact .single ⟨here,there,Or.inl member⟩
    | refl a => exact .refl
    | symm a b _ ih => exact ih.symm
    | trans a b c _ _ one two => exact one.trans two
  · intro reached
    induction reached with
    | refl => exact .refl _
    | tail _ step ih =>
      refine .trans _ _ _ ih ?_
      rcases step.2.2 with member | member
      · exact .rel _ _ (Or.inr member)
      · exact .symm _ _ (.rel _ _ (Or.inr member))

def rootOrder (g : AdjacencyList V) : List V := ((g.vertices.map g.root).reverse.dedup).reverse

private theorem mem_rootOrder {g : AdjacencyList V} {v : V} : v ∈ g.rootOrder ↔ v ∈ g.vertices.map g.root := by
  simp [rootOrder]

/-- Components are numbered in the order of their first vertices. -/
def byRelabelling : ComponentLabels V where
  label g v := g.rootOrder.idxOf (g.root v)
  count g := g.rootOrder.length
  same g closed u here v there := by
    rw [List.idxOf_inj (mem_rootOrder.mpr (List.mem_map_of_mem here))]
    exact root_iff closed u v
  below g v there := List.idxOf_lt_length_iff.mpr (mem_rootOrder.mpr (List.mem_map_of_mem there))
  used g i below := by
    obtain ⟨v,there,same⟩ := List.mem_map.mp (mem_rootOrder.mp (List.getElem_mem below))
    refine ⟨v,there,?_⟩
    rw [same]
    exact List.Nodup.idxOf_getElem (List.nodup_reverse.mpr (List.nodup_dedup _)) i below

end AdjacencyList

end Ncfcc.Library
