import Ncfcc.Library.Iteration
import Ncfcc.Utils.Topology.RocketfuelComponents

/-! Types of the nodes of a Rocketfuel map. The marking of gateways ends, also on cycles; a node that has
no type when the clients and gateways are marked becomes a backbone router. -/
namespace Ncfcc.Utils.Rocketfuel
open Ncfcc.Library

/-! Node types. -/

structure Reranked (g h : Graph NodeProperty) : Prop where
  same : h.toAdjacencyList = g.toAdjacencyList
  index : ∀ v, (h.property v).index = (g.property v).index

theorem Reranked.refl (g : Graph NodeProperty) : Reranked g g := ⟨rfl,fun _ => rfl⟩

theorem Reranked.trans {f g h : Graph NodeProperty} (first : Reranked f g) (second : Reranked g h) : Reranked f h :=
  ⟨second.same.trans first.same,fun v => (second.index v).trans (first.index v)⟩

theorem Reranked.put (g : Graph NodeProperty) (v : Nat) (rank : NodeType) (color : String) :
    Reranked g (g.put v {g.property v with rank, color}) := by
  refine ⟨rfl,?_⟩
  apply g.put_read NodeProperty.index
  rfl

theorem Reranked.numbered {g h : Graph NodeProperty} (reranked : Reranked g h) (numbered : Numbered NodeProperty.index g) :
    Numbered NodeProperty.index h := by
  unfold Numbered
  rw [reranked.same]
  simp only [reranked.index]
  exact numbered

def unknowns (g : Graph NodeProperty) : Nat := g.vertices.countP fun v => (g.property v).rank = .unknown

section
variable {g : Graph NodeProperty} {v : Nat} {rank : NodeType} {color : String}

/-- A node that gets a type keeps having one. -/
theorem unknown_of_put (known : rank ≠ .unknown) {u : Nat}
    (unknown : ((g.put v {g.property v with rank, color}).property u).rank = .unknown) :
    u ≠ v ∧ (g.property u).rank = .unknown := by
  by_cases own : u = v
  · subst own
    rw [show (g.put u {g.property u with rank, color}).property u = {g.property u with rank, color} from
      Function.update_self ..] at unknown
    exact absurd unknown known
  · rw [show (g.put v {g.property v with rank, color}).property u = g.property u from Function.update_of_ne own ..] at unknown
    exact ⟨own,unknown⟩

private theorem unknowns_put_le (known : rank ≠ .unknown) : unknowns (g.put v {g.property v with rank, color}) ≤ unknowns g := by
  apply List.countP_mono_left
  intro u _ unknown
  exact decide_eq_true (unknown_of_put known (of_decide_eq_true unknown)).2

private theorem unknowns_put_lt (known : rank ≠ .unknown) (here : v ∈ g.vertices) (unknown : (g.property v).rank = .unknown) :
    unknowns (g.put v {g.property v with rank, color}) < unknowns g := by
  obtain ⟨before,after,split⟩ := List.append_of_mem here
  have smaller : ∀ part : List Nat, (part.countP fun u => ((g.put v {g.property v with rank, color}).property u).rank = .unknown) ≤
      part.countP fun u => (g.property u).rank = .unknown := by
    intro part
    apply List.countP_mono_left
    intro u _ still
    exact decide_eq_true (unknown_of_put known (of_decide_eq_true still)).2
  have own : ((g.put v {g.property v with rank, color}).property v).rank ≠ .unknown := fun still =>
    (unknown_of_put known still).1 rfl
  have left := smaller before
  have right := smaller after
  have vertices : (g.put v {g.property v with rank, color}).vertices = g.vertices := rfl
  rw [unknowns,unknowns,vertices,split,List.countP_append,List.countP_append,List.countP_cons_of_neg (by simpa using own),
    List.countP_cons_of_pos (by simpa using unknown)]
  omega

end

structure Ranked (g h : Graph NodeProperty) : Prop extends Reranked g h where
  fewer : unknowns h ≤ unknowns g

theorem Ranked.refl (g : Graph NodeProperty) : Ranked g g := ⟨.refl g,Nat.le_refl _⟩

theorem Ranked.trans {f g h : Graph NodeProperty} (first : Ranked f g) (second : Ranked g h) : Ranked f h :=
  ⟨first.toReranked.trans second.toReranked,second.fewer.trans first.fewer⟩

theorem Ranked.put (g : Graph NodeProperty) (v : Nat) {rank : NodeType} (known : rank ≠ .unknown) (color : String) :
    Ranked g (g.put v {g.property v with rank, color}) := ⟨.put g v rank color,unknowns_put_le known⟩

/-- Each call inside another ranks a node that had no type. -/
theorem assignGw_ranked (degree calls : Nat) (nodeType : NodeType) (known : nodeType ≠ .unknown) (vertex : Nat)
    {g : Graph NodeProperty} (enough : unknowns g < calls) :
    ∃ h, assignGw degree calls nodeType vertex g = some h ∧ Ranked g h := by
  induction calls generalizing nodeType vertex g with
  | zero => exact absurd enough (Nat.not_lt_zero _)
  | succ calls ih =>
    refine foldlM_pure (motive := fun _ h => Ranked g h) (.refl g) ?_
    intro seen u front h ranked
    have there : u ∈ h.vertices := by
      have member := front.subset (List.mem_append_right seen List.mem_cons_self)
      rw [ranked.same]
      exact (AdjacencyList.mem_adjacentVertices.mp member).1
    by_cases unknown : (h.property u).rank = .unknown
    · have next := Ranked.put h u known "green"
      have fewer : unknowns (h.put u {h.property u with rank := nodeType, color := "green"}) < unknowns h :=
        unknowns_put_lt known there unknown
      simp only [unknown,ne_eq,not_true,↓reduceIte]
      split
      · obtain ⟨after,done,later⟩ := ih .backbone (by decide) u
          (g := h.put u {h.property u with rank := nodeType, color := "green"}) (by
            have bound := ranked.fewer
            omega)
        exact ⟨after,done,ranked.trans (next.trans later)⟩
      · exact ⟨_,rfl,ranked.trans next⟩
    · simp only [unknown,ne_eq,not_false_eq_true,↓reduceIte]
      exact ⟨h,rfl,ranked⟩


section
variable {g : Graph NodeProperty} {clientDegree gwDegree : Nat}

private theorem assignClient_ranked (clientDegree gwDegree : Nat) (g : Graph NodeProperty) (v : Nat) :
    ∃ h, assignClient clientDegree gwDegree g v = some h ∧ Ranked g h := by
  unfold assignClient
  split
  · have first : Ranked g (g.put v {g.property v with rank := .client, color := "red"}) := .put g v (by decide) "red"
    have few : unknowns (g.put v {g.property v with rank := .client, color := "red"}) < g.vertices.length + 1 :=
      Nat.lt_succ_of_le List.countP_le_length
    obtain ⟨h,done,later⟩ := assignGw_ranked ((gwDegree + 1) % 2^32) (g.vertices.length + 1) .gateway (by decide) v few
    exact ⟨h,done,first.trans later⟩
  · exact ⟨g,rfl,.refl g⟩

private theorem assignClients_ranked (clientDegree gwDegree : Nat) (g : Graph NodeProperty) :
    ∃ h, assignClients clientDegree gwDegree g = some h ∧ Ranked g h := by
  refine foldlM_pure (motive := fun _ h => Ranked g h) (.refl g) ?_
  intro seen v _ h ranked
  obtain ⟨next,done,later⟩ := assignClient_ranked clientDegree gwDegree h v
  exact ⟨next,done,ranked.trans later⟩

/-- The counter of degrees does not reach the greatest `int`. -/
theorem assignDegrees_ranked {clientNodeDegrees : Int32} (below : clientNodeDegrees.toInt ≠ intMax) (clientDegree : Nat)
    (g : Graph NodeProperty) : ∃ h, assignDegrees clientNodeDegrees clientDegree g = .ok h ∧ Ranked g h := by
  have bound := clientNodeDegrees.toInt_lt
  have value : (intMax : Int) = 2^31 - 1 := rfl
  fun_induction assignDegrees clientNodeDegrees clientDegree g with
  | case1 clientDegree g inside endless =>
    obtain ⟨h,done,_⟩ := assignClients_ranked clientDegree (min clientDegree 3) g
    exact nomatch done.symm.trans endless
  | case2 g ranked done inside => omega
  | case3 clientDegree g inside ranked done less ih =>
    obtain ⟨h,assigned,first⟩ := assignClients_ranked clientDegree (min clientDegree 3) g
    obtain ⟨next,rest,later⟩ := ih
    obtain rfl := Option.some.inj (assigned.symm.trans done)
    exact ⟨next,rest,first.trans later⟩
  | case4 clientDegree g outside => exact ⟨g,rfl,.refl g⟩

theorem assignDegrees_undefined {clientNodeDegrees : Int32} (greatest : clientNodeDegrees.toInt = intMax) (clientDegree : Nat)
    (inside : clientDegree ≤ intMax) (g : Graph NodeProperty) : assignDegrees clientNodeDegrees clientDegree g = .error .undefined := by
  fun_induction assignDegrees clientNodeDegrees clientDegree g with
  | case1 clientDegree g inside endless =>
    obtain ⟨h,done,_⟩ := assignClients_ranked clientDegree (min clientDegree 3) g
    exact nomatch done.symm.trans endless
  | case2 => rfl
  | case3 clientDegree g inside ranked done less ih =>
    apply ih
    omega
  | case4 clientDegree g outside =>
    omega

end

theorem foldl_assignBackbone (order : List Nat) (g : Graph NodeProperty) :
    let h := order.foldl (fun h v =>
      if (h.property v).rank = .unknown then h.put v {h.property v with rank := .backbone, color := "blue"} else h) g
    Reranked g h ∧ ∀ v, (v ∈ order ∨ (g.property v).rank ≠ .unknown) → (h.property v).rank ≠ .unknown := by
  induction order generalizing g with
  | nil => exact ⟨.refl g,fun v known => known.resolve_left List.not_mem_nil⟩
  | cons v rest ih =>
    rw [List.foldl_cons]
    split
    · rename_i unknown
      obtain ⟨later,known⟩ := ih (g.put v {g.property v with rank := .backbone, color := "blue"})
      refine ⟨(Reranked.put g v .backbone "blue").trans later,?_⟩
      intro u either
      apply known
      by_cases inRest : u ∈ rest
      · exact Or.inl inRest
      · refine Or.inr fun still => ?_
        obtain ⟨other,old⟩ := unknown_of_put (by decide) still
        rcases either with inside | already
        · rcases List.mem_cons.mp inside with rfl | later
          · exact other rfl
          · exact inRest later
        · exact already old
    · rename_i already
      obtain ⟨later,known⟩ := ih g
      refine ⟨later,?_⟩
      intro u either
      apply known
      rcases either with inside | alreadyOwn
      · rcases List.mem_cons.mp inside with rfl | inRest
        · exact Or.inr already
        · exact Or.inl inRest
      · exact Or.inr alreadyOwn

end Ncfcc.Utils.Rocketfuel
