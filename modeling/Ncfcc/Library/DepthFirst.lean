import Mathlib.Data.Fintype.Card
import Mathlib.Logic.Function.Basic
import Mathlib.Logic.Relation

/-! Depth first search that writes down the edges of each vertex it comes to. A vertex is marked before its edges
are followed, an edge is written down after what is behind it, and the search may stop at a failed assertion. -/
namespace Ncfcc.Library

/-- Why a search does not return: the calls run out, or an assertion fails. -/
inductive Stop where
  | calls
  | assertion
  deriving DecidableEq

/-- The edges written down at the marked vertices. -/
abbrev Marks (Vertex Label : Type*) := Vertex → Option (List (Label × Vertex))

section
variable {Vertex Label : Type*} (edges : Vertex → Option (List (Option (Label × Vertex))))

def Discovers (marks : Marks Vertex Label) (first second : Vertex) : Prop :=
  (∃ list label, edges first = some list ∧ some (label,second) ∈ list) ∧ marks second = none

/-- The vertex is marked by a search from a start: it is come to over unmarked ones. -/
def Found (marks : Marks Vertex Label) (start vertex : Vertex) : Prop :=
  marks start = none ∧ Relation.ReflTransGen (Discovers edges marks) start vertex

/-- The vertex has no edges to follow, or one of them is missing. -/
def Fails (vertex : Vertex) : Prop := ∀ list : List (Label × Vertex), edges vertex ≠ some (list.map some)

/-- What a search from a start does. -/
structure Searched (marks : Marks Vertex Label) (start : Vertex) (after : Marks Vertex Label) : Prop where
  kept : ∀ vertex list, marks vertex = some list → after vertex = some list
  written : ∀ vertex list, marks vertex = none → after vertex = some list → edges vertex = some (list.map some) ∧
    ∀ edge ∈ list, (after edge.2).isSome = true
  found : ∀ vertex, marks vertex = none → (after vertex).isSome = true → Found edges marks start vertex
  started : (after start).isSome = true

/-- A search that stops at an assertion comes to a vertex that fails. -/
def Judged (marks : Marks Vertex Label) (start : Vertex) : Except Stop (Marks Vertex Label) → Prop
  | .ok after => edges start ≠ none ∧ Searched edges marks start after
  | .error .assertion => edges start = none ∨ ∃ vertex, Found edges marks start vertex ∧ Fails edges vertex
  | .error .calls => False

/-- In the middle of the edges of a vertex. -/
structure Searching (marks : Marks Vertex Label) (start : Vertex) (done : List (Label × Vertex)) (state : Marks Vertex Label) : Prop where
  fresh : marks start = none
  own : state start = some done
  kept : ∀ vertex list, marks vertex = some list → state vertex = some list
  ends : ∀ edge ∈ done, (state edge.2).isSome = true
  written : ∀ vertex list, vertex ≠ start → marks vertex = none → state vertex = some list →
    edges vertex = some (list.map some) ∧ ∀ edge ∈ list, (state edge.2).isSome = true
  found : ∀ vertex, marks vertex = none → (state vertex).isSome = true → Found edges marks start vertex

section
variable {edges} {marks state after : Marks Vertex Label} {start vertex : Vertex} {done : List (Label × Vertex)}

theorem Searching.unmarked (searching : Searching edges marks start done state) (none : state vertex = none) :
    marks vertex = Option.none := by
  cases marked : marks vertex with
  | none => rfl
  | some list => cases none.symm.trans (searching.kept vertex list marked)

/-- What a search behind an edge finds is found from the start. -/
theorem Searching.found_behind (searching : Searching edges marks start done state) {other : Vertex}
    (next : ∃ list label, edges start = some list ∧ some (label,other) ∈ list) (behind : Found edges state other vertex) :
    Found edges marks start vertex := by
  refine ⟨searching.fresh,.head ⟨next,searching.unmarked behind.1⟩ ?_⟩
  exact behind.2.lift id fun first second discovers => ⟨discovers.1,searching.unmarked discovers.2⟩

theorem Searching.behind (searching : Searching edges marks start done state) {other : Vertex}
    (next : ∃ list label, edges start = some list ∧ some (label,other) ∈ list) (searched : Searched edges state other after) :
    Searching edges marks start done after where
  fresh := searching.fresh
  own := searched.kept start done searching.own
  kept vertex list marked := searched.kept vertex list (searching.kept vertex list marked)
  ends edge inside := by
    obtain ⟨list,marked⟩ := Option.isSome_iff_exists.mp (searching.ends edge inside)
    rw [searched.kept _ list marked]
    rfl
  written vertex list apart unmarked marked := by
    cases before : state vertex with
    | none => exact searched.written vertex list before marked
    | some old =>
      cases (searched.kept vertex old before).symm.trans marked
      obtain ⟨all,ends⟩ := searching.written vertex _ apart unmarked before
      refine ⟨all,?_⟩
      intro edge inside
      obtain ⟨list,there⟩ := Option.isSome_iff_exists.mp (ends edge inside)
      rw [searched.kept _ list there]
      rfl
  found vertex unmarked marked := by
    cases before : state vertex with
    | none => exact searching.found_behind next (searched.found vertex before marked)
    | some old => exact searching.found vertex unmarked (by rw [before]; rfl)

theorem Searching.finish (searching : Searching edges marks start done state) (all : edges start = some (done.map some)) :
    Searched edges marks start state where
  kept := searching.kept
  written vertex list unmarked marked := by
    by_cases same : vertex = start
    · rw [same] at marked ⊢
      cases searching.own.symm.trans marked
      exact ⟨all,searching.ends⟩
    · exact searching.written vertex list same unmarked marked
  found := searching.found
  started := by
    rw [searching.own]
    rfl

theorem Searching.failed (searching : Searching edges marks start done state) {other : Vertex}
    (next : ∃ list label, edges start = some list ∧ some (label,other) ∈ list) (unmarked : state other = none)
    (failed : edges other = none ∨ ∃ vertex, Found edges state other vertex ∧ Fails edges vertex) :
    ∃ vertex, Found edges marks start vertex ∧ Fails edges vertex := by
  rcases failed with nothing | ⟨vertex,found,fails⟩
  · refine ⟨other,searching.found_behind next ⟨unmarked,.refl⟩,?_⟩
    intro list there
    cases nothing.symm.trans there
  · exact ⟨vertex,searching.found_behind next found,fails⟩

/-- All that is found is marked. -/
theorem Searched.of_found (searched : Searched edges marks start after) (found : Found edges marks start vertex) :
    marks vertex = none ∧ (after vertex).isSome = true := by
  obtain ⟨fresh,path⟩ := found
  induction path with
  | refl => exact ⟨fresh,searched.started⟩
  | tail _ discovers ih =>
    obtain ⟨⟨list,label,out,inside⟩,unmarked⟩ := discovers
    refine ⟨unmarked,?_⟩
    obtain ⟨written,marked⟩ := Option.isSome_iff_exists.mp ih.2
    obtain ⟨all,ends⟩ := searched.written _ written ih.1 marked
    cases out.symm.trans all
    obtain ⟨edge,among,same⟩ := List.mem_map.mp inside
    cases same
    exact ends _ among

theorem Searched.found_iff (searched : Searched edges marks start after) (vertex : Vertex) :
    Found edges marks start vertex ↔ marks vertex = none ∧ (after vertex).isSome = true :=
  ⟨searched.of_found,fun both => searched.found vertex both.1 both.2⟩

variable [Fintype Vertex]

def unmarkedCount (marks : Marks Vertex Label) : Nat := (Finset.univ.filter fun vertex => (marks vertex).isNone).card

theorem Searching.unmarkedCount_lt (searching : Searching edges marks start done state) : unmarkedCount state < unmarkedCount marks := by
  apply Finset.card_lt_card
  rw [Finset.ssubset_iff_of_subset]
  · refine ⟨start,?_,?_⟩
    · simp [searching.fresh]
    · simp [searching.own]
  · intro vertex inside
    simp only [Finset.mem_filter,Finset.mem_univ,true_and,Option.isNone_iff_eq_none] at inside ⊢
    exact searching.unmarked inside

end

end

section
variable {Vertex Label : Type*} [DecidableEq Vertex]

def appendEdge (marks : Marks Vertex Label) (vertex : Vertex) (edge : Label × Vertex) : Marks Vertex Label :=
  Function.update marks vertex ((marks vertex).map (· ++ [edge]))

def followEdge (visit : Vertex → Marks Vertex Label → Except Stop (Marks Vertex Label)) (vertex : Vertex) (marks : Marks Vertex Label)
    (edge : Label × Vertex) : Except Stop (Marks Vertex Label) :=
  (if (marks edge.2).isSome then .ok marks else visit edge.2 marks).bind fun marks =>
    if (marks edge.2).isSome then .ok (appendEdge marks vertex edge) else .error .assertion

/-- An edge may be missing where it is needed. -/
def followTo (visit : Vertex → Marks Vertex Label → Except Stop (Marks Vertex Label)) (vertex : Vertex) (marks : Marks Vertex Label)
    (edge? : Option (Label × Vertex)) : Except Stop (Marks Vertex Label) :=
  match edge? with
  | none => .error .assertion
  | some edge => followEdge visit vertex marks edge

def search (edges : Vertex → Option (List (Option (Label × Vertex)))) : (calls : Nat) → Vertex → Marks Vertex Label → Except Stop (Marks Vertex Label)
  | 0, _, _ => .error .calls
  | calls + 1, vertex, marks =>
    match edges vertex with
    | none => .error .assertion
    | some list =>
      if (marks vertex).isSome then .ok marks
      else list.foldlM (followTo (search edges calls) vertex) (Function.update marks vertex (some []))

variable {edges : Vertex → Option (List (Option (Label × Vertex)))} {marks state : Marks Vertex Label} {start : Vertex}
  {done : List (Label × Vertex)}

private theorem appendEdge_same (marks : Marks Vertex Label) (vertex : Vertex) (edge : Label × Vertex) :
    appendEdge marks vertex edge vertex = (marks vertex).map (· ++ [edge]) := Function.update_self ..

private theorem appendEdge_other (marks : Marks Vertex Label) {vertex other : Vertex} (edge : Label × Vertex) (apart : other ≠ vertex) :
    appendEdge marks vertex edge other = marks other := Function.update_of_ne apart ..

private theorem appendEdge_isSome (marks : Marks Vertex Label) (vertex other : Vertex) (edge : Label × Vertex) :
    (appendEdge marks vertex edge other).isSome = (marks other).isSome := by
  by_cases same : other = vertex
  · rw [same,appendEdge_same,Option.isSome_map]
  · rw [appendEdge_other marks edge same]

theorem Searching.begin (fresh : marks start = none) : Searching edges marks start [] (Function.update marks start (some [])) where
  fresh := fresh
  own := Function.update_self ..
  kept vertex list marked := by
    have apart : vertex ≠ start := by
      rintro rfl
      cases fresh.symm.trans marked
    rw [Function.update_of_ne apart,marked]
  ends edge inside := absurd inside List.not_mem_nil
  written vertex list apart unmarked marked := by
    rw [Function.update_of_ne apart,unmarked] at marked
    cases marked
  found vertex unmarked marked := by
    by_cases same : vertex = start
    · rw [same]
      exact ⟨fresh,.refl⟩
    · rw [Function.update_of_ne same,unmarked] at marked
      cases marked

theorem Searching.append (searching : Searching edges marks start done state) {edge : Label × Vertex}
    (there : (state edge.2).isSome = true) : Searching edges marks start (done ++ [edge]) (appendEdge state start edge) where
  fresh := searching.fresh
  own := by
    rw [appendEdge_same,searching.own]
    rfl
  kept vertex list marked := by
    have apart : vertex ≠ start := by
      rintro rfl
      cases searching.fresh.symm.trans marked
    rw [appendEdge_other state edge apart]
    exact searching.kept vertex list marked
  ends other inside := by
    rw [appendEdge_isSome]
    rcases List.mem_append.mp inside with before | last
    · exact searching.ends other before
    · rw [List.mem_singleton.mp last]
      exact there
  written vertex list apart unmarked marked := by
    rw [appendEdge_other state edge apart] at marked
    obtain ⟨all,ends⟩ := searching.written vertex list apart unmarked marked
    refine ⟨all,?_⟩
    intro other inside
    rw [appendEdge_isSome]
    exact ends other inside
  found vertex unmarked marked := by
    rw [appendEdge_isSome] at marked
    exact searching.found vertex unmarked marked

variable [Fintype Vertex]

/-- The loop over the edges of a vertex, by what its inner searches do. -/
theorem Searching.judged (searching : Searching edges marks start done state) (rest : List (Option (Label × Vertex)))
    (split : edges start = some (done.map some ++ rest)) {visit : Vertex → Marks Vertex Label → Except Stop (Marks Vertex Label)}
    (visits : ∀ other state, unmarkedCount state < unmarkedCount marks → state other = none → Judged edges state other (visit other state)) :
    Judged edges marks start (rest.foldlM (followTo visit start) state) := by
  induction rest generalizing done state with
  | nil =>
    rw [List.append_nil] at split
    refine ⟨?_,searching.finish split⟩
    rw [split]
    exact Option.some_ne_none _
  | cons edge? rest ih =>
    rw [List.foldlM_cons]
    cases edge? with
    | none =>
      refine Or.inr ⟨start,⟨searching.fresh,.refl⟩,?_⟩
      intro list all
      have missing : none ∈ list.map some := by
        rw [← Option.some.inj (split.symm.trans all)]
        exact List.mem_append_right _ List.mem_cons_self
      simp at missing
    | some edge =>
      have next : ∃ list label, edges start = some list ∧ some (label,edge.2) ∈ list :=
        ⟨_,edge.1,split,List.mem_append_right _ List.mem_cons_self⟩
      have onward : edges start = some ((done ++ [edge]).map some ++ rest) := by
        rw [split]
        simp
      by_cases marked : (state edge.2).isSome = true
      · have followed : followTo visit start state (some edge) = .ok (appendEdge state start edge) := by
          rw [followTo,followEdge,if_pos marked]
          exact if_pos marked
        rw [followed]
        exact ih (searching.append marked) onward
      · have unmarked : state edge.2 = none := Option.not_isSome_iff_eq_none.mp marked
        have inner := visits edge.2 state searching.unmarkedCount_lt unmarked
        cases result : visit edge.2 state with
        | ok after =>
          rw [result] at inner
          have searched := inner.2
          have followed : followTo visit start state (some edge) = .ok (appendEdge after start edge) := by
            rw [followTo,followEdge,if_neg marked,result]
            exact if_pos searched.started
          rw [followed]
          exact ih ((searching.behind next searched).append searched.started) onward
        | error stop =>
          rw [result] at inner
          have followed : followTo visit start state (some edge) = .error stop := by
            rw [followTo,followEdge,if_neg marked,result]
            rfl
          rw [followed]
          cases stop with
          | calls => exact inner
          | assertion => exact Or.inr (searching.failed next unmarked inner)

/-- With more calls than unmarked vertices a search ends. -/
theorem search_judged (edges : Vertex → Option (List (Option (Label × Vertex)))) {calls : Nat} (enough : unmarkedCount marks < calls) :
    Judged edges marks start (search edges calls start marks) := by
  induction calls generalizing start marks with
  | zero => exact absurd enough (Nat.not_lt_zero _)
  | succ calls ih =>
    rw [search]
    cases out : edges start with
    | none => exact Or.inl out
    | some list =>
      dsimp only
      by_cases marked : (marks start).isSome = true
      · rw [if_pos marked]
        refine ⟨by rw [out]; exact Option.some_ne_none _,fun _ _ there => there,?_,?_,marked⟩
        · intro vertex list unmarked there
          cases unmarked.symm.trans there
        · intro vertex unmarked there
          rw [unmarked] at there
          cases there
      · rw [if_neg marked]
        refine (Searching.begin (Option.not_isSome_iff_eq_none.mp marked)).judged list out ?_
        intro other state fewer _
        exact ih (Nat.lt_of_lt_of_le fewer (Nat.le_of_lt_succ enough))

end

end Ncfcc.Library
