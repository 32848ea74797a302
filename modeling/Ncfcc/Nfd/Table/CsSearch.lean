import Ncfcc.Nfd.Table.CsOrder

/-! What `Cs::find` finds. The entries under a name are neighbours in the table, and those of
one child as well, unless a name ends in an implicit digest: it is then searched as a full
name. The order goes by the types of components, and Interests match by their octets. -/
namespace Ncfcc.Nfd.Table
open Ncfcc.Library

/-! What a search is to find. -/

/-- A component is a generic one or an implicit digest; others cannot be constructed. -/
def IsComponent (component : Component) : Prop :=
  component.head? = some 8 ∨ isImplicitSha256Digest component = true

/-- The component of the full name below a name of this length; none if the full name is as long. -/
def child (length : Nat) (data : Data) : Option Component := data.fullName[length]?

/-- Children are in the order of components, after the name itself. -/
def childLess : Option Component → Option Component → Bool
  | none,some _ => true
  | some first,some second => componentLess first second
  | _,none => false

/-- What is known of the successor of a name: it comes right after the names under this one, and
it is a full name where this one is. -/
structure IsSuccessor (name successor : Name) : Prop where
  next : ∀ other, nameLess other successor = true ↔ nameLess other name = true ∨ name <+: other
  digest : endsInDigest successor = endsInDigest name
  parent : successor.dropLast = name.dropLast

private theorem child_of_name {data : Data} : child data.name.length data = some (digestComponent data.digest) := by
  simp [child,Data.fullName]

private theorem child_of_under {name : Name} {component : Component} {data : Data}
    (inside : name ++ [component] <+: data.name) : child name.length data = some component := by
  obtain ⟨rest,named⟩ := inside
  simp [child,Data.fullName,← named]

private theorem prefix_cases {name : Name} {data : Data} (inside : name <+: data.name) :
    data.name = name ∨ ∃ component, name ++ [component] <+: data.name := by
  obtain ⟨rest,named⟩ := inside
  cases rest with
  | nil => exact Or.inl (by simpa using named.symm)
  | cons component rest => exact Or.inr ⟨component,rest,by simpa using named⟩

/-- Digests come before generic components. -/
theorem digest_less_generic {digest component : Component} (digests : isImplicitSha256Digest digest = true)
    (formed : IsComponent component) (generic : isImplicitSha256Digest component = false) :
    componentLess digest component = true := by
  have eight : component.head? = some 8 := formed.resolve_right (by simp [generic])
  obtain ⟨rest,rfl⟩ := List.head?_eq_some_iff.mp eight
  have one : ∃ rest, digest = 1 :: rest := by
    simp only [isImplicitSha256Digest,Bool.and_eq_true,beq_iff_eq] at digests
    cases digest with
    | nil => simp at digests
    | cons first rest => exact ⟨rest,by simp at digests; simp [digests.1.1]⟩
  obtain ⟨others,rfl⟩ := one
  have types : (1 : UInt8).toNat < (8 : UInt8).toNat := by decide
  rw [componentLess_iff]
  exact List.cons_lt_cons_iff.mpr (Or.inl types)

private theorem child_less {name : Name} {component : Component} {data : Data} (inside : name <+: data.name)
    (formed : IsComponent component) (generic : isImplicitSha256Digest component = false)
    (before : nameLess data.name (name ++ [component]) = true) :
    ∃ smaller, child name.length data = some smaller ∧ componentLess smaller component = true := by
  rcases prefix_cases inside with rfl | ⟨other,under⟩
  · exact ⟨_,child_of_name,digest_less_generic (isImplicitSha256Digest_digestComponent _) formed generic⟩
  · refine ⟨other,child_of_under under,?_⟩
    obtain ⟨rest,named⟩ := under
    rw [← named,List.append_assoc,List.singleton_append] at before
    exact (nameLess_append_iff name other rest component).mp before

namespace Cs
variable {σ : Type}

structure WellFormed (cs : Cs σ) : Prop where
  distinct : cs.stored.Nodup
  ordered : cs.table.Pairwise fun first second => first.2.less second.2 = true
  components : ∀ node ∈ cs.table, ∀ component ∈ node.2.data.name, IsComponent component

def Satisfying (cs : Cs σ) (interest : Interest) (node : Nat × CsEntry) : Prop :=
  node ∈ cs.table ∧ node.2.canSatisfy interest cs.scheduler.now = true

/-- The least satisfying entry in the order of full names. -/
def Leftmost (cs : Cs σ) (interest : Interest) (node : Nat × CsEntry) : Prop :=
  cs.Satisfying interest node ∧ ∀ other, cs.Satisfying interest other → other = node ∨ node.2.less other.2 = true

/-- The least satisfying entry under the greatest child that has any. -/
def Rightmost (cs : Cs σ) (interest : Interest) (node : Nat × CsEntry) : Prop :=
  cs.Satisfying interest node ∧ ∀ other, cs.Satisfying interest other →
    let own := child interest.name.length node.2.data.toData
    let others := child interest.name.length other.2.data.toData
    childLess own others = false ∧ (others = own → other = node ∨ node.2.less other.2 = true)

def range (cs : Cs σ) (getSuccessor : Name → Name) (name : Name) : Nat × Nat :=
  (cs.lowerBound name,if name ≠ [] then cs.lowerBound (getSuccessor name) else cs.table.length)

/-- The iterators that the loop of `findRightmost` goes to. -/
def rightmostIterators (cs : Cs σ) (interest : Interest) (first : Nat) : Nat → Nat → List Nat
  | 0, _ => []
  | fuel + 1, right =>
    if right = first ∨ right = 0 then []
    else match cs.table[right - 1]? with
      | none => []
      | some prev =>
        if prev.2.data.name.length = interest.name.length then [right - 1]
        else
          let left := cs.lowerBound (prev.2.data.name.getPrefix (interest.name.length + 1))
          (right - 1) :: left :: if cs.findLeftmost interest left right = some right then
              rightmostIterators cs interest first fuel left
            else []

/-- The search hits the right entry, or misses where there is none, and its iterators stay in the range. -/
structure Searched (cs : Cs σ) (getSuccessor : Name → Name) (interest : Interest) : Prop where
  ends : (cs.range getSuccessor interest.name).1 ≤ (cs.range getSuccessor interest.name).2
  iterators : interest.selectors.childSelector = some 1 →
    ∀ iterator ∈ cs.rightmostIterators interest (cs.range getSuccessor interest.name).1 (cs.table.length + 1)
        (cs.range getSuccessor interest.name).2,
      (cs.range getSuccessor interest.name).1 ≤ iterator ∧ iterator ≤ (cs.range getSuccessor interest.name).2
  result : (cs.search getSuccessor interest = some none ∧ ∀ node, ¬ cs.Satisfying interest node) ∨
    ∃ node, cs.search getSuccessor interest = some (some node.1) ∧
      if interest.selectors.childSelector = some 1 then cs.Rightmost interest node else cs.Leftmost interest node

/-- A rightmost search does not come to entries whose names extend that of the Interest by a
digest: there are none, or another child has a satisfying entry. -/
def PlainChildren (cs : Cs σ) (interest : Interest) : Prop :=
  interest.selectors.childSelector = some 1 → endsInDigest interest.name = false →
    (∀ node ∈ cs.table, ∀ component, interest.name ++ [component] <+: node.2.data.name →
      isImplicitSha256Digest component = false) ∨
    ∃ node, cs.Satisfying interest node ∧ ∃ component, interest.name ++ [component] <+: node.2.data.name ∧
      isImplicitSha256Digest component = false

/-- For an Interest with a full name: no satisfying Data have a longer name (unless a leftmost search
hits the Data of the full name), and a rightmost search finds no entry between
the name without the digest and the Data of the full name. -/
def FullNameSafe (cs : Cs σ) (interest : Interest) : Prop :=
  endsInDigest interest.name = true →
    if interest.selectors.childSelector = some 1 then
      (∀ node, cs.Satisfying interest node → ¬ interest.name <+: node.2.data.name) ∧
      ((∃ node ∈ cs.table, node.2.data.fullName = interest.name) → ∀ node ∈ cs.table,
        Before interest.name node.2.data.toData → Before interest.name.dropLast node.2.data.toData)
    else
      (∃ node, cs.Satisfying interest node ∧ node.2.data.fullName = interest.name) ∨
      ∀ node, cs.Satisfying interest node → ¬ interest.name <+: node.2.data.name

/-- What is to be found has components of the Interest's types: the least satisfying entry for a leftmost
search, all satisfying entries for a rightmost one. -/
def TypesAgree (cs : Cs σ) (interest : Interest) : Prop :=
  ∀ node, (if interest.selectors.childSelector = some 1 then cs.Satisfying interest node else cs.Leftmost interest node) →
    interest.name <+: node.2.data.fullName

section
variable {cs : Cs σ} {interest : Interest}

private theorem lt_lowerBound_iff (formed : cs.WellFormed) (name : Name) (i : Nat) :
    i < cs.lowerBound name ↔ ∃ node, cs.table[i]? = some node ∧ Before name node.2.data.toData := by
  unfold lowerBound
  rw [lt_takeWhile_iff formed.ordered]
  · simp only [before_iff]
  · intro first second less passed
    rw [before_iff] at passed ⊢
    exact before_of_less less passed

private theorem lowerBound_le (cs : Cs σ) (name : Name) : cs.lowerBound name ≤ cs.table.length := takeWhile_length_le

private theorem lowerBound_mono (formed : cs.WellFormed) {first second : Name}
    (implies : ∀ node ∈ cs.table, Before first node.2.data.toData → Before second node.2.data.toData) :
    cs.lowerBound first ≤ cs.lowerBound second := by
  by_contra less
  obtain ⟨node,there,before⟩ := (lt_lowerBound_iff formed first _).mp (not_le.mp less)
  have again := (lt_lowerBound_iff formed second _).mpr ⟨node,there,implies node (List.mem_of_getElem? there) before⟩
  exact lt_irrefl _ again

private theorem lowerBound_eq_iff (formed : cs.WellFormed) {first second : Name}
    (below : cs.lowerBound second ≤ cs.lowerBound first) : cs.lowerBound second = cs.lowerBound first ↔
      ∀ node ∈ cs.table, Before first node.2.data.toData → Before second node.2.data.toData := by
  constructor
  · intro same node member before
    obtain ⟨i,here⟩ := List.mem_iff_getElem?.mp member
    have less := (lt_lowerBound_iff formed first i).mpr ⟨node,here,before⟩
    rw [← same] at less
    obtain ⟨again,also,earlier⟩ := (lt_lowerBound_iff formed second i).mp less
    rw [here] at also
    cases also
    exact earlier
  · intro implies
    exact le_antisymm below (lowerBound_mono formed implies)

private theorem satisfies_iff {i : Nat} {node : Nat × CsEntry} (there : cs.table[i]? = some node) :
    cs.satisfies interest i = true ↔ cs.Satisfying interest node := by
  unfold satisfies Satisfying
  rw [there,Option.any_some]
  exact ⟨fun satisfied => ⟨List.mem_of_getElem? there,satisfied⟩,fun satisfied => satisfied.2⟩

theorem Satisfying.at_index {node : Nat × CsEntry} (satisfying : cs.Satisfying interest node) :
    ∃ i, cs.table[i]? = some node ∧ cs.satisfies interest i = true := by
  obtain ⟨i,there⟩ := List.mem_iff_getElem?.mp satisfying.1
  exact ⟨i,there,(satisfies_iff there).mpr satisfying⟩

/-- `findLeftmost` gives the end of the range, or the first satisfying place. -/
theorem findLeftmost_spec (cs : Cs σ) (interest : Interest) {first last : Nat} (ends : first ≤ last) :
    ∃ found, cs.findLeftmost interest first last = some found ∧
      ((found = last ∧ ∀ i, first ≤ i → i < last → cs.satisfies interest i = false) ∨
        (first ≤ found ∧ found < last ∧ cs.satisfies interest found = true ∧
          ∀ i, first ≤ i → i < found → cs.satisfies interest i = false)) := by
  unfold findLeftmost
  rw [if_pos ends]
  cases found : (List.range' first (last - first)).find? (cs.satisfies interest) with
  | none =>
    refine ⟨last,rfl,Or.inl ⟨rfl,?_⟩⟩
    intro i above below
    have none := List.find?_eq_none.mp found i (List.mem_range'_1.mpr ⟨above,by omega⟩)
    simpa using none
  | some place =>
    obtain ⟨satisfied,inside,earlier⟩ := List.find?_range'_eq_some.mp found
    obtain ⟨above,below⟩ := List.mem_range'_1.mp inside
    refine ⟨place,rfl,Or.inr ⟨above,by omega,satisfied,?_⟩⟩
    intro i above below
    simpa using earlier i above below

/-- `findRightmostAmongExact` gives the end of the range, or the last satisfying place. -/
theorem findRightmostAmongExact_spec (cs : Cs σ) (interest : Interest) {first last : Nat} (ends : first ≤ last) :
    ∃ found, cs.findRightmostAmongExact interest first last = some found ∧
      ((found = last ∧ ∀ i, first ≤ i → i < last → cs.satisfies interest i = false) ∨
        (first ≤ found ∧ found < last ∧ cs.satisfies interest found = true ∧
          ∀ i, found < i → i < last → cs.satisfies interest i = false)) := by
  unfold findRightmostAmongExact
  rw [if_pos ends]
  cases found : (List.range' first (last - first)).reverse.find? (cs.satisfies interest) with
  | none =>
    refine ⟨last,rfl,Or.inl ⟨rfl,?_⟩⟩
    intro i above below
    have none := List.find?_eq_none.mp found i (List.mem_reverse.mpr (List.mem_range'_1.mpr ⟨above,by omega⟩))
    simpa using none
  | some place =>
    obtain ⟨satisfied,greater,smaller,split,earlier⟩ := List.find?_eq_some_iff_append.mp found
    have inside : place ∈ List.range' first (last - first) := by
      rw [← List.mem_reverse,split]
      simp
    obtain ⟨above,below⟩ := List.mem_range'_1.mp inside
    refine ⟨place,rfl,Or.inr ⟨above,by omega,satisfied,?_⟩⟩
    intro i after before
    have member : i ∈ greater ++ place :: smaller := by
      rw [← split,List.mem_reverse]
      exact List.mem_range'_1.mpr ⟨by omega,by omega⟩
    have decreasing : (greater ++ place :: smaller).Pairwise (fun first second => second < first) := by
      rw [← split,List.pairwise_reverse]
      exact List.pairwise_lt_range'
    rcases List.mem_append.mp member with larger | rest
    · simpa using earlier i larger
    · rcases List.mem_cons.mp rest with rfl | later
      · exact absurd after (lt_irrefl _)
      · have order := List.rel_of_pairwise_cons (List.pairwise_append.mp decreasing).2.1 later
        omega

/-! The entries under a generic name. -/

def Under (cs : Cs σ) (name : Name) (first last : Nat) : Prop :=
  ∀ i node, cs.table[i]? = some node → (first ≤ i ∧ i < last ↔ name <+: node.2.data.name)

private theorem range_under (formed : cs.WellFormed) {getSuccessor : Name → Name} {name : Name}
    (plain : endsInDigest name = false) (successor : name ≠ [] → IsSuccessor name (getSuccessor name)) :
    (cs.range getSuccessor name).1 ≤ (cs.range getSuccessor name).2 ∧
      (cs.range getSuccessor name).2 ≤ cs.table.length ∧
      cs.Under name (cs.range getSuccessor name).1 (cs.range getSuccessor name).2 := by
  unfold range
  dsimp only
  split
  · rename_i nonempty
    have after := successor nonempty
    have also : endsInDigest (getSuccessor name) = false := after.digest.trans plain
    refine ⟨?_,lowerBound_le cs _,?_⟩
    · apply lowerBound_mono formed
      intro node _
      rw [before_plain plain,before_plain also,after.next]
      exact Or.inl
    · intro i node there
      rw [← not_lt,lt_lowerBound_iff formed,lt_lowerBound_iff formed]
      simp only [there,Option.some.injEq,exists_eq_left',before_plain plain,before_plain also,after.next]
      constructor
      · rintro ⟨above,below⟩
        exact below.resolve_left above
      · intro inside
        exact ⟨not_nameLess_under inside,Or.inr inside⟩
  · rename_i empty
    rw [not_not] at empty
    subst empty
    refine ⟨lowerBound_le cs _,le_refl _,?_⟩
    intro i node there
    refine iff_of_true ⟨?_,(List.getElem?_eq_some_iff.mp there).1⟩ List.nil_prefix
    rw [← not_lt,lt_lowerBound_iff formed]
    simp only [there,Option.some.injEq,exists_eq_left',before_plain plain]
    exact not_nameLess_under List.nil_prefix

/-- The full name is that of the Interest, or it extends it before the digest. -/
theorem under_fullName {name : Name} {data : Data} : name <+: data.fullName ↔ data.fullName = name ∨ name <+: data.name :=
  List.prefix_concat_iff.trans (or_congr_left eq_comm)

private theorem under_plain {name : Name} (plain : endsInDigest name = false) {data : Data} :
    name <+: data.fullName ↔ name <+: data.name := by
  refine under_fullName.trans (or_iff_right fun full => ?_)
  rw [← full,endsInDigest_fullName] at plain
  cases plain

private theorem less_of_lt (formed : cs.WellFormed) {i j : Nat} {first second : Nat × CsEntry} (here : cs.table[i]? = some first)
    (there : cs.table[j]? = some second) (order : i < j) : first.2.less second.2 = true := by
  obtain ⟨bound,rfl⟩ := List.getElem?_eq_some_iff.mp here
  obtain ⟨limit,rfl⟩ := List.getElem?_eq_some_iff.mp there
  exact List.pairwise_iff_getElem.mp formed.ordered i j bound limit order

private theorem not_nameLess_of_le (formed : cs.WellFormed) {i j : Nat} {first second : Nat × CsEntry}
    (here : cs.table[i]? = some first) (there : cs.table[j]? = some second) (order : i ≤ j) :
    ¬ nameLess second.2.data.name first.2.data.name = true := by
  rcases Nat.lt_or_eq_of_le order with less | rfl
  · rcases less_iff.mp (less_of_lt formed here there less) with smaller | ⟨same,-⟩
    · exact nameLess_asymm smaller
    · rw [same]
      exact nameLess_irrefl _
  · rw [here] at there
    cases there
    exact nameLess_irrefl _

private theorem leftmost_of_first (formed : cs.WellFormed) {first last found : Nat} {node : Nat × CsEntry}
    (all : ∀ i other, cs.table[i]? = some other → cs.Satisfying interest other → first ≤ i ∧ i < last)
    (there : cs.table[found]? = some node) (satisfied : cs.satisfies interest found = true)
    (earlier : ∀ i, first ≤ i → i < found → cs.satisfies interest i = false) : cs.Leftmost interest node := by
  refine ⟨(satisfies_iff there).mp satisfied,?_⟩
  intro other satisfying
  obtain ⟨i,here,passes⟩ := satisfying.at_index
  rcases lt_trichotomy i found with less | rfl | greater
  · have fails := earlier i (all i other here satisfying).1 less
    rw [passes] at fails
    cases fails
  · rw [here] at there
    exact Or.inl (Option.some.inj there)
  · exact Or.inr (less_of_lt formed there here greater)

/-- The child of the last entry of what is left to search is a generic component. -/
theorem generic_child (formed : cs.WellFormed) {first last right : Nat} (under : cs.Under interest.name first last)
    (selected : interest.selectors.childSelector = some 1) (plain : endsInDigest interest.name = false)
    (children : cs.PlainChildren interest) (quiet : ∀ i, right ≤ i → i < last → cs.satisfies interest i = false)
    {prev : Nat × CsEntry} (here : cs.table[right - 1]? = some prev) {component : Component}
    (inside : interest.name ++ [component] <+: prev.2.data.name) : isImplicitSha256Digest component = false := by
  rcases children selected plain with none | ⟨node,satisfying,greater,above,generic⟩
  · exact none prev (List.mem_of_getElem? here) component inside
  · by_contra digest
    rw [Bool.not_eq_false] at digest
    obtain ⟨j,there,passes⟩ := satisfying.at_index
    have inRange := (under j node there).mpr ((List.prefix_append _ _).trans above)
    rcases Nat.lt_or_ge j right with less | beyond
    · have order := not_nameLess_of_le formed there here (by omega)
      obtain ⟨rest,named⟩ := inside
      obtain ⟨others,also⟩ := above
      have component : IsComponent greater := by
        apply formed.components node satisfying.1
        rw [← also]
        simp
      have less := nameLess_of_component interest.name rest others (digest_less_generic digest component generic)
      rw [← named,← also] at order
      exact order (by simpa using less)
    · have fails := quiet j beyond inRange.2
      rw [passes] at fails
      cases fails

/-- Among entries of the very name of the Interest the last satisfying one has the greatest digest. -/
theorem rightmost_of_exact (formed : cs.WellFormed) (plain : endsInDigest interest.name = false)
    (typed : ∀ node, cs.Satisfying interest node → interest.name <+: node.2.data.fullName)
    {first last right found : Nat} (under : cs.Under interest.name first last)
    (quiet : ∀ i, right ≤ i → i < last → cs.satisfies interest i = false)
    (exact : ∀ i node, first ≤ i → i < right → cs.table[i]? = some node → node.2.data.name = interest.name)
    (below : first ≤ found) (above : found < right) {node : Nat × CsEntry} (there : cs.table[found]? = some node)
    (satisfied : cs.satisfies interest found = true)
    (later : ∀ i, found < i → i < right → cs.satisfies interest i = false) : cs.Rightmost interest node := by
  refine ⟨(satisfies_iff there).mp satisfied,?_⟩
  intro other satisfying
  obtain ⟨i,here,passes⟩ := satisfying.at_index
  have inRange := (under i other here).mpr ((under_plain plain).mp (typed other satisfying))
  have inside : i ≤ found := by
    by_contra beyond
    rcases Nat.lt_or_ge i right with less | more
    · exact absurd passes (by simp [later i (not_le.mp beyond) less])
    · exact absurd passes (by simp [quiet i more inRange.2])
  have name := exact found node below above there
  have same := exact i other inRange.1 (lt_of_le_of_lt inside above) here
  have children : ∀ node : Nat × CsEntry, node.2.data.name = interest.name →
      child interest.name.length node.2.data.toData = some (digestComponent node.2.data.digest) := by
    intro node named
    rw [← named]
    exact child_of_name
  dsimp only
  rw [children node name,children other same]
  rcases Nat.lt_or_eq_of_le inside with less | rfl
  · have order := less_iff.mp (less_of_lt formed here there less)
    rw [name,same] at order
    have digests := (order.resolve_left (nameLess_irrefl _)).2
    refine ⟨componentLess_asymm digests,?_⟩
    intro equal
    rw [Option.some.inj equal,componentLess_irrefl] at digests
    cases digests
  · rw [here] at there
    cases there
    exact ⟨componentLess_irrefl _,fun _ => Or.inl rfl⟩

private theorem rightmost_of_child (formed : cs.WellFormed) (plain : endsInDigest interest.name = false)
    (typed : ∀ node, cs.Satisfying interest node → interest.name <+: node.2.data.fullName)
    {first last left right found : Nat} (under : cs.Under interest.name first last)
    (quiet : ∀ i, right ≤ i → i < last → cs.satisfies interest i = false) {component : Component}
    (wellFormed : IsComponent component) (generic : isImplicitSha256Digest component = false)
    (before : ∀ i node, i < left → cs.table[i]? = some node → nameLess node.2.data.name (interest.name ++ [component]) = true)
    (inside : ∀ i node, left ≤ i → i < right → cs.table[i]? = some node →
      interest.name ++ [component] <+: node.2.data.name)
    (below : left ≤ found) (above : found < right) {node : Nat × CsEntry} (there : cs.table[found]? = some node)
    (satisfied : cs.satisfies interest found = true)
    (earlier : ∀ i, left ≤ i → i < found → cs.satisfies interest i = false) : cs.Rightmost interest node := by
  refine ⟨(satisfies_iff there).mp satisfied,?_⟩
  intro other satisfying
  obtain ⟨i,here,passes⟩ := satisfying.at_index
  have prefixed := (under_plain plain).mp (typed other satisfying)
  have inRange := (under i other here).mpr prefixed
  dsimp only
  rw [child_of_under (inside found node below above there)]
  rcases Nat.lt_or_ge i left with lower | notLower
  · obtain ⟨smaller,children,less⟩ := child_less prefixed wellFormed generic (before i other lower here)
    rw [children]
    refine ⟨componentLess_asymm less,?_⟩
    intro equal
    rw [Option.some.inj equal,componentLess_irrefl] at less
    cases less
  · have notHigher : i < right := by
      by_contra beyond
      exact absurd passes (by simp [quiet i (not_lt.mp beyond) inRange.2])
    rw [child_of_under (inside i other notLower notHigher here)]
    refine ⟨componentLess_irrefl _,fun _ => ?_⟩
    rcases lt_trichotomy i found with less | rfl | greater
    · exact absurd passes (by simp [earlier i notLower less])
    · rw [here] at there
      exact Or.inl (Option.some.inj there)
    · exact Or.inr (less_of_lt formed there here greater)

/-- What the loop of `findRightmost` comes to. -/
def Reaches (cs : Cs σ) (interest : Interest) (first last fuel right : Nat) : Prop :=
  (∀ iterator ∈ cs.rightmostIterators interest first fuel right, first ≤ iterator ∧ iterator ≤ last) ∧
    ∃ found, cs.findRightmost interest first last fuel right = some found ∧
      ((found = last ∧ ∀ i, first ≤ i → i < last → cs.satisfies interest i = false) ∨
        ∃ node, found ≠ last ∧ cs.table[found]? = some node ∧ cs.Rightmost interest node)

/-- The round of `findRightmost` for entries of the very name of the Interest. -/
theorem reaches_exact (formed : cs.WellFormed) (plain : endsInDigest interest.name = false)
    (typed : ∀ node, cs.Satisfying interest node → interest.name <+: node.2.data.fullName) {first last : Nat}
    (under : cs.Under interest.name first last) (limit : last ≤ cs.table.length) {fuel right : Nat}
    (low : first < right) (high : right ≤ last)
    (quiet : ∀ i, right ≤ i → i < last → cs.satisfies interest i = false) {prev : Nat × CsEntry}
    (here : cs.table[right - 1]? = some prev) (short : prev.2.data.name.length = interest.name.length) :
    cs.Reaches interest first last (fuel + 1) right := by
  have started : ¬ right = first := by omega
  have positive : ¬ right = 0 := by omega
  have inside : interest.name <+: prev.2.data.name := (under _ prev here).mp ⟨by omega,by omega⟩
  have named : prev.2.data.name = interest.name := (inside.eq_of_length short.symm).symm
  have exact : ∀ i node, first ≤ i → i < right → cs.table[i]? = some node → node.2.data.name = interest.name := by
    intro i node above below there
    have also : interest.name <+: node.2.data.name := (under i node there).mp ⟨above,by omega⟩
    have order := not_nameLess_of_le formed there here (by omega)
    rw [named] at order
    by_contra differs
    exact order (nameLess_of_proper also fun same => differs same.symm)
  obtain ⟨found,searched,outcome⟩ := findRightmostAmongExact_spec cs interest (le_of_lt low)
  refine ⟨?_,?_⟩
  · intro iterator member
    simp only [rightmostIterators,started,positive,or_self,if_false,here,short,if_true,List.mem_singleton] at member
    omega
  · simp only [findRightmost,started,positive,if_false,here,Option.bind_some,short,if_true,searched,Option.map_some,
      Option.some.injEq,exists_eq_left']
    rcases outcome with ⟨rfl,none⟩ | ⟨below,above,satisfied,later⟩
    · refine Or.inl ⟨if_pos rfl,?_⟩
      intro i above below
      rcases Nat.lt_or_ge i found with less | more
      · exact none i above less
      · exact quiet i more below
    · rw [if_neg (by omega)]
      have bound : found < cs.table.length := by omega
      exact Or.inr ⟨_,by omega,List.getElem?_eq_getElem bound,rightmost_of_exact formed plain typed under quiet exact below above
        (List.getElem?_eq_getElem bound) satisfied later⟩

/-- The round of `findRightmost` for a child: the first satisfying entry under it, or the search goes on
before it. -/
theorem reaches_child (formed : cs.WellFormed) (selected : interest.selectors.childSelector = some 1)
    (plain : endsInDigest interest.name = false)
    (typed : ∀ node, cs.Satisfying interest node → interest.name <+: node.2.data.fullName)
    (children : cs.PlainChildren interest) {first last : Nat}
    (under : cs.Under interest.name first last) (limit : last ≤ cs.table.length) {fuel right : Nat}
    (low : first < right) (high : right ≤ last)
    (quiet : ∀ i, right ≤ i → i < last → cs.satisfies interest i = false) {prev : Nat × CsEntry}
    (here : cs.table[right - 1]? = some prev) (long : ¬ prev.2.data.name.length = interest.name.length)
    (next : ∀ left, first ≤ left → left < right → (∀ i, left ≤ i → i < last → cs.satisfies interest i = false) →
      cs.Reaches interest first last fuel left) : cs.Reaches interest first last (fuel + 1) right := by
  have inside : interest.name <+: prev.2.data.name := (under _ prev here).mp ⟨by omega,by omega⟩
  obtain ⟨component,child⟩ := (prefix_cases inside).resolve_left fun same => long (by rw [same])
  have generic := generic_child formed under selected plain children quiet here child
  have wellFormed : IsComponent component := by
    apply formed.components prev (List.mem_of_getElem? here)
    exact child.subset (by simp)
  have getPrefix : prev.2.data.name.getPrefix (interest.name.length + 1) = interest.name ++ [component] := by
    have taken := List.prefix_iff_eq_take.mp child
    rw [List.length_append,List.length_singleton] at taken
    exact taken.symm
  have also : endsInDigest (interest.name ++ [component]) = false := by
    simp [endsInDigest,generic]
  have bounds : ∀ i node, cs.table[i]? = some node → (i < cs.lowerBound (interest.name ++ [component]) ↔
      nameLess node.2.data.name (interest.name ++ [component]) = true) := by
    intro i node there
    rw [lt_lowerBound_iff formed]
    simp only [there,Option.some.injEq,exists_eq_left',before_plain also]
  generalize lowered : cs.lowerBound (interest.name ++ [component]) = left at bounds
  have before : left ≤ right - 1 := by
    rw [← not_lt,bounds _ prev here]
    exact not_nameLess_under child
  have prefixed : ∀ i node, left ≤ i → i < right → cs.table[i]? = some node →
      interest.name ++ [component] <+: node.2.data.name := by
    intro i node above below there
    have order := not_nameLess_of_le formed there here (by omega)
    exact prefix_of_names_between child (mt (bounds i node there).mpr (not_lt.mpr above)) order
  have after : first ≤ left := by
    have there := List.getElem?_eq_getElem (l := cs.table) (i := left) (by omega)
    have also := (List.prefix_append _ _).trans (prefixed left _ (le_refl _) (by omega) there)
    exact ((under left _ there).mpr also).1
  obtain ⟨found,searched,outcome⟩ := findLeftmost_spec cs interest (show left ≤ right by omega)
  have started : ¬ right = first := by omega
  have positive : ¬ right = 0 := by omega
  unfold Reaches
  simp only [rightmostIterators,findRightmost,started,positive,or_self,if_false,here,Option.bind_some,long,getPrefix,
    lowered,searched,Option.some.injEq]
  rcases outcome with ⟨rfl,none⟩ | ⟨below,above,satisfied,earlier⟩
  · have silent : ∀ i, left ≤ i → i < last → cs.satisfies interest i = false := by
      intro i above below
      rcases Nat.lt_or_ge i found with less | more
      · exact none i above less
      · exact quiet i more below
    obtain ⟨iterators,reached⟩ := next left after (by omega) silent
    rw [if_pos rfl,if_pos rfl]
    refine ⟨?_,reached⟩
    intro iterator member
    rcases List.mem_cons.mp member with rfl | later
    · omega
    · rcases List.mem_cons.mp later with rfl | rest
      · omega
      · exact iterators iterator rest
  · rw [if_neg (by omega),if_neg (by omega)]
    refine ⟨?_,found,rfl,Or.inr ?_⟩
    · intro iterator member
      simp only [List.mem_cons,List.not_mem_nil,or_false] at member
      omega
    · have there := List.getElem?_eq_getElem (l := cs.table) (i := found) (by omega)
      exact ⟨_,by omega,there,rightmost_of_child formed plain typed under quiet wellFormed generic
        (fun i node less here => (bounds i node here).mp less) prefixed below above there satisfied earlier⟩

private theorem findRightmost_spec (formed : cs.WellFormed) (selected : interest.selectors.childSelector = some 1)
    (plain : endsInDigest interest.name = false)
    (typed : ∀ node, cs.Satisfying interest node → interest.name <+: node.2.data.fullName)
    (children : cs.PlainChildren interest) {first last : Nat}
    (under : cs.Under interest.name first last) (limit : last ≤ cs.table.length) (fuel right : Nat)
    (low : first ≤ right) (high : right ≤ last) (enough : right < fuel)
    (quiet : ∀ i, right ≤ i → i < last → cs.satisfies interest i = false) :
    cs.Reaches interest first last fuel right := by
  -- each round ends the search or moves the right end down to a child before which nothing was searched
  induction fuel generalizing right with
  | zero => exact absurd enough (Nat.not_lt_zero _)
  | succ fuel ih =>
    rcases Nat.lt_or_eq_of_le low with more | rfl
    · have bound : right - 1 < cs.table.length := by omega
      have here := List.getElem?_eq_getElem bound
      generalize cs.table[right - 1] = prev at here
      by_cases short : prev.2.data.name.length = interest.name.length
      · exact reaches_exact formed plain typed under limit more high quiet here short
      · refine reaches_child formed selected plain typed children under limit more high quiet here short ?_
        intro left above below silent
        exact ih left above (by omega) (by omega) silent
    · simp only [Reaches,rightmostIterators,findRightmost,true_or,if_true,List.not_mem_nil,false_implies,implies_true,
        true_and,Option.some.injEq,exists_eq_left']
      exact Or.inl quiet

/-! The entry of a full name. -/

/-- The range of a full name holds the entry of that name only. -/
theorem range_fullName (formed : cs.WellFormed) {getSuccessor : Name → Name} {name : Name}
    (full : endsInDigest name = true) (successor : IsSuccessor name (getSuccessor name)) :
    (cs.range getSuccessor name).1 ≤ (cs.range getSuccessor name).2 ∧
      (cs.range getSuccessor name).2 ≤ cs.table.length ∧
      ∀ i node, cs.table[i]? = some node → ((cs.range getSuccessor name).1 ≤ i ∧ i < (cs.range getSuccessor name).2 ↔
        node.2.data.fullName = name) := by
  obtain ⟨nonempty,split⟩ := split_digest full
  have also : endsInDigest (getSuccessor name) = true := successor.digest.trans full
  have splitAlso := (split_digest also).2
  rw [successor.parent] at splitAlso
  have digests : ∀ digest, componentLess digest ((getSuccessor name).getLastD []) = true ↔
      componentLess digest (name.getLastD []) = true ∨ digest = name.getLastD [] := by
    intro digest
    have next := successor.next (name.dropLast ++ [digest])
    rw [← splitAlso,nameLess_append_iff] at next
    rw [next,← nameLess_append_iff name.dropLast digest [],split]
    refine or_congr_right ⟨fun inside => ?_,?_⟩
    · have same := inside.eq_of_length (by simp [List.length_dropLast,Nat.sub_add_cancel (List.length_pos_of_ne_nil nonempty)])
      rw [same]
      simp
    · rintro rfl
      rw [split]
  unfold range
  dsimp only
  rw [if_pos nonempty]
  refine ⟨?_,lowerBound_le cs _,?_⟩
  · apply lowerBound_mono formed
    intro node _
    rw [before_full full,before_full also,successor.parent,digests]
    tauto
  · intro i node there
    rw [← not_lt,lt_lowerBound_iff formed,lt_lowerBound_iff formed]
    simp only [there,Option.some.injEq,exists_eq_left',before_full full,before_full also,successor.parent,digests,
      fullName_eq_iff full]
    constructor
    · rintro ⟨above,below⟩
      tauto
    · rintro ⟨named,digest⟩
      refine ⟨?_,Or.inr ⟨named,Or.inr digest⟩⟩
      rw [named,digest]
      rintro (less | ⟨-,less⟩)
      · exact nameLess_irrefl _ less
      · simp [componentLess_irrefl] at less

private theorem fullName_injective (formed : cs.WellFormed) {i j : Nat} {first second : Nat × CsEntry}
    (here : cs.table[i]? = some first) (there : cs.table[j]? = some second)
    (same : first.2.data.fullName = second.2.data.fullName) : i = j := by
  have differ : ∀ first second : CsEntry, first.data.fullName = second.data.fullName → ¬ first.less second = true := by
    intro first second same less
    obtain ⟨names,digests⟩ := List.append_inj' same rfl
    rw [less_iff,names,(List.cons.inj digests).1] at less
    rcases less with smaller | ⟨-,smaller⟩
    · exact nameLess_irrefl _ smaller
    · simp [componentLess_irrefl] at smaller
  rcases lt_trichotomy i j with less | equal | greater
  · exact absurd (less_of_lt formed here there less) (differ _ _ same)
  · exact equal
  · exact absurd (less_of_lt formed there here greater) (differ _ _ same.symm)

private theorem node_of_stored (formed : cs.WellFormed) {first second : Nat × CsEntry} (here : first ∈ cs.table)
    (there : second ∈ cs.table) (same : first.1 = second.1) : first = second :=
  List.inj_on_of_nodup_map formed.distinct here there same

private theorem search_leftmost {getSuccessor : Name → Name} (selected : interest.selectors.childSelector ≠ some 1) {found : Nat}
    (searched : cs.findLeftmost interest (cs.range getSuccessor interest.name).1 (cs.range getSuccessor interest.name).2 =
      some found) :
    cs.search getSuccessor interest = if found = (cs.range getSuccessor interest.name).2 then some none
      else cs.table[found]?.map fun node => some node.1 := by
  unfold Cs.search
  simp only [selected,if_false]
  exact (congrArg (fun result => Option.bind result _) searched).trans rfl

private theorem search_rightmost {getSuccessor : Name → Name} (selected : interest.selectors.childSelector = some 1) {found : Nat}
    (searched : cs.findRightmost interest (cs.range getSuccessor interest.name).1 (cs.range getSuccessor interest.name).2
      (cs.table.length + 1) (cs.range getSuccessor interest.name).2 = some found) :
    cs.search getSuccessor interest = if found = (cs.range getSuccessor interest.name).2 then some none
      else cs.table[found]?.map fun node => some node.1 := by
  unfold Cs.search
  simp only [selected,if_true]
  exact (congrArg (fun result => Option.bind result _) searched).trans rfl

private theorem leftmost_unique {first second : Nat × CsEntry} (here : cs.Leftmost interest first)
    (there : cs.Leftmost interest second) : first = second := by
  rcases here.2 second there.1 with same | less
  · exact same.symm
  · rcases there.2 first here.1 with same | greater
    · exact same
    · exact absurd (less_trans less greater) (less_irrefl _)

private theorem exists_leftmost (formed : cs.WellFormed) {node : Nat × CsEntry} (satisfying : cs.Satisfying interest node) :
    ∃ first, cs.Leftmost interest first := by
  have all : ∀ i other, cs.table[i]? = some other → cs.Satisfying interest other → 0 ≤ i ∧ i < cs.table.length :=
    fun i _ here _ => ⟨Nat.zero_le i,(List.getElem?_eq_some_iff.mp here).1⟩
  obtain ⟨found,-,outcome⟩ := findLeftmost_spec cs interest (Nat.zero_le cs.table.length)
  rcases outcome with ⟨-,none⟩ | ⟨-,bound,satisfied,earlier⟩
  · obtain ⟨i,here,passes⟩ := satisfying.at_index
    rw [none i (Nat.zero_le i) (all i node here satisfying).2] at passes
    cases passes
  · exact ⟨_,leftmost_of_first formed all (List.getElem?_eq_getElem bound) satisfied earlier⟩

/-- A leftmost search is right exactly if the least satisfying entry is in the range. -/
theorem searched_range_iff (formed : cs.WellFormed) {getSuccessor : Name → Name}
    (selected : interest.selectors.childSelector ≠ some 1) {within : Nat × CsEntry → Prop}
    (ends : (cs.range getSuccessor interest.name).1 ≤ (cs.range getSuccessor interest.name).2)
    (limit : (cs.range getSuccessor interest.name).2 ≤ cs.table.length)
    (only : ∀ i node, cs.table[i]? = some node → ((cs.range getSuccessor interest.name).1 ≤ i ∧
      i < (cs.range getSuccessor interest.name).2 ↔ within node)) :
    cs.Searched getSuccessor interest ↔ ∀ node, cs.Leftmost interest node → within node := by
  obtain ⟨found,searched,outcome⟩ := findLeftmost_spec cs interest ends
  have search := search_leftmost selected searched
  rcases outcome with ⟨rfl,none⟩ | ⟨below,above,satisfied,earlier⟩
  · rw [if_pos rfl] at search
    constructor
    · intro correct node leftmost
      rcases correct.result with ⟨-,nothing⟩ | ⟨hit,reported,-⟩
      · exact absurd leftmost.1 (nothing node)
      · rw [search] at reported
        cases reported
    · intro inside
      refine ⟨ends,fun impossible => absurd impossible selected,Or.inl ⟨search,?_⟩⟩
      intro node satisfying
      obtain ⟨first,leftmost⟩ := exists_leftmost formed satisfying
      obtain ⟨i,there,passes⟩ := leftmost.1.at_index
      obtain ⟨low,high⟩ := (only i first there).mpr (inside first leftmost)
      exact absurd passes (by simp [none i low high])
  · have there := List.getElem?_eq_getElem (l := cs.table) (i := found) (by omega)
    rw [if_neg (by omega),there] at search
    generalize cs.table[found] = node at there search
    have satisfying := (satisfies_iff there).mp satisfied
    constructor
    · intro correct other leftmost
      rcases correct.result with ⟨miss,-⟩ | ⟨hit,reported,right⟩
      · rw [search] at miss
        cases miss
      · rw [if_neg selected] at right
        rw [search] at reported
        have same := node_of_stored formed satisfying.1 right.1.1 (Option.some.inj (Option.some.inj reported))
        rw [leftmost_unique leftmost right,← same]
        exact (only found node there).mp ⟨below,above⟩
    · intro inside
      obtain ⟨first,leftmost⟩ := exists_leftmost formed satisfying
      obtain ⟨i,here,passes⟩ := leftmost.1.at_index
      obtain ⟨low,-⟩ := (only i first here).mpr (inside first leftmost)
      have same : node = first := by
        refine (leftmost.2 node satisfying).resolve_right fun less => ?_
        rcases lt_trichotomy i found with lower | rfl | higher
        · exact absurd passes (by simp [earlier i low lower])
        · rw [here] at there
          cases there
          exact less_irrefl _ less
        · exact less_irrefl _ (less_trans less (less_of_lt formed there here higher))
      refine ⟨ends,fun impossible => absurd impossible selected,Or.inr ⟨node,search,?_⟩⟩
      rw [if_neg selected,same]
      exact leftmost

/-- For a leftmost search the condition is exact. -/
theorem searched_leftmost_iff (formed : cs.WellFormed) {getSuccessor : Name → Name}
    (selected : interest.selectors.childSelector ≠ some 1)
    (successor : interest.name ≠ [] → IsSuccessor interest.name (getSuccessor interest.name)) :
    cs.Searched getSuccessor interest ↔ cs.FullNameSafe interest ∧ cs.TypesAgree interest := by
  unfold TypesAgree FullNameSafe
  simp only [selected,if_false]
  cases full : endsInDigest interest.name with
  | false =>
    obtain ⟨ends,limit,under⟩ := range_under formed full successor
    rw [searched_range_iff formed selected ends limit under]
    simp only [under_plain full,Bool.false_eq_true,false_implies,true_and]
  | true =>
    obtain ⟨ends,limit,only⟩ := range_fullName formed full (successor (split_digest full).1)
    rw [searched_range_iff formed selected ends limit only]
    simp only [under_fullName,forall_const]
    constructor
    · intro inside
      refine ⟨?_,fun node leftmost => Or.inl (inside node leftmost)⟩
      by_cases some_ : ∃ node, cs.Satisfying interest node
      · obtain ⟨node,satisfying⟩ := some_
        obtain ⟨first,leftmost⟩ := exists_leftmost formed satisfying
        exact Or.inl ⟨first,leftmost.1,inside first leftmost⟩
      · exact Or.inr fun node satisfying => absurd ⟨node,satisfying⟩ some_
    · rintro ⟨safe,typed⟩ node leftmost
      refine (typed node leftmost).resolve_right fun under => ?_
      rcases safe with ⟨other,satisfying,named⟩ | free
      · have less : other.2.less node.2 = true := less_of_extends (named ▸ under)
        rcases leftmost.2 other satisfying with rfl | greater
        · exact less_irrefl _ less
        · exact less_irrefl _ (less_trans less greater)
      · exact free node leftmost.1 under

/-- A miss is right exactly when no Data with a longer name satisfy the Interest, if those of the full
name do not. -/
theorem none_satisfying_iff (typed : ∀ node, cs.Satisfying interest node → interest.name <+: node.2.data.fullName)
    (missing : ∀ node, cs.Satisfying interest node → node.2.data.fullName ≠ interest.name) :
    (∀ node, ¬ cs.Satisfying interest node) ↔
      ∀ node, cs.Satisfying interest node → ¬ interest.name <+: node.2.data.name := by
  constructor
  · exact fun none node satisfying => absurd satisfying (none node)
  · intro free node satisfying
    exact (under_fullName.mp (typed node satisfying)).elim (missing node satisfying) (free node satisfying)

private theorem searched_absent_iff (formed : cs.WellFormed)
    (typed : ∀ node, cs.Satisfying interest node → interest.name <+: node.2.data.fullName)
    {getSuccessor : Name → Name}
    (selected : interest.selectors.childSelector = some 1) (full : endsInDigest interest.name = true)
    (successor : IsSuccessor interest.name (getSuccessor interest.name))
    (absent : ∀ node ∈ cs.table, node.2.data.fullName ≠ interest.name) :
    cs.Searched getSuccessor interest ↔ cs.FullNameSafe interest := by
  obtain ⟨ends,limit,only⟩ := range_fullName formed full successor
  have empty : (cs.range getSuccessor interest.name).2 = (cs.range getSuccessor interest.name).1 := by
    by_contra differs
    have there := List.getElem?_eq_getElem (l := cs.table) (i := (cs.range getSuccessor interest.name).1) (by omega)
    have named := (only _ _ there).mp ⟨le_refl _,by omega⟩
    exact absent _ (List.mem_of_getElem? there) named
  have iterators : cs.rightmostIterators interest (cs.range getSuccessor interest.name).1 (cs.table.length + 1)
      (cs.range getSuccessor interest.name).2 = [] := by
    simp [rightmostIterators,empty]
  have searched : cs.findRightmost interest (cs.range getSuccessor interest.name).1 (cs.range getSuccessor interest.name).2
      (cs.table.length + 1) (cs.range getSuccessor interest.name).2 = some (cs.range getSuccessor interest.name).2 := by
    simp [findRightmost,empty]
  have miss := search_rightmost selected searched
  rw [if_pos rfl] at miss
  have missing : ∀ node, cs.Satisfying interest node → node.2.data.fullName ≠ interest.name :=
    fun node satisfying => absent node satisfying.1
  unfold FullNameSafe
  simp only [full,selected,if_true,forall_const]
  rw [← none_satisfying_iff typed missing]
  constructor
  · intro correct
    refine ⟨?_,fun stored => absurd stored.choose_spec.2 (absent _ stored.choose_spec.1)⟩
    rcases correct.result with ⟨-,nothing⟩ | ⟨node,hit,-⟩
    · exact nothing
    · rw [miss] at hit
      cases hit
  · rintro ⟨nothing,-⟩
    refine ⟨ends,?_,Or.inl ⟨miss,nothing⟩⟩
    rw [iterators]
    intro _ iterator member
    cases member

private theorem findRightmost_fullName (formed : cs.WellFormed) {first : Nat} {node : Nat × CsEntry}
    (there : cs.table[first]? = some node) (named : node.2.data.fullName = interest.name) (fuel : Nat) :
    cs.findRightmost interest first (first + 1) (fuel + 1) (first + 1) =
        (cs.findLeftmost interest (cs.lowerBound interest.name.dropLast) (first + 1)).bind (fun found =>
          if found = first + 1 then
            cs.findRightmost interest first (first + 1) fuel (cs.lowerBound interest.name.dropLast)
          else some found) ∧
      cs.rightmostIterators interest first (fuel + 1) (first + 1) =
        first :: cs.lowerBound interest.name.dropLast ::
          (if cs.findLeftmost interest (cs.lowerBound interest.name.dropLast) (first + 1) = some (first + 1) then
            cs.rightmostIterators interest first fuel (cs.lowerBound interest.name.dropLast)
          else []) ∧
      cs.lowerBound interest.name.dropLast ≤ first := by
  have parent : interest.name.dropLast = node.2.data.name := by
    rw [← named,Data.fullName,List.dropLast_concat]
  have longer : interest.name.length = node.2.data.name.length + 1 := by
    rw [← named,Data.fullName,List.length_append,List.length_singleton]
  have getPrefix : node.2.data.name.getPrefix (interest.name.length + 1) = interest.name.dropLast := by
    rw [parent,longer]
    exact List.take_of_length_le (by omega)
  have different : ¬ node.2.data.name.length = interest.name.length := by omega
  refine ⟨?_,?_,?_⟩
  · simp [findRightmost,there,different,getPrefix]
  · simp [rightmostIterators,there,different,getPrefix]
  · rw [← not_lt,lt_lowerBound_iff formed]
    simp only [there,Option.some.injEq,exists_eq_left',parent]
    exact not_before_parent

private theorem search_fullName (formed : cs.WellFormed) {getSuccessor : Name → Name}
    (selected : interest.selectors.childSelector = some 1) {place : Nat} {node : Nat × CsEntry}
    (there : cs.table[place]? = some node) (named : node.2.data.fullName = interest.name)
    (left : (cs.range getSuccessor interest.name).1 = place) (right : (cs.range getSuccessor interest.name).2 = place + 1)
    (lowered : cs.lowerBound interest.name.dropLast = place) :
    cs.search getSuccessor interest = (if cs.satisfies interest place then some (some node.1) else some none) ∧
      ∀ iterator ∈ cs.rightmostIterators interest place (cs.table.length + 1) (place + 1), iterator = place := by
  obtain ⟨round,iterators,-⟩ := findRightmost_fullName formed there named cs.table.length
  obtain ⟨found,searched,outcome⟩ := findLeftmost_spec cs interest (Nat.le_succ place)
  have positive : cs.table.length ≠ 0 := Nat.ne_zero_of_lt (List.getElem?_eq_some_iff.mp there).1
  obtain ⟨fuel,enough⟩ := Nat.exists_eq_succ_of_ne_zero positive
  have stop : cs.findRightmost interest place (place + 1) cs.table.length place = some (place + 1) ∧
      cs.rightmostIterators interest place cs.table.length place = [] := by
    rw [enough]
    simp [findRightmost,rightmostIterators]
  rw [lowered,searched,Option.bind_some] at round
  rw [lowered,searched] at iterators
  rcases outcome with ⟨rfl,none⟩ | ⟨below,above,passes,-⟩
  · rw [if_pos rfl,stop.1] at round
    rw [if_pos rfl,stop.2] at iterators
    have missed : cs.search getSuccessor interest = _ := search_rightmost selected (by rw [left,right]; exact round)
    rw [right,if_pos rfl] at missed
    rw [if_neg (by simp [none place (le_refl _) (Nat.lt_succ_self _)])]
    refine ⟨missed,?_⟩
    intro iterator member
    rw [iterators] at member
    simpa using member
  · have same : found = place := by omega
    subst same
    rw [if_neg (by omega)] at round
    rw [if_neg (by simp)] at iterators
    have hit : cs.search getSuccessor interest = _ := search_rightmost selected (by rw [left,right]; exact round)
    rw [right,if_neg (by omega),there] at hit
    rw [if_pos passes]
    refine ⟨hit,?_⟩
    intro iterator member
    rw [iterators] at member
    simpa using member

/-- The entry of a full name is alone in the range. -/
private theorem range_present (formed : cs.WellFormed) {getSuccessor : Name → Name} {name : Name}
    (full : endsInDigest name = true) (successor : IsSuccessor name (getSuccessor name)) {place : Nat}
    {node : Nat × CsEntry} (there : cs.table[place]? = some node) (named : node.2.data.fullName = name) :
    (cs.range getSuccessor name).1 = place ∧ (cs.range getSuccessor name).2 = place + 1 := by
  obtain ⟨-,limit,only⟩ := range_fullName formed full successor
  obtain ⟨low,high⟩ := (only place node there).mpr named
  have alone : ∀ i, (cs.range getSuccessor name).1 ≤ i → i < (cs.range getSuccessor name).2 → i = place := by
    intro i above below
    have here := List.getElem?_eq_getElem (l := cs.table) (i := i) (by omega)
    exact fullName_injective formed here there (((only i _ here).mp ⟨above,below⟩).trans named.symm)
  have last := alone ((cs.range getSuccessor name).2 - 1) (by omega) (by omega)
  exact ⟨alone _ (le_refl _) (by omega),by omega⟩

private theorem searched_present_iff (formed : cs.WellFormed)
    (typed : ∀ node, cs.Satisfying interest node → interest.name <+: node.2.data.fullName)
    {getSuccessor : Name → Name}
    (selected : interest.selectors.childSelector = some 1) (full : endsInDigest interest.name = true)
    (successor : IsSuccessor interest.name (getSuccessor interest.name)) {node : Nat × CsEntry} (stored : node ∈ cs.table)
    (named : node.2.data.fullName = interest.name) :
    cs.Searched getSuccessor interest ↔ cs.FullNameSafe interest := by
  obtain ⟨place,there⟩ := List.mem_iff_getElem?.mp stored
  obtain ⟨left,right⟩ := range_present formed full successor there named
  have ends : (cs.range getSuccessor interest.name).1 ≤ (cs.range getSuccessor interest.name).2 := by omega
  have first : cs.lowerBound interest.name = place := left
  obtain ⟨-,iterators,notAbove⟩ := findRightmost_fullName formed there named cs.table.length
  -- the iterators stay in the range exactly when nothing is stored between the two names
  have inside := lowerBound_eq_iff formed (first.symm ▸ notAbove)
  rw [first] at inside
  have others : ∀ other, cs.Satisfying interest other → ¬ interest.name <+: other.2.data.name → other = node := by
    intro other fits apart
    obtain ⟨i,here,-⟩ := fits.at_index
    have same := (under_fullName.mp (typed other fits)).resolve_right apart
    have equal := fullName_injective formed here there (same.trans named.symm)
    subst equal
    rw [here] at there
    exact Option.some.inj there
  have childless : child interest.name.length node.2.data.toData = none := by
    rw [child,← named]
    exact List.getElem?_eq_none (le_refl _)
  have satisfied : cs.satisfies interest place = true ↔ cs.Satisfying interest node := satisfies_iff there
  have settled := search_fullName formed selected there named left right
  unfold FullNameSafe
  simp only [full,selected,if_true,forall_const]
  constructor
  · intro correct
    have lowered : cs.lowerBound interest.name.dropLast = place := by
      have bounds := correct.iterators selected (cs.lowerBound interest.name.dropLast)
      rw [left,right,iterators] at bounds
      exact le_antisymm notAbove (bounds (by simp)).1
    obtain ⟨search,-⟩ := settled lowered
    refine ⟨?_,fun _ => inside.mp lowered⟩
    rcases correct.result with ⟨miss,nothing⟩ | ⟨other,hit,rightmost⟩
    · exact fun other fits => absurd fits (nothing other)
    · rw [if_pos selected] at rightmost
      have passes : cs.satisfies interest place = true := by
        by_contra fails
        rw [if_neg fails] at search
        rw [search] at hit
        cases hit
      rw [search,if_pos passes] at hit
      have equal := node_of_stored formed stored rightmost.1.1 (Option.some.inj (Option.some.inj hit))
      subst equal
      intro longer fits extends_
      have greatest := (rightmost.2 longer fits).1
      obtain ⟨rest,extended⟩ := extends_
      have present : ∃ component, child interest.name.length longer.2.data.toData = some component := by
        rw [← Option.isSome_iff_exists,child,Data.fullName,← extended]
        simp
      obtain ⟨component,some_⟩ := present
      rw [childless,some_] at greatest
      cases greatest
  · rintro ⟨free,between⟩
    have lowered := inside.mpr (between ⟨node,stored,named⟩)
    obtain ⟨search,stays⟩ := settled lowered
    refine ⟨ends,?_,?_⟩
    · intro _ iterator member
      rw [left,right] at member ⊢
      have same := stays iterator member
      omega
    · by_cases passes : cs.satisfies interest place = true
      · rw [if_pos passes] at search
        refine Or.inr ⟨node,search,?_⟩
        rw [if_pos selected]
        refine ⟨satisfied.mp passes,?_⟩
        intro other fits
        rw [others other fits (free other fits)]
        dsimp only
        rw [childless]
        exact ⟨rfl,fun _ => Or.inl rfl⟩
      · rw [if_neg passes] at search
        refine Or.inl ⟨search,?_⟩
        intro other fits
        rw [others other fits (free other fits),← satisfied] at fits
        exact passes fits

/-- A rightmost search with a full name. -/
theorem searched_fullName_iff (formed : cs.WellFormed)
    (typed : ∀ node, cs.Satisfying interest node → interest.name <+: node.2.data.fullName)
    {getSuccessor : Name → Name} (selected : interest.selectors.childSelector = some 1)
    (full : endsInDigest interest.name = true) (successor : IsSuccessor interest.name (getSuccessor interest.name)) :
    cs.Searched getSuccessor interest ↔ cs.FullNameSafe interest := by
  by_cases stored : ∃ node ∈ cs.table, node.2.data.fullName = interest.name
  · obtain ⟨node,member,named⟩ := stored
    exact searched_present_iff formed typed selected full successor member named
  · refine searched_absent_iff formed typed selected full successor ?_
    intro node member named
    exact stored ⟨node,member,named⟩

/-- A rightmost search with a name that is no full name. -/
theorem searched_rightmost (formed : cs.WellFormed)
    (typed : ∀ node, cs.Satisfying interest node → interest.name <+: node.2.data.fullName)
    {getSuccessor : Name → Name} (selected : interest.selectors.childSelector = some 1)
    (plain : endsInDigest interest.name = false)
    (successor : interest.name ≠ [] → IsSuccessor interest.name (getSuccessor interest.name))
    (children : cs.PlainChildren interest) : cs.Searched getSuccessor interest := by
  obtain ⟨ends,limit,under⟩ := range_under formed plain successor
  obtain ⟨iterators,found,searched,outcome⟩ := findRightmost_spec formed selected plain typed children under limit
    (cs.table.length + 1) (cs.range getSuccessor interest.name).2 ends (le_refl _) (by omega)
    (fun i above below => absurd below (not_lt.mpr above))
  have search := search_rightmost selected searched
  refine ⟨ends,fun _ => iterators,?_⟩
  rcases outcome with ⟨rfl,none⟩ | ⟨node,apart,there,rightmost⟩
  · rw [if_pos rfl] at search
    refine Or.inl ⟨search,?_⟩
    intro node satisfying
    obtain ⟨i,there,passes⟩ := satisfying.at_index
    obtain ⟨low,high⟩ := (under i node there).mpr ((under_plain plain).mp (typed node satisfying))
    exact absurd passes (by simp [none i low high])
  · rw [if_neg apart,there] at search
    refine Or.inr ⟨node,search,?_⟩
    rw [if_pos selected]
    exact rightmost

/-- A leftmost search finds what it is to find exactly under the conditions. So does a rightmost search with a
full name where what is to be found has the types of the Interest's components, and one with another name
where it meets no name that it takes for a full name by mistake. -/
theorem finds_of_plain (cs : Cs σ) (formed : cs.WellFormed) (getSuccessor : Name → Name) (interest : Interest)
    (successor : interest.name ≠ [] → IsSuccessor interest.name (getSuccessor interest.name)) :
    (interest.selectors.childSelector ≠ some 1 →
      (cs.Searched getSuccessor interest ↔ cs.FullNameSafe interest ∧ cs.TypesAgree interest)) ∧
    (cs.TypesAgree interest →
      (cs.PlainChildren interest → cs.FullNameSafe interest → cs.Searched getSuccessor interest) ∧
      (cs.Searched getSuccessor interest → cs.FullNameSafe interest)) := by
  by_cases selected : interest.selectors.childSelector = some 1
  · refine ⟨fun leftmost => absurd selected leftmost,fun agree => ?_⟩
    unfold TypesAgree at agree
    simp only [selected,if_true] at agree
    cases full : endsInDigest interest.name with
    | true =>
      have exact := searched_fullName_iff formed agree selected full (successor (split_digest full).1)
      exact ⟨fun _ => exact.mpr,exact.mp⟩
    | false =>
      refine ⟨fun children _ => searched_rightmost formed agree selected full successor children,fun _ impossible => ?_⟩
      rw [full] at impossible
      cases impossible
  · have exact := searched_leftmost_iff formed selected successor
    exact ⟨fun _ => exact,fun agree => ⟨fun _ safe => exact.mpr ⟨safe,agree⟩,fun searched => (exact.mp searched).1⟩⟩

end

def successorOf (name : Name) : Name :=
  name.dropLast ++ [(name.getLastD []).dropLast ++ [(name.getLastD []).getLastD 0 + 1]]

def digestOf (octet : UInt8) : Digest := ⟨List.replicate 32 octet,by simp⟩

/-- Two Data named `/A`, stale from time zero on, at a later time. -/
def twins : Cs Unit where
  table := [(0,⟨⟨⟨[[8,1,0x41]],digestOf 1,none⟩,0,none⟩,false,some 0⟩),
    (1,⟨⟨⟨[[8,1,0x41]],digestOf 2,none⟩,0,none⟩,false,some 0⟩)]
  nextEntry := 2
  limit := 10
  scheduler := .initial 1 0
  policy := ()

private theorem twins_wellFormed : twins.WellFormed := by
  refine ⟨by decide,by decide +kernel,?_⟩
  intro node member component inside
  have names : ∀ node ∈ twins.table, node.2.data.name = [[8,1,0x41]] := by decide
  rw [names node member,List.mem_singleton] at inside
  rw [inside]
  exact Or.inl rfl

private theorem isSuccessor_sample : IsSuccessor [[8,1,0x41]] (successorOf [[8,1,0x41]]) := by
  refine ⟨?_,by decide,by decide⟩
  intro other
  have less : ∀ component : Component, componentLess component [8,1,0x42] = true ↔
      componentLess component [8,1,0x41] = true ∨ component = [8,1,0x41] := by
    intro component
    rcases component with _ | ⟨a,_ | ⟨b,_ | ⟨c,_ | ⟨d,rest⟩⟩⟩⟩
    all_goals simp [componentLess_iff,componentKey,List.cons_lt_cons_iff,← UInt8.toNat_inj]
    all_goals omega
  cases other with
  | nil => exact iff_of_true (by decide) (Or.inl (by decide))
  | cons component rest =>
    have later : nameLess (component :: rest) [[8,1,0x42]] = true ↔ componentLess component [8,1,0x42] = true :=
      nameLess_append_iff [] component rest [8,1,0x42]
    have here : nameLess (component :: rest) [[8,1,0x41]] = true ↔ componentLess component [8,1,0x41] = true :=
      nameLess_append_iff [] component rest [8,1,0x41]
    rw [here,List.cons_prefix_cons]
    refine (later.trans (less component)).trans (or_congr_right ?_)
    exact ⟨fun same => ⟨same.symm,List.nil_prefix⟩,fun both => both.1.symm⟩

/-- A rightmost search for `/A`. -/
theorem finds_twin : twins.WellFormed ∧
    twins.Searched successorOf ⟨[[8,1,0x41]],{ Selectors.none with childSelector := some 1 },0,0⟩ := by
  have plain : twins.PlainChildren ⟨[[8,1,0x41]],{ Selectors.none with childSelector := some 1 },0,0⟩ := by
    intro _ _
    left
    intro node member component inside
    have names : ∀ node ∈ twins.table, node.2.data.name = [[8,1,0x41]] := by decide
    rw [names node member] at inside
    exact absurd inside.length_le (by simp)
  refine ⟨twins_wellFormed,?_⟩
  have agree : twins.TypesAgree ⟨[[8,1,0x41]],{ Selectors.none with childSelector := some 1 },0,0⟩ := by
    intro node satisfying
    have names : ∀ node ∈ twins.table, [[8,1,0x41]] <+: node.2.data.fullName := by decide
    exact names node satisfying.1
  exact ((finds_of_plain twins twins_wellFormed successorOf _ (fun _ => isSuccessor_sample)).2 agree).1 plain
    fun full => by cases full

/-- A rightmost search for the full name of stale Data, with fresh Data asked for and a smaller
digest of the same name stored, runs out of the table. -/
theorem staleTwin_not_searched : twins.WellFormed ∧ ¬ twins.Searched successorOf
    ⟨[[8,1,0x41],digestComponent (digestOf 2)],{ Selectors.none with childSelector := some 1, mustBeFresh := true },0,0⟩ := by
  refine ⟨twins_wellFormed,?_⟩
  intro searched
  have lost : twins.search successorOf ⟨[[8,1,0x41],digestComponent (digestOf 2)],
      { Selectors.none with childSelector := some 1, mustBeFresh := true },0,0⟩ = none := by decide +kernel
  rcases searched.result with ⟨miss,-⟩ | ⟨node,hit,-⟩
  · rw [lost] at miss
    cases miss
  · rw [lost] at hit
    cases hit

end Cs

end Ncfcc.Nfd.Table
