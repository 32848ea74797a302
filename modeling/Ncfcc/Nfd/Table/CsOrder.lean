import Ncfcc.Library.OrderedSearch
import Ncfcc.Nfd.Table.Cs

/-! The order of the content store: names by their components, entries by their names and then
by their digests. A query that ends in an implicit digest is compared as a full name. -/
namespace Ncfcc.Nfd.Table
open Ncfcc.Library

/-! The order of components and of names. -/

theorem componentKey_injective : Function.Injective componentKey := by
  intro first second same
  simp only [componentKey,List.cons.injEq] at same
  have octets : Function.Injective UInt8.toNat := fun _ _ => UInt8.toNat.inj
  exact octets.list_map same.2.2

theorem componentLess_iff {first second : Component} :
    componentLess first second = true ↔ componentKey first < componentKey second := decide_eq_true_iff

theorem nameLess_iff {first second : Name} :
    nameLess first second = true ↔ first.map componentKey < second.map componentKey := decide_eq_true_iff

private theorem compareComponents_gt {first second : Component} :
    compareComponents first second = .gt ↔ componentLess second first = true := by
  unfold compareComponents
  split
  · rename_i less
    refine iff_of_false (by simp) fun greater => ?_
    exact lt_asymm (componentLess_iff.mp less) (componentLess_iff.mp greater)
  · split
    · rename_i greater
      exact iff_of_true rfl greater
    · rename_i greater
      exact iff_of_false (by simp) greater

private theorem compareComponents_lt {first second : Component} :
    compareComponents first second = .lt ↔ componentLess first second = true := by
  unfold compareComponents
  split
  · rename_i less
    exact iff_of_true rfl less
  · rename_i less
    refine iff_of_false ?_ less
    split <;> simp

theorem compareNames_cases (first second : Name) :
    (compareNames first second = .lt ∧ nameLess first second = true) ∨
    (compareNames first second = .gt ∧ nameLess second first = true) ∨
    (compareNames first second = .eq ∧ first = second) := by
  unfold compareNames
  split
  · rename_i less
    exact Or.inl ⟨rfl,less⟩
  · rename_i notLess
    split
    · rename_i greater
      exact Or.inr (Or.inl ⟨rfl,greater⟩)
    · rename_i notGreater
      refine Or.inr (Or.inr ⟨rfl,componentKey_injective.list_map ?_⟩)
      rw [nameLess_iff] at notLess notGreater
      exact le_antisymm (not_lt.mp notGreater) (not_lt.mp notLess)

theorem nameLess_irrefl (name : Name) : ¬ nameLess name name = true := by
  rw [nameLess_iff]
  exact lt_irrefl _

theorem nameLess_trans {first second third : Name} (left : nameLess first second = true)
    (right : nameLess second third = true) : nameLess first third = true := by
  rw [nameLess_iff] at left right ⊢
  exact left.trans right

theorem nameLess_asymm {first second : Name} (less : nameLess first second = true) : ¬ nameLess second first = true :=
  fun greater => nameLess_irrefl first (nameLess_trans less greater)

theorem not_nameLess_under {front name : Name} (inside : front <+: name) : ¬ nameLess name front = true := by
  rw [nameLess_iff]
  exact not_lt_of_front (inside.map componentKey)

/-- Names between a name and one it is a prefix of are under it too. -/
theorem prefix_of_names_between {front long middle : Name} (inside : front <+: long)
    (above : ¬ nameLess middle front = true) (below : ¬ nameLess long middle = true) : front <+: middle := by
  rw [nameLess_iff] at above below
  rw [← prefix_map_iff componentKey_injective]
  exact prefix_of_between (inside.map componentKey) above below

theorem nameLess_of_proper {front name : Name} (inside : front <+: name) (longer : front ≠ name) :
    nameLess front name = true := by
  rcases compareNames_cases front name with ⟨-,less⟩ | ⟨-,greater⟩ | ⟨-,same⟩
  · exact less
  · exact absurd greater (not_nameLess_under inside)
  · exact absurd same longer

theorem componentLess_asymm {first second : Component} (less : componentLess first second = true) :
    componentLess second first = false := by
  rw [Bool.eq_false_iff,ne_eq,componentLess_iff]
  exact lt_asymm (componentLess_iff.mp less)

theorem componentLess_irrefl (component : Component) : componentLess component component = false := by
  rw [Bool.eq_false_iff,ne_eq,componentLess_iff]
  exact lt_irrefl _

theorem nameLess_append_iff (front : Name) (first : Component) (rest : Name) (second : Component) :
    nameLess (front ++ first :: rest) (front ++ [second]) = true ↔ componentLess first second = true := by
  rw [nameLess_iff,componentLess_iff]
  induction front with
  | nil =>
    rw [List.nil_append,List.nil_append,List.map_cons,List.map_cons,List.cons_lt_cons_iff]
    exact or_iff_left fun equal => List.not_lt_nil _ equal.2
  | cons head front ih =>
    rw [List.cons_append,List.cons_append,List.map_cons,List.map_cons,List.cons_lt_cons_self]
    exact ih

theorem nameLess_of_component (front : Name) {first second : Component} (rest others : Name)
    (less : componentLess first second = true) : nameLess (front ++ first :: rest) (front ++ second :: others) = true := by
  refine nameLess_iff.mpr ?_
  rw [List.map_append,List.map_append]
  exact List.append_left_lt (List.cons_lt_cons_iff.mpr (Or.inl (componentLess_iff.mp less)))

/-! The order of entries and of queries. -/

theorem isImplicitSha256Digest_digestComponent (digest : Digest) :
    isImplicitSha256Digest (digestComponent digest) = true := by
  simp [isImplicitSha256Digest,digestComponent,digest.property]

def endsInDigest (name : Name) : Bool := name.getLast?.any isImplicitSha256Digest

theorem endsInDigest_fullName (data : Data) : endsInDigest data.fullName = true := by
  simp [endsInDigest,Data.fullName,isImplicitSha256Digest_digestComponent]

/-- The Data are before the name in the table: by their name, or by their full name if the name
is one. -/
def Before (name : Name) (data : Data) : Prop :=
  if endsInDigest name then nameLess data.name name.dropLast = true ∨
    data.name = name.dropLast ∧ componentLess (digestComponent data.digest) (name.getLastD []) = true
  else nameLess data.name name = true

theorem before_iff {name : Name} {data : Data} : (compareQueryWithData name data == .gt) = true ↔ Before name data := by
  rw [beq_iff_eq]
  unfold compareQueryWithData Before
  cases full : name.getLast?.any isImplicitSha256Digest with
  | true =>
    simp only [endsInDigest,full,if_true]
    rcases compareNames_cases name.dropLast data.name with ⟨cmp,less⟩ | ⟨cmp,less⟩ | ⟨cmp,same⟩
    · rw [cmp]
      refine iff_of_false (by simp) ?_
      rintro (greater | ⟨same,-⟩)
      · exact nameLess_asymm less greater
      · rw [same] at less
        exact nameLess_irrefl _ less
    · rw [cmp]
      exact iff_of_true (by simp) (Or.inl less)
    · rw [cmp]
      simp only [ne_eq,not_true_eq_false,if_false,compareComponents_gt]
      constructor
      · exact fun less => Or.inr ⟨same.symm,less⟩
      · rintro (less | ⟨-,less⟩)
        · rw [same] at less
          exact absurd less (nameLess_irrefl _)
        · exact less
  | false =>
    simp only [endsInDigest,full,Bool.false_eq_true,if_false]
    rcases compareNames_cases name data.name with ⟨cmp,less⟩ | ⟨cmp,less⟩ | ⟨cmp,same⟩
    · rw [cmp]
      exact iff_of_false (by simp) (nameLess_asymm less)
    · rw [cmp]
      exact iff_of_true (by simp) less
    · rw [cmp,same]
      exact iff_of_false (by simp) (nameLess_irrefl _)

theorem less_iff {first second : CsEntry} : first.less second = true ↔
    nameLess first.data.name second.data.name = true ∨ first.data.name = second.data.name ∧
      componentLess (digestComponent first.data.digest) (digestComponent second.data.digest) = true := by
  unfold CsEntry.less compareDataWithData
  rw [beq_iff_eq]
  rcases compareNames_cases first.data.name second.data.name with ⟨cmp,less⟩ | ⟨cmp,less⟩ | ⟨cmp,same⟩
  · rw [cmp]
    exact iff_of_true (by simp) (Or.inl less)
  · rw [cmp]
    refine iff_of_false (by simp) ?_
    rintro (greater | ⟨same,-⟩)
    · exact nameLess_asymm less greater
    · rw [same] at less
      exact nameLess_irrefl _ less
  · rw [cmp]
    simp only [ne_eq,not_true_eq_false,if_false,compareComponents_lt]
    constructor
    · exact fun less => Or.inr ⟨same,less⟩
    · rintro (less | ⟨-,less⟩)
      · rw [same] at less
        exact absurd less (nameLess_irrefl _)
      · exact less

theorem before_of_less {name : Name} {first second : CsEntry} (less : first.less second = true)
    (before : Before name second.data.toData) : Before name first.data.toData := by
  unfold Before at before ⊢
  rw [less_iff] at less
  split at before
  · rename_i full
    rw [if_pos full]
    rcases less with smaller | ⟨same,digest⟩
    · rcases before with below | ⟨equal,-⟩
      · exact Or.inl (nameLess_trans smaller below)
      · exact Or.inl (equal ▸ smaller)
    · rcases before with below | ⟨equal,below⟩
      · exact Or.inl (same ▸ below)
      · refine Or.inr ⟨same.trans equal,?_⟩
        rw [componentLess_iff] at digest below ⊢
        exact digest.trans below
  · rename_i plain
    rw [if_neg plain]
    rcases less with smaller | ⟨same,-⟩
    · exact nameLess_trans smaller before
    · exact same ▸ before

theorem before_plain {name : Name} (plain : endsInDigest name = false) (data : Data) :
    Before name data ↔ nameLess data.name name = true := by
  unfold Before
  rw [plain]
  rfl

theorem split_digest {name : Name} (full : endsInDigest name = true) :
    name ≠ [] ∧ name.dropLast ++ [name.getLastD []] = name := by
  have nonempty : name ≠ [] := by
    rintro rfl
    cases full
  refine ⟨nonempty,?_⟩
  rw [List.getLastD_eq_getLast?,List.getLast?_eq_some_getLast nonempty,Option.getD_some]
  exact List.dropLast_append_getLast nonempty

theorem before_full {name : Name} (full : endsInDigest name = true) (data : Data) :
    Before name data ↔ nameLess data.name name.dropLast = true ∨
      data.name = name.dropLast ∧ componentLess (digestComponent data.digest) (name.getLastD []) = true := by
  unfold Before
  rw [if_pos full]

theorem fullName_eq_iff {name : Name} (full : endsInDigest name = true) (data : Data) :
    data.fullName = name ↔ data.name = name.dropLast ∧ digestComponent data.digest = name.getLastD [] := by
  have split := (split_digest full).2
  constructor
  · rintro rfl
    simp [Data.fullName]
  · rintro ⟨named,digest⟩
    rw [Data.fullName,named,digest,split]

theorem not_before_parent {data : Data} : ¬ Before data.name data := by
  unfold Before
  split
  · rename_i full
    have nonempty := (split_digest full).1
    rintro (less | ⟨same,-⟩)
    · exact not_nameLess_under (List.dropLast_prefix _) less
    · have short := congrArg List.length same
      have positive := List.length_pos_of_ne_nil nonempty
      rw [List.length_dropLast] at short
      omega
  · exact nameLess_irrefl _

/-- The entry of a full name comes before those whose names extend it. -/
theorem less_of_extends {first second : CsEntry} (extends_ : first.data.fullName <+: second.data.name) :
    first.less second = true := by
  refine less_iff.mpr (Or.inl (nameLess_of_proper ((List.prefix_append _ _).trans extends_) ?_))
  intro same
  have short := extends_.length_le
  rw [← same,Data.fullName,List.length_append,List.length_singleton] at short
  omega

theorem less_irrefl (entry : CsEntry) : ¬ entry.less entry = true := by
  rw [less_iff]
  rintro (less | ⟨-,less⟩)
  · exact nameLess_irrefl _ less
  · simp [componentLess_irrefl] at less

theorem less_trans {first second third : CsEntry} (left : first.less second = true) (right : second.less third = true) :
    first.less third = true := by
  rw [less_iff] at left right ⊢
  rcases left with below | ⟨named,digest⟩
  · rcases right with above | ⟨same,-⟩
    · exact Or.inl (nameLess_trans below above)
    · exact Or.inl (same ▸ below)
  · rcases right with above | ⟨same,further⟩
    · exact Or.inl (named ▸ above)
    · refine Or.inr ⟨named.trans same,?_⟩
      rw [componentLess_iff] at digest further ⊢
      exact digest.trans further

end Ncfcc.Nfd.Table
