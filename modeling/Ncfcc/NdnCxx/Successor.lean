import Ncfcc.Library.OrderedSearch
import Ncfcc.NdnCxx.Component

/-! Successors of components and names. The names from a name up to its successor are the
names under it, so that they are found as one range of an ordered table. -/
namespace Ncfcc.NdnCxx
open Ncfcc.Library

/-- The loop from the last octet on: the octets advanced, and whether it ran over the first one. -/
def advance (value : List UInt8) : List UInt8 × Bool :=
  value.foldr (fun octet result => if result.2 then ((octet + 1) :: result.1,octet + 1 == 0) else (octet :: result.1,false))
    ([],true)

def Component.getSuccessor (component : Component) : Except String Component :=
  let (octets,isOverflow) := advance component.value
  Component.ofBlock component.type (octets ++ if isOverflow then [0] else [])

/-- `Name::getSuccessor`; the prefix without the last component, and that one advanced. -/
def Name.getSuccessor (name : List Component) : Except String (List Component) :=
  match name.getLast? with
  | none => .ok [.generic [0]]
  | some last => (last.getSuccessor).map fun successor => name.dropLast ++ [successor]

/-! Octets of one length, in their order. -/

abbrev octetKey (value : List UInt8) : List Nat := value.map UInt8.toNat

theorem advance_cons (octet : UInt8) (rest : List UInt8) : advance (octet :: rest) =
    if (advance rest).2 then ((octet + 1) :: (advance rest).1,octet + 1 == 0) else (octet :: (advance rest).1,false) := rfl

theorem advance_length (value : List UInt8) : (advance value).1.length = value.length := by
  induction value with
  | nil => rfl
  | cons octet rest ih =>
    rw [advance_cons]
    split <;> simp [ih]

/-- All octets were 0xFF, and they have become zeros. -/
theorem advance_overflow {value : List UInt8} (overflow : (advance value).2 = true) :
    (advance value).1 = List.replicate value.length 0 ∧ value = List.replicate value.length 0xFF := by
  induction value with
  | nil => exact ⟨rfl,rfl⟩
  | cons octet rest ih =>
    rw [advance_cons] at overflow ⊢
    split at overflow
    · rename_i carried
      obtain ⟨zeros,full⟩ := ih carried
      have last : octet + 1 = 0 := beq_iff_eq.mp overflow
      have here : octet = 0xFF := by
        have whole : octet + 1 - 1 = 0 - 1 := congrArg (· - 1) last
        rwa [UInt8.add_sub_cancel] at whole
      rw [if_pos carried,last,zeros,here]
      refine ⟨rfl,?_⟩
      rw [List.length_cons,List.replicate_succ,← full]
    · cases overflow

private theorem advance_full (count : Nat) : (advance (List.replicate count 0xFF)).2 = true := by
  induction count with
  | zero => rfl
  | succ count ih =>
    rw [List.replicate_succ,advance_cons,if_pos ih]
    rfl

private theorem zeros_le {other : List UInt8} : ¬ octetKey other < octetKey (List.replicate other.length 0) := by
  induction other with
  | nil => exact List.not_lt_nil _
  | cons octet rest ih =>
    rw [List.length_cons,List.replicate_succ,octetKey,octetKey,List.map_cons,List.map_cons,List.cons_lt_cons_iff]
    rintro (less | ⟨-,less⟩)
    · exact absurd less (Nat.not_lt_zero _)
    · exact ih less

private theorem full_not_lt {other : List UInt8} : ¬ octetKey (List.replicate other.length 0xFF) < octetKey other := by
  induction other with
  | nil => exact List.not_lt_nil _
  | cons octet rest ih =>
    rw [List.length_cons,List.replicate_succ,octetKey,octetKey,List.map_cons,List.map_cons,List.cons_lt_cons_iff]
    rintro (less | ⟨-,less⟩)
    · have bound := octet.toNat_lt
      change 255 < octet.toNat at less
      omega
    · exact ih less

/-- Nothing of the same length lies between octets and the advanced ones. -/
theorem advance_next {value other : List UInt8} (length : other.length = value.length)
    (room : (advance value).2 = false) : octetKey other < octetKey (advance value).1 ↔ ¬ octetKey value < octetKey other := by
  induction value generalizing other with
  | nil => cases room
  | cons octet rest ih =>
    cases other with
    | nil => cases length
    | cons first others =>
      have same : others.length = rest.length := Nat.succ.inj length
      rw [advance_cons] at room ⊢
      cases carried : (advance rest).2 with
      | true =>
        obtain ⟨zeros,full⟩ := advance_overflow carried
        have up : (octet + 1).toNat = octet.toNat + 1 := by
          rw [carried,if_pos rfl] at room
          have nonzero : octet + 1 ≠ 0 := by simpa using room
          have small : octet.toNat ≠ 255 := by
            intro last
            obtain rfl : octet = 255 := UInt8.toNat_inj.mp last
            exact nonzero rfl
          have bound := octet.toNat_lt
          have one : (1 : UInt8).toNat = 1 := rfl
          rw [UInt8.toNat_add,one]
          omega
        have below : ¬ octetKey others < octetKey (advance rest).1 := by
          rw [zeros,← same]
          exact zeros_le
        have above : ¬ octetKey rest < octetKey others := by
          rw [full,← same]
          exact full_not_lt
        simp only [if_true,octetKey,List.map_cons,List.cons_lt_cons_iff,up] at below above ⊢
        simp only [below,above,and_false,or_false]
        omega
      | false =>
        have next := ih same carried
        simp only [Bool.false_eq_true,if_false,octetKey,List.map_cons,List.cons_lt_cons_iff] at next ⊢
        rw [next]
        rcases lt_trichotomy first.toNat octet.toNat with less | equal | more
        · simp [less,not_lt.mpr less.le,less.ne']
        · simp [equal]
        · simp [more,not_lt.mpr more.le,more.ne']

namespace Component
variable {component successor other : Component}

theorem getSuccessor_eq_ok : component.getSuccessor = .ok successor ↔ successor.type = component.type ∧
    successor.value = (advance component.value).1 ++ if (advance component.value).2 then [0] else [] :=
  ofBlock_eq_ok

/-- It throws only for the digest of all ones, which would become too long. -/
theorem getSuccessor_error_iff : (∀ successor, component.getSuccessor ≠ .ok successor) ↔
    component.type = Tlv.ImplicitSha256DigestComponent ∧ component.value = List.replicate 32 0xFF := by
  have digest_of : component.type ≠ Tlv.NameComponent → component.value.length = 32 ∧
      component.type = Tlv.ImplicitSha256DigestComponent := by
    intro other
    obtain ⟨type,size⟩ := component.formed.resolve_left other
    exact ⟨size,type⟩
  constructor
  · intro throws
    have unformed : ¬ (component.type = Tlv.NameComponent ∨ component.type = Tlv.ImplicitSha256DigestComponent ∧
        ((advance component.value).1 ++ if (advance component.value).2 then [0] else []).length = 32) := fun formed =>
      throws ⟨component.type,_,formed⟩ (getSuccessor_eq_ok.mpr ⟨rfl,rfl⟩)
    rw [not_or,not_and] at unformed
    obtain ⟨size,type⟩ := digest_of unformed.1
    have longer := unformed.2 type
    rw [List.length_append,advance_length,size] at longer
    have overflow : (advance component.value).2 = true := by
      by_contra room
      rw [if_neg room] at longer
      exact longer rfl
    exact ⟨type,size ▸ (advance_overflow overflow).2⟩
  · rintro ⟨type,full⟩ successor advanced
    obtain ⟨kept,value⟩ := getSuccessor_eq_ok.mp advanced
    have overflow : (advance component.value).2 = true := full ▸ advance_full 32
    have size := congrArg List.length value
    rw [overflow,if_pos rfl,List.length_append,advance_length,full,List.length_replicate] at size
    rw [type] at kept
    rcases successor.formed with generic | ⟨-,short⟩
    · rw [kept] at generic
      exact absurd generic (by decide)
    · rw [short] at size
      exact absurd size (by decide)

private theorem lt_iff_of_type (same : component.type = other.type) : component < other ↔
    component.value.length < other.value.length ∨
      component.value.length = other.value.length ∧ octetKey component.value < octetKey other.value := by
  rw [lt_iff,key,key,List.cons_lt_cons_iff,List.cons_lt_cons_iff]
  simp [same]

/-- What comes before the successor does not come after the component. -/
theorem lt_getSuccessor_iff (advanced : component.getSuccessor = .ok successor) : other < successor ↔ other ≤ component := by
  obtain ⟨type,value⟩ := getSuccessor_eq_ok.mp advanced
  rw [← not_lt]
  rcases lt_trichotomy other.type component.type with less | same | more
  · have before : other < successor := lt_iff.mpr (List.cons_lt_cons_iff.mpr (Or.inl (type.symm ▸ less)))
    have whole : other < component := lt_iff.mpr (List.cons_lt_cons_iff.mpr (Or.inl less))
    exact iff_of_true before whole.asymm
  · rw [lt_iff_of_type (same.trans type.symm),lt_iff_of_type same.symm,value]
    have length := advance_length component.value
    cases overflow : (advance component.value).2 with
    | true =>
      obtain ⟨zeros,full⟩ := advance_overflow overflow
      have longer : (advance component.value).1 ++ [0] = List.replicate (component.value.length + 1) 0 := by
        rw [zeros,List.replicate_succ']
      have low : other.value.length = component.value.length + 1 →
          ¬ octetKey other.value < octetKey (List.replicate (component.value.length + 1) 0) := by
        intro size
        rw [← size]
        exact zeros_le
      have high : component.value.length = other.value.length → ¬ octetKey component.value < octetKey other.value := by
        intro size
        rw [full,size]
        exact full_not_lt
      simp only [if_true,longer,List.length_replicate]
      by_cases size : other.value.length ≤ component.value.length
      · refine iff_of_true (Or.inl (by omega)) ?_
        rintro (shorter | ⟨equal,above⟩)
        · omega
        · exact high equal above
      · refine iff_of_false ?_ (not_not.mpr (Or.inl (by omega)))
        rintro (shorter | ⟨equal,below⟩)
        · omega
        · exact low equal below
    | false =>
      simp only [Bool.false_eq_true,if_false,List.append_nil,length]
      rcases lt_trichotomy other.value.length component.value.length with shorter | equal | longer
      · exact iff_of_true (Or.inl shorter) (by omega)
      · rw [advance_next equal overflow]
        simp [equal]
      · exact iff_of_false (by omega) (not_not.mpr (Or.inl longer))
  · have after : successor < other := lt_iff.mpr (List.cons_lt_cons_iff.mpr (Or.inl (type.symm ▸ more)))
    have whole : component < other := lt_iff.mpr (List.cons_lt_cons_iff.mpr (Or.inl more))
    exact iff_of_false after.asymm (not_not.mpr whole)

end Component

namespace Name

private theorem under_iff_between {name successor : List Component} (nonempty : name ≠ [])
    (advanced : getSuccessor name = .ok successor) (other : List Component) :
    (¬ other < name ∧ other < successor) ↔ name <+: other := by
  have last := List.getLast?_eq_some_getLast nonempty
  unfold getSuccessor at advanced
  rw [last] at advanced
  dsimp only at advanced
  cases next : (name.getLast nonempty).getSuccessor with
  | error message =>
    rw [next] at advanced
    cases advanced
  | ok component =>
    rw [next] at advanced
    cases advanced
    have between := between_iff Function.injective_id (fun other => Component.lt_getSuccessor_iff next) name.dropLast other
    rwa [List.map_id,List.map_id,List.map_id,List.dropLast_append_getLast] at between

/-- What an ordered table has from a name up to its successor are the names under the name. -/
theorem range_getSuccessor {table : List (List Component)} (ordered : table.Pairwise (· < ·)) {name successor : List Component}
    (nonempty : name ≠ []) (advanced : getSuccessor name = .ok successor) :
    (table.dropWhile fun other => decide (other < name)).takeWhile (fun other => decide (other < successor)) =
      table.filter fun other => name.isPrefixOf other := by
  have below : ∀ bound first second : List Component, first < second → decide (second < bound) = true →
      decide (first < bound) = true :=
    fun _ _ _ less passing => decide_eq_true (less.trans (of_decide_eq_true passing))
  have behind := (split_eq_filter ordered (below name)).2
  have rest : (table.dropWhile fun other => decide (other < name)).Pairwise (· < ·) :=
    ordered.sublist (List.dropWhile_sublist _)
  rw [(split_eq_filter rest (below successor)).1,behind,List.filter_filter]
  refine List.filter_congr fun other _ => ?_
  rw [Bool.eq_iff_iff,Bool.and_eq_true,Bool.not_eq_true',decide_eq_true_iff,decide_eq_false_iff_not,and_comm,
    under_iff_between nonempty advanced,List.isPrefixOf_iff_prefix]

/-- `/%FF` and `/%FF/%01` come before `/%00%00`. -/
theorem range_getSuccessor_full :
    let table : List (List Component) := [[.generic [255]],[.generic [255],.generic [1]],[.generic [0,0]]]
    (table.dropWhile fun other => decide (other < [.generic [255]])).takeWhile
        (fun other => decide (other < [.generic [0,0]])) =
      table.filter fun other => List.isPrefixOf [Component.generic [255]] other :=
  range_getSuccessor (by decide) (List.cons_ne_nil _ _) rfl

end Name

end Ncfcc.NdnCxx
