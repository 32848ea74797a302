import Mathlib.Order.Lattice
import Mathlib.Data.List.TakeWhile

/-! Sets of a linear order written as descending lists of marks. A mark covers its own
bound, and an open one all that follows up to the next greater mark. -/
namespace Ncfcc.Library.Marks

section
variable {α : Type*} [LinearOrder α]

def Descending (marks : List (α × Bool)) : Prop := marks.Pairwise fun first second => second.1 < first.1

/-- The greatest mark that is not above the value. -/
def floorMark (marks : List (α × Bool)) (value : α) : Option (α × Bool) :=
  marks.find? fun mark => !decide (value < mark.1)

/-- All marks are above the value. -/
def Beyond (marks : List (α × Bool)) (value : α) : Prop := ∀ mark ∈ marks, value < mark.1

def Covers (marks : List (α × Bool)) (value : α) : Prop :=
  ∃ mark, floorMark marks value = some mark ∧ (mark.2 = true ∨ mark.1 = value)

def above (marks : List (α × Bool)) (value : α) : List (α × Bool) := marks.takeWhile fun mark => decide (value < mark.1)

def upTo (marks : List (α × Bool)) (value : α) : List (α × Bool) := marks.dropWhile fun mark => decide (value < mark.1)

def coverOne (marks : List (α × Bool)) (value : α) : List (α × Bool) :=
  above marks value ++ (value,false) :: upTo marks value

/-- The marks up to the value, started by an open one. -/
def started (marks : List (α × Bool)) (value : α) : List (α × Bool) :=
  match upTo marks value with
  | [] => [(value,true)]
  | (bound,true) :: below => (bound,true) :: below
  | (bound,false) :: below => if bound = value then (value,true) :: below else (value,true) :: (bound,false) :: below

/-- Everything from the first value to the last: the marks between them are dropped, and a closed one
ends the range unless an open one was there. -/
def coverRange (marks : List (α × Bool)) (first last : α) : List (α × Bool) :=
  match upTo (above marks first) last with
  | (_,true) :: _ => above marks last ++ started marks first
  | _ => above marks last ++ (last,false) :: started marks first

theorem above_append_upTo (marks : List (α × Bool)) (value : α) : above marks value ++ upTo marks value = marks :=
  List.takeWhile_append_dropWhile

theorem lt_of_mem_above {marks : List (α × Bool)} {value : α} {mark : α × Bool} (inside : mark ∈ above marks value) :
    value < mark.1 := by
  simpa using List.mem_takeWhile_imp inside

private theorem le_of_mem_upTo {marks : List (α × Bool)} (ordered : Descending marks) {value : α} {mark : α × Bool}
    (inside : mark ∈ upTo marks value) : mark.1 ≤ value := by
  induction marks with
  | nil => simp [upTo] at inside
  | cons first rest ih =>
    obtain ⟨smaller,later⟩ := List.pairwise_cons.mp ordered
    by_cases beyond : value < first.1
    · refine ih later ?_
      simpa [upTo,beyond] using inside
    · have whole : upTo (first :: rest) value = first :: rest := by simp [upTo,beyond]
      rw [whole] at inside
      rcases List.mem_cons.mp inside with rfl | inside
      · exact not_lt.mp beyond
      · exact (smaller mark inside).le.trans (not_lt.mp beyond)

private theorem floorMark_append (marks others : List (α × Bool)) (value : α) :
    floorMark (marks ++ others) value = (floorMark marks value).or (floorMark others value) := List.find?_append

private theorem floorMark_eq_none {marks : List (α × Bool)} {value : α} : floorMark marks value = none ↔ Beyond marks value := by
  simp [floorMark,Beyond]

private theorem floorMark_of_not_beyond {marks others : List (α × Bool)} {value : α} (inside : ¬ Beyond marks value) :
    ∃ mark ∈ marks, floorMark (marks ++ others) value = some mark := by
  obtain ⟨mark,found⟩ := Option.ne_none_iff_exists'.mp (mt floorMark_eq_none.mp inside)
  exact ⟨mark,List.mem_of_find?_eq_some found,by rw [floorMark_append,found,Option.some_or]⟩

private theorem floorMark_of_beyond {marks others : List (α × Bool)} {value : α} (beyond : Beyond marks value) :
    floorMark (marks ++ others) value = floorMark others value := by
  rw [floorMark_append,floorMark_eq_none.mpr beyond,Option.none_or]

private theorem floorMark_cons_of_le {mark : α × Bool} {marks : List (α × Bool)} {value : α} (low : mark.1 ≤ value) :
    floorMark (mark :: marks) value = some mark := by
  simp [floorMark,low]

private theorem covers_append {marks others : List (α × Bool)} {value : α} :
    Covers (marks ++ others) value ↔ Covers marks value ∨ Beyond marks value ∧ Covers others value := by
  unfold Covers
  rw [floorMark_append,← floorMark_eq_none]
  cases floorMark marks value <;> simp

private theorem not_covers_of_beyond {marks : List (α × Bool)} {value : α} (beyond : Beyond marks value) :
    ¬ Covers marks value := by
  rintro ⟨mark,found,-⟩
  rw [floorMark_eq_none.mpr beyond] at found
  cases found

private theorem beyond_above {marks : List (α × Bool)} {cut value : α} (low : value ≤ cut) : Beyond (above marks cut) value :=
  fun _ inside => low.trans_lt (lt_of_mem_above inside)

theorem covers_cons {bound value : α} {opens : Bool} {marks : List (α × Bool)} :
    Covers ((bound,opens) :: marks) value ↔
      bound ≤ value ∧ (opens = true ∨ bound = value) ∨ value < bound ∧ Covers marks value := by
  unfold Covers floorMark
  by_cases beyond : value < bound
  · simp [beyond,not_le.mpr beyond]
  · simp [beyond,not_lt.mp beyond]

private theorem covers_iff (marks : List (α × Bool)) (cut value : α) : Covers marks value ↔
    Covers (above marks cut) value ∨ Beyond (above marks cut) value ∧ Covers (upTo marks cut) value := by
  rw [← covers_append,above_append_upTo]

/-- Below the cut only the marks up to it count. -/
theorem covers_upTo {marks : List (α × Bool)} {cut value : α} (low : value ≤ cut) :
    Covers (upTo marks cut) value ↔ Covers marks value := by
  rw [covers_iff marks cut]
  simp [beyond_above low,not_covers_of_beyond (beyond_above low)]

theorem above_above {marks : List (α × Bool)} (ordered : Descending marks) {first last : α} (less : first < last) :
    above (above marks first) last = above marks last := by
  induction marks with
  | nil => rfl
  | cons mark rest ih =>
    obtain ⟨-,later⟩ := List.pairwise_cons.mp ordered
    by_cases beyond : last < mark.1
    · have also : first < mark.1 := less.trans beyond
      have tail := ih later
      unfold above at tail ⊢
      simp [beyond,also,tail]
    · by_cases also : first < mark.1
      · simp [above,beyond,also]
      · simp [above,beyond,also]

theorem le_of_upTo {marks : List (α × Bool)} {value : α} {mark : α × Bool} {rest : List (α × Bool)}
    (head : upTo marks value = mark :: rest) : mark.1 ≤ value := by
  have stops := List.head?_dropWhile_not (fun mark : α × Bool => decide (value < mark.1)) marks
  unfold upTo at head
  rw [head] at stops
  simpa using stops

theorem started_eq (marks : List (α × Bool)) (value : α) :
    ∃ bound rest, started marks value = (bound,true) :: rest ∧ bound ≤ value ∧
      ∀ other, other < value → (Covers (started marks value) other ↔ Covers marks other) := by
  suffices shape : ∃ bound rest, started marks value = (bound,true) :: rest ∧ bound ≤ value ∧
      ∀ other, other < value → (Covers (started marks value) other ↔ Covers (upTo marks value) other) by
    obtain ⟨bound,rest,start,low,same⟩ := shape
    exact ⟨bound,rest,start,low,fun other less => (same other less).trans (covers_upTo less.le)⟩
  unfold started
  split
  · rename_i head
    refine ⟨value,[],rfl,le_refl value,fun other less => ?_⟩
    rw [head,covers_cons]
    simp [less,not_le.mpr less]
  · rename_i bound below head
    exact ⟨bound,below,rfl,le_of_upTo head,fun other less => by rw [head]⟩
  · rename_i bound below head
    split
    · rename_i same
      refine ⟨value,below,rfl,le_refl value,fun other less => ?_⟩
      rw [head,same,covers_cons,covers_cons]
      simp [less,not_le.mpr less]
    · refine ⟨value,_,rfl,le_refl value,fun other less => ?_⟩
      rw [head,covers_cons]
      simp [less,not_le.mpr less]

/-- Starting at a value covers all from it on. -/
theorem covers_started {marks : List (α × Bool)} {first value : α} :
    Covers (started marks first) value ↔ first ≤ value ∨ Covers marks value := by
  obtain ⟨bound,rest,start,low,same⟩ := started_eq marks first
  rcases lt_or_ge value first with less | more
  · rw [same value less]
    simp [not_le.mpr less]
  · rw [start,covers_cons]
    simp [more,low.trans more]

theorem covers_coverOne {marks : List (α × Bool)} {added value : α} (fresh : ¬ Covers marks added) :
    Covers (coverOne marks added) value ↔ value = added ∨ Covers marks value := by
  unfold coverOne
  rw [covers_append,covers_cons]
  rcases lt_trichotomy value added with less | rfl | more
  · rw [covers_upTo less.le]
    simp [beyond_above less.le,not_covers_of_beyond (beyond_above less.le),less,less.ne,not_le.mpr less]
  · simp [beyond_above (le_refl value)]
  · -- an open mark below the new one would cover it already
    have closed : ¬ Covers (upTo marks added) value := by
      cases head : upTo marks added with
      | nil => exact not_covers_of_beyond (by simp [Beyond])
      | cons mark rest =>
        have low := le_of_upTo head
        have shut : mark.2 ≠ true := by
          intro opens
          rw [← covers_upTo (le_refl added),head] at fresh
          exact fresh (covers_cons.mpr (Or.inl ⟨low,Or.inl opens⟩))
        have under := low.trans_lt more
        change ¬ Covers ((mark.1,mark.2) :: rest) value
        rw [covers_cons]
        simp [shut,under.ne,not_lt.mpr under.le]
    rw [covers_iff marks added value]
    simp [closed,more.ne',more.ne,not_lt.mpr more.le]

theorem descending_append {upper lower : List (α × Bool)} {cut : α} (first : Descending upper) (second : Descending lower)
    (high : ∀ mark ∈ upper, cut < mark.1) (low : ∀ mark ∈ lower, mark.1 ≤ cut) : Descending (upper ++ lower) :=
  List.pairwise_append.mpr ⟨first,second,fun one inside other also => (low other also).trans_lt (high one inside)⟩

theorem descending_above {marks : List (α × Bool)} (ordered : Descending marks) (value : α) :
    Descending (above marks value) :=
  ordered.sublist (List.takeWhile_sublist _)

theorem descending_upTo {marks : List (α × Bool)} (ordered : Descending marks) (value : α) :
    Descending (upTo marks value) :=
  ordered.sublist (List.dropWhile_sublist _)

theorem descending_coverOne {marks : List (α × Bool)} (ordered : Descending marks) {value : α}
    (fresh : ¬ Covers marks value) : Descending (coverOne marks value) := by
  have below : ∀ mark ∈ upTo marks value, mark.1 < value := by
    intro mark inside
    refine (le_of_mem_upTo ordered inside).lt_of_ne fun same => fresh ?_
    -- the mark would be the first one up to the value
    have floor : floorMark marks value = some mark := by
      have head : floorMark (upTo marks value) value = some mark := by
        cases whole : upTo marks value with
        | nil => simp [whole] at inside
        | cons first rest =>
          have sorted : Descending (first :: rest) := whole ▸ descending_upTo ordered value
          rw [whole] at inside
          rcases List.mem_cons.mp inside with rfl | later
          · exact floorMark_cons_of_le same.le
          · have less := (List.pairwise_cons.mp sorted).1 mark later
            exact absurd (le_of_upTo whole) (not_le.mpr (same ▸ less))
      rw [← above_append_upTo marks value,floorMark_of_beyond (beyond_above (le_refl value)),head]
    exact ⟨mark,floor,Or.inr same⟩
  refine descending_append (descending_above ordered value) ?_ (fun _ inside => lt_of_mem_above inside) ?_
  · exact List.pairwise_cons.mpr ⟨below,descending_upTo ordered value⟩
  · intro mark inside
    rcases List.mem_cons.mp inside with rfl | inside
    · exact le_refl value
    · exact (below mark inside).le

private theorem le_of_mem_started {marks : List (α × Bool)} (ordered : Descending marks) {value : α} {mark : α × Bool}
    (inside : mark ∈ started marks value) : mark.1 ≤ value := by
  have low : ∀ other ∈ upTo marks value, other.1 ≤ value := fun other => le_of_mem_upTo ordered
  unfold started at inside
  split at inside
  · simp_all
  · rename_i head
    exact low mark (head ▸ inside)
  · rename_i head
    rw [head] at low
    split at inside <;> rcases List.mem_cons.mp inside with rfl | inside
    · exact le_refl value
    · exact low mark (List.mem_cons_of_mem _ inside)
    · exact le_refl value
    · exact low mark inside

theorem descending_started {marks : List (α × Bool)} (ordered : Descending marks) (value : α) :
    Descending (started marks value) := by
  have sorted := descending_upTo ordered value
  unfold started
  split
  · exact List.pairwise_singleton _ _
  · rename_i head
    exact head ▸ sorted
  · rename_i bound below head
    rw [head] at sorted
    obtain ⟨smaller,later⟩ := List.pairwise_cons.mp sorted
    have low : bound ≤ value := le_of_upTo head
    split
    · rename_i same
      exact List.pairwise_cons.mpr ⟨fun mark inside => same ▸ smaller mark inside,later⟩
    · rename_i other
      refine List.pairwise_cons.mpr ⟨?_,sorted⟩
      intro mark inside
      rcases List.mem_cons.mp inside with rfl | inside
      · exact low.lt_of_ne other
      · exact (smaller mark inside).trans_le low

theorem descending_coverRange {marks : List (α × Bool)} (ordered : Descending marks) {first last : α} (less : first < last) :
    Descending (coverRange marks first last) := by
  have low : ∀ mark ∈ started marks first, mark.1 < last := fun mark inside =>
    (le_of_mem_started ordered inside).trans_lt less
  have high : ∀ mark ∈ above marks last, last < mark.1 := fun mark inside => lt_of_mem_above inside
  have sorted := descending_started ordered first
  unfold coverRange
  split
  · exact descending_append (descending_above ordered last) sorted high fun mark inside => (low mark inside).le
  · refine descending_append (descending_above ordered last) (List.pairwise_cons.mpr ⟨low,sorted⟩) high ?_
    intro mark inside
    rcases List.mem_cons.mp inside with rfl | inside
    · exact le_refl last
    · exact (low mark inside).le

private theorem mem_of_mem_above {marks : List (α × Bool)} {value : α} {mark : α × Bool} (inside : mark ∈ above marks value) :
    mark ∈ marks :=
  (List.takeWhile_sublist _).subset inside

private theorem mem_of_mem_upTo {marks : List (α × Bool)} {value : α} {mark : α × Bool} (inside : mark ∈ upTo marks value) :
    mark ∈ marks :=
  (List.dropWhile_sublist _).subset inside

/-! Where the marks come from. -/

theorem mem_coverOne {marks : List (α × Bool)} {value : α} {mark : α × Bool} (inside : mark ∈ coverOne marks value) :
    mark.1 = value ∨ mark ∈ marks := by
  rcases List.mem_append.mp inside with high | low
  · exact Or.inr (mem_of_mem_above high)
  · exact (List.mem_cons.mp low).imp (congrArg Prod.fst) mem_of_mem_upTo

theorem mem_started {marks : List (α × Bool)} {value : α} {mark : α × Bool} (inside : mark ∈ started marks value) :
    mark.1 = value ∨ mark ∈ marks := by
  have old : ∀ other ∈ upTo marks value, other ∈ marks := fun _ => mem_of_mem_upTo
  unfold started at inside
  split at inside
  · exact Or.inl (congrArg Prod.fst (List.mem_singleton.mp inside))
  · rename_i head
    exact Or.inr (old mark (head ▸ inside))
  · rename_i head
    rw [head] at old
    split at inside
    · exact (List.mem_cons.mp inside).imp (congrArg Prod.fst) fun later => old mark (List.mem_cons_of_mem _ later)
    · exact (List.mem_cons.mp inside).imp (congrArg Prod.fst) (old mark)

theorem mem_coverRange {marks : List (α × Bool)} {first last : α} {mark : α × Bool}
    (inside : mark ∈ coverRange marks first last) : mark.1 = first ∨ mark.1 = last ∨ mark ∈ marks := by
  have low : mark ∈ started marks first → mark.1 = first ∨ mark.1 = last ∨ mark ∈ marks :=
    fun inside => (mem_started inside).imp_right Or.inr
  unfold coverRange at inside
  split at inside <;> rcases List.mem_append.mp inside with high | inside
  · exact Or.inr (Or.inr (mem_of_mem_above high))
  · exact low inside
  · exact Or.inr (Or.inr (mem_of_mem_above high))
  · rcases List.mem_cons.mp inside with same | inside
    · exact Or.inr (Or.inl (congrArg Prod.fst same))
    · exact low inside

/-- What a range cuts off: values behind it whose mark is at its start or before. -/
def Cut (marks : List (α × Bool)) (first last value : α) : Prop :=
  last < value ∧ ∃ mark, floorMark marks value = some mark ∧ mark.1 ≤ first

/-- Behind the range a closed end leaves only the marks above. -/
theorem covers_closed {upper rest : List (α × Bool)} {last value : α} (behind : last < value) :
    Covers (upper ++ (last,false) :: rest) value ↔ Covers upper value := by
  rw [covers_append,covers_cons]
  simp [behind.ne,not_lt.mpr behind.le]

theorem covers_coverRange {marks : List (α × Bool)} (ordered : Descending marks) {first last value : α}
    (less : first < last) : Covers (coverRange marks first last) value ↔
      first ≤ value ∧ value ≤ last ∨ Covers marks value ∧ ¬ Cut marks first last value := by
  have split : above marks last ++ (upTo (above marks first) last ++ upTo marks first) = marks := by
    rw [← List.append_assoc,← above_above ordered less,above_append_upTo,above_append_upTo]
  rcases le_or_gt value last with low | behind
  · have tail : Covers (coverRange marks first last) value ↔ first ≤ value ∨ Covers marks value := by
      have closed : Covers ((last,false) :: started marks first) value ↔ first ≤ value ∨ Covers marks value := by
        rw [covers_cons,covers_started]
        rcases low.eq_or_lt with rfl | low
        · simp [less.le]
        · simp [low,not_le.mpr low]
      unfold coverRange
      split <;> rw [covers_append] <;>
        simp [beyond_above low,not_covers_of_beyond (beyond_above low),closed,covers_started]
    rw [tail]
    simp [Cut,low,not_lt.mpr low]
  · have outside : ¬ (first ≤ value ∧ value ≤ last) := fun inside => not_lt.mpr inside.2 behind
    have open_end : Covers (started marks first) value := covers_started.mpr (Or.inl (less.trans behind).le)
    rw [or_iff_right outside]
    by_cases beyond : Beyond (above marks last) value
    · have floor : floorMark marks value = floorMark (upTo (above marks first) last ++ upTo marks first) value := by
        conv_lhs => rw [← split]
        exact floorMark_of_beyond beyond
      unfold Covers Cut
      rw [floor]
      cases middle : upTo (above marks first) last with
      | nil =>
        have closed : ¬ Covers (coverRange marks first last) value := by
          unfold coverRange
          rw [middle,covers_closed behind]
          exact not_covers_of_beyond beyond
        refine iff_of_false closed ?_
        rintro ⟨⟨mark,found,-⟩,whole⟩
        exact whole ⟨behind,mark,found,le_of_mem_upTo ordered (List.mem_of_find?_eq_some found)⟩
      | cons mark rest =>
        have low : mark.1 ≤ last := le_of_upTo middle
        have high : first < mark.1 := by
          have inside : mark ∈ above marks first := by
            rw [← above_append_upTo (above marks first) last,middle]
            exact List.mem_append_right _ List.mem_cons_self
          exact lt_of_mem_above inside
        have here := low.trans_lt behind
        rw [List.cons_append,floorMark_cons_of_le here.le]
        unfold coverRange
        rw [middle]
        obtain ⟨bound,opens⟩ := mark
        cases opens with
        | true =>
          refine iff_of_true (covers_append.mpr (Or.inr ⟨beyond,open_end⟩)) ?_
          simp [high]
        | false =>
          change Covers (_ ++ (last,false) :: _) value ↔ _
          rw [covers_closed behind]
          refine iff_of_false (not_covers_of_beyond beyond) ?_
          simp [here.ne]
    · have upper : ∀ others, Covers (above marks last ++ others) value ↔ Covers (above marks last) value := by
        intro others
        simp [covers_append,beyond]
      have same : Covers (coverRange marks first last) value ↔ Covers marks value := by
        rw [← split]
        conv_rhs => rw [upper]
        rw [split]
        unfold coverRange
        split <;> exact upper _
      obtain ⟨mark,inside,found⟩ := @floorMark_of_not_beyond _ _ _ (upTo (above marks first) last ++ upTo marks first) _ beyond
      rw [split] at found
      have whole : ¬ Cut marks first last value := by
        rintro ⟨-,other,also,low⟩
        rw [found] at also
        cases also
        exact not_lt.mpr low (less.trans (lt_of_mem_above inside))
      simp [same,whole]

end

end Ncfcc.Library.Marks
