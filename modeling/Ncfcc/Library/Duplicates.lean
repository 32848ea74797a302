import Mathlib.Data.List.Basic

/-! Links from a list: an item is a duplicate if its two ends were processed the other way round. -/
namespace Ncfcc.Library
variable {Item End : Type*} (ends : Item → End × End)

def Joins (pair : End × End) (item : Item) : Prop := ends item = pair ∨ ends item = pair.swap

section
variable {ends} {pair : End × End} {item : Item}

theorem Joins.self : Joins ends (ends item) item := .inl rfl

private theorem joins_congr (joins : Joins ends pair item) (other : Item) : Joins ends (ends item) other ↔ Joins ends pair other := by
  rcases joins with same | swapped
  · rw [same]
  · rw [Joins,swapped,Prod.swap_swap]
    exact or_comm

end

/-- No item comes again the same way round as the first that names its two ends. -/
def Unrepeated (items : List Item) : Prop :=
  ∀ before item after, items = before ++ item :: after → (∀ other ∈ before, ¬Joins ends (ends item) other) →
    (ends item).1 ≠ (ends item).2 → ∀ other ∈ after, ends other ≠ ends item

variable [DecidableEq End]

instance (pair : End × End) : DecidablePred (Joins ends pair) := fun _ => inferInstanceAs (Decidable (_ ∨ _))

def unprocessed (processed : List (End × End)) : List Item → List Item
  | [] => []
  | item :: rest =>
    if (ends item).swap ∈ processed then unprocessed processed rest
    else item :: unprocessed (ends item :: processed) rest

/-- What comes before does not make the item a duplicate: the first item that names its ends, if there is one, names them
the same way round, and they differ. -/
def Accepted (before : List Item) (item : Item) : Prop :=
  ∀ first ∈ before.find? fun other => Joins ends (ends item) other, ends first ≠ (ends item).swap

section
variable {ends} {pair : End × End} {item : Item} {items : List Item} {processed noted : List (End × End)}

/-- What is processed of other pairs does not matter. -/
theorem filter_unprocessed (same : ∀ ended, ended = pair ∨ ended = pair.swap → (ended ∈ processed ↔ ended ∈ noted)) :
    (unprocessed ends processed items).filter (fun item => Joins ends pair item) =
      unprocessed ends noted (items.filter fun item => Joins ends pair item) := by
  induction items generalizing processed noted with
  | nil => rfl
  | cons item rest ih =>
    by_cases joins : Joins ends pair item
    · have either : (ends item).swap = pair ∨ (ends item).swap = pair.swap := by
        rcases joins with straight | swapped
        · exact .inr (by rw [straight])
        · exact .inl (by rw [swapped,Prod.swap_swap])
      rw [List.filter_cons_of_pos (by simpa using joins),unprocessed,unprocessed]
      by_cases duplicate : (ends item).swap ∈ processed
      · rw [if_pos duplicate,if_pos ((same _ either).mp duplicate)]
        exact ih same
      · rw [if_neg duplicate,if_neg (mt (same _ either).mpr duplicate),List.filter_cons_of_pos (by simpa using joins)]
        congr 1
        apply ih
        intro ended named
        rw [List.mem_cons,List.mem_cons,same ended named]
    · rw [List.filter_cons_of_neg (by simpa using joins),unprocessed]
      split
      · exact ih same
      · rw [List.filter_cons_of_neg (by simpa using joins)]
        apply ih
        intro ended named
        have differs : ended ≠ ends item := by
          rintro rfl
          exact joins named
        rw [List.mem_cons,or_iff_right differs]
        exact same ended named

/-- Behind the first item of a pair those the same way round are let through. -/
theorem unprocessed_joins (all : ∀ item ∈ items, Joins ends pair item) (only : ∀ ended ∈ processed, ended = pair) (some : pair ∈ processed) :
    unprocessed ends processed items = if pair.1 = pair.2 then [] else items.filter (ends · = pair) := by
  induction items generalizing processed with
  | nil => exact (ite_self _).symm
  | cons item rest ih =>
    have later := fun item inside => all item (List.mem_cons_of_mem _ inside)
    rw [unprocessed]
    by_cases loop : pair.1 = pair.2
    · have turned : pair.swap = pair := Prod.ext loop.symm loop
      have named : ends item = pair := by
        rcases all item List.mem_cons_self with same | swapped
        · exact same
        · exact swapped.trans turned
      rw [named,turned,if_pos some,ih later only some]
      rw [if_pos loop,if_pos loop]
    · have turns : pair.swap ≠ pair := fun turned => loop (congrArg Prod.snd turned)
      rw [if_neg loop]
      rcases all item List.mem_cons_self with same | swapped
      · rw [same,if_neg (mt (only _) turns),List.filter_cons_of_pos (by simpa using same),ih later (by simpa using only) (by simp),
          if_neg loop]
      · rw [swapped,Prod.swap_swap,if_pos some,List.filter_cons_of_neg (by simpa [swapped] using turns),ih later only some,
          if_neg loop]

/-- What is let through for two ends: the first item, and unless it joins a node with itself those the same way round. -/
theorem unprocessed_filter (ends : Item → End × End) (items : List Item) (pair : End × End) :
    (unprocessed ends [] items).filter (fun item => Joins ends pair item) =
      match items.filter (fun item => Joins ends pair item) with
      | [] => []
      | first :: rest => first :: if (ends first).1 = (ends first).2 then [] else rest.filter (ends · = ends first) := by
  have projected : (unprocessed ends [] items).filter (fun item => Joins ends pair item) =
      unprocessed ends [] (items.filter fun item => Joins ends pair item) := filter_unprocessed fun _ _ => Iff.rfl
  rw [projected]
  cases named : items.filter (fun item => Joins ends pair item) with
  | nil => rfl
  | cons first rest =>
    have all : ∀ item ∈ first :: rest, Joins ends pair item := by
      intro item inside
      rw [← named] at inside
      exact of_decide_eq_true (List.mem_filter.mp inside).2
    have joins := all first List.mem_cons_self
    rw [unprocessed,if_neg List.not_mem_nil]
    dsimp only
    rw [unprocessed_joins (fun item inside => (joins_congr joins item).mpr (all item (List.mem_cons_of_mem _ inside)))
      (fun ended inside => List.mem_singleton.mp inside) List.mem_cons_self]

private theorem mem_unprocessed : item ∈ unprocessed ends processed items ↔ ∃ before after, items = before ++ item :: after ∧
    (ends item).swap ∉ processed ∧ ∀ other ∈ unprocessed ends processed before, ends other ≠ (ends item).swap := by
  induction items generalizing processed with
  | nil => simp [unprocessed]
  | cons first rest ih =>
    rw [unprocessed]
    apply Iff.intro
    · intro inside
      split at inside
      · rename_i duplicate
        obtain ⟨before,after,split,new,others⟩ := ih.mp inside
        refine ⟨first :: before,after,by rw [split]; rfl,new,?_⟩
        rw [unprocessed,if_pos duplicate]
        exact others
      · rename_i accepted
        rcases List.mem_cons.mp inside with rfl | later
        · exact ⟨[],rest,rfl,accepted,by simp [unprocessed]⟩
        · obtain ⟨before,after,split,new,others⟩ := ih.mp later
          rw [List.mem_cons,not_or] at new
          refine ⟨first :: before,after,by rw [split]; rfl,new.2,?_⟩
          rw [unprocessed,if_neg accepted]
          intro other among
          rcases List.mem_cons.mp among with rfl | within
          · exact fun same => new.1 same.symm
          · exact others other within
    · rintro ⟨before,after,whole,new,others⟩
      cases before with
      | nil =>
        obtain ⟨rfl,-⟩ := List.cons.inj whole
        rw [if_neg new]
        exact List.mem_cons_self
      | cons head before =>
        obtain ⟨rfl,tail⟩ := List.cons.inj whole
        rw [unprocessed] at others
        split at others
        · rename_i duplicate
          rw [if_pos duplicate]
          exact ih.mpr ⟨before,after,tail,new,others⟩
        · rename_i accepted
          rw [if_neg accepted]
          apply List.mem_cons_of_mem
          apply ih.mpr
          refine ⟨before,after,tail,?_,fun other among => others other (List.mem_cons_of_mem _ among)⟩
          rw [List.mem_cons,not_or]
          exact ⟨fun same => others first List.mem_cons_self same.symm,new⟩

theorem mem_unprocessed_iff (ends : Item → End × End) (items : List Item) (item : Item) :
    item ∈ unprocessed ends [] items ↔ ∃ before after, items = before ++ item :: after ∧ Accepted ends before item := by
  rw [mem_unprocessed]
  -- of the items before that name the two ends, only the first matters
  have accepted : ∀ before : List Item, (∀ other ∈ unprocessed ends [] before, ends other ≠ (ends item).swap) ↔
      Accepted ends before item := by
    intro before
    have projected := unprocessed_filter ends before (ends item)
    rw [Accepted,← List.head?_filter]
    cases named : before.filter fun other => Joins ends (ends item) other with
    | nil =>
      rw [named] at projected
      simp only [List.head?_nil,Option.mem_def,reduceCtorEq,false_implies,implies_true,iff_true]
      intro other inside same
      exact List.filter_eq_nil_iff.mp projected other inside (decide_eq_true (.inr same))
    | cons first rest =>
      rw [named] at projected
      dsimp only at projected
      simp only [List.head?_cons,Option.mem_def,Option.some.injEq,forall_eq']
      apply Iff.intro
      · intro others
        have inside : first ∈ (unprocessed ends [] before).filter fun other => Joins ends (ends item) other := by
          rw [projected]
          exact List.mem_cons_self
        exact others first (List.mem_filter.mp inside).1
      · intro differs other inside same
        have among : other ∈ (unprocessed ends [] before).filter fun other => Joins ends (ends item) other :=
          List.mem_filter.mpr ⟨inside,decide_eq_true (.inr same)⟩
        rw [projected] at among
        rcases List.mem_cons.mp among with rfl | later
        · exact differs same
        · split at later
          · cases later
          · have alike : ends other = ends first := of_decide_eq_true (List.mem_filter.mp later).2
            exact differs (alike.symm.trans same)
  simp only [List.not_mem_nil,not_false_eq_true,true_and,accepted]

/-- Without repetitions only the first item of each pair is let through. -/
theorem take_of_unrepeated (unrepeated : Unrepeated ends items) (pair : End × End) :
    (unprocessed ends [] items).filter (fun item => Joins ends pair item) =
      (items.filter fun item => Joins ends pair item).take 1 := by
  rw [unprocessed_filter]
  cases named : items.filter (fun item => Joins ends pair item) with
  | nil => rfl
  | cons first rest =>
    obtain ⟨before,after,split,none,joins,others⟩ := List.filter_eq_cons_iff.mp named
    have joins : Joins ends pair first := of_decide_eq_true joins
    rw [List.take_succ_cons,List.take_zero]
    dsimp only
    split
    · rfl
    · rename_i differs
      congr 1
      rw [List.filter_eq_nil_iff]
      intro other inside same
      rw [← others] at inside
      refine unrepeated before first after split ?_ differs other (List.mem_filter.mp inside).1 (of_decide_eq_true same)
      intro other inside joined
      exact absurd ((joins_congr joins other).mp joined) (by simpa using none other inside)

/-- If at most one item of each pair is let through, nothing is repeated. -/
theorem unrepeated_of_length (single : ∀ pair, ((unprocessed ends [] items).filter fun item => Joins ends pair item).length ≤ 1) :
    Unrepeated ends items := by
  intro before item after split first differs other inside same
  have filtered : items.filter (fun other => Joins ends (ends item) other) =
      item :: after.filter (fun other => Joins ends (ends item) other) := by
    rw [split,List.filter_append,List.filter_cons_of_pos (by simpa using Joins.self),
      List.filter_eq_nil_iff.mpr (by simpa using first)]
    rfl
  have only := single (ends item)
  rw [unprocessed_filter,filtered] at only
  dsimp only at only
  rw [if_neg differs,List.length_cons] at only
  have nothing := List.eq_nil_of_length_eq_zero (Nat.le_zero.mp (Nat.le_of_succ_le_succ only))
  have among : other ∈ after.filter fun other => Joins ends (ends item) other :=
    List.mem_filter.mpr ⟨inside,decide_eq_true (.inl same)⟩
  exact List.filter_eq_nil_iff.mp nothing other among (decide_eq_true same)

end

end Ncfcc.Library
