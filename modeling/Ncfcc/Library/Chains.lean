import Mathlib.Data.List.Nodup
import Mathlib.Data.List.Perm.Basic
import Mathlib.Logic.Function.Basic

/-! Hash chains over arbitrary items: `chains b` is the chain of bucket `b`, of which
the first `count` are in use. A position function says where an item belongs. -/
namespace Ncfcc.Library.Chains

variable {α : Type*}

/-- Every chained item, bucket by bucket. -/
def walk (count : Nat) (chains : Nat → List α) : List α := (List.range count).flatMap chains

def append (chains : Nat → List α) (bucket : Nat) (item : α) : Nat → List α :=
  Function.update chains bucket (chains bucket ++ [item])

/-- Empty chains, to which the items are appended one by one. -/
def rehash (position : α → Nat) (items : List α) : Nat → List α :=
  items.foldl (fun chains item => append chains (position item) item) (fun _ => [])

theorem mem_walk (count : Nat) (chains : Nat → List α) (item : α) :
    item ∈ walk count chains ↔ ∃ bucket < count, item ∈ chains bucket := by
  simp [walk]

private theorem foldl_append (position : α → Nat) (items : List α) (chains : Nat → List α) (bucket : Nat) :
    items.foldl (fun chains item => append chains (position item) item) chains bucket =
      chains bucket ++ items.filter (fun item => position item = bucket) := by
  induction items generalizing chains with
  | nil => simp
  | cons item items ih =>
    rw [List.foldl_cons,ih]
    by_cases here : position item = bucket
    · rw [List.filter_cons_of_pos (by simpa using here)]
      simp [append,here]
    · rw [List.filter_cons_of_neg (by simpa using here)]
      simp [append,Function.update_of_ne (Ne.symm here)]

/-- A new chain holds the items of its position in the order they were walked. -/
theorem rehash_chain (position : α → Nat) (items : List α) (bucket : Nat) :
    rehash position items bucket = items.filter (fun item => position item = bucket) := by
  rw [rehash,foldl_append,List.nil_append]

section
variable {count : Nat} {chains : Nat → List α} {position : α → Nat}

theorem walk_nodup (single : ∀ bucket < count, (chains bucket).Nodup)
    (placed : ∀ bucket < count, ∀ item ∈ chains bucket, position item = bucket) :
    (walk count chains).Nodup := by
  refine List.nodup_flatMap.mpr ⟨?_,?_⟩
  · intro bucket member
    exact single bucket (List.mem_range.mp member)
  · refine List.nodup_range.imp_of_mem ?_
    intro first second left right apart
    simp only [Function.onFun,List.disjoint_left]
    intro item inFirst inSecond
    apply apart
    rw [← placed first (List.mem_range.mp left) item inFirst]
    exact placed second (List.mem_range.mp right) item inSecond

/-- Pairs of one chain stand in its order, pairs of two chains in the order of the buckets. -/
theorem walk_pairwise {R : α → α → Prop} (within : ∀ bucket < count, (chains bucket).Pairwise R)
    (across : ∀ first < count, ∀ second < count, first ≠ second →
      ∀ a ∈ chains first, ∀ b ∈ chains second, R a b) :
    (walk count chains).Pairwise R := by
  refine List.pairwise_flatMap.mpr ⟨?_,?_⟩
  · intro bucket member
    exact within bucket (List.mem_range.mp member)
  · refine List.nodup_range.imp_of_mem ?_
    intro first second left right apart
    exact across first (List.mem_range.mp left) second (List.mem_range.mp right) apart

end

end Ncfcc.Library.Chains
