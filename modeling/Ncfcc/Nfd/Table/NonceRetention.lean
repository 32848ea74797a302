import Ncfcc.Library.Run
import Ncfcc.Nfd.Table.DeadNonceList

/-! Retention in the Dead Nonce List. Its queue is the newest part of everything ever pushed,
and an eviction stops at the capacity, so that a nonce stays for as many pushes as the
capacity has allowed since it was added. -/
namespace Ncfcc.Nfd.Table.DeadNonceList
open Ncfcc.Library

inductive Operation where
  | add (name : Name) (nonce : UInt32)
  | mark
  | adjustCapacity
  deriving DecidableEq

def step (list : DeadNonceList) : Operation → DeadNonceList
  | .add name nonce => list.add name nonce
  | .mark => list.addMark
  | .adjustCapacity => list.adjustCapacity

def Operation.pushes : Operation → List UInt64
  | .add name nonce => [makeEntry name nonce]
  | .mark => [DeadNonceList.mark]
  | .adjustCapacity => []

def history (operations : List Operation) : List UInt64 :=
  List.replicate expectedMarkCount mark ++ operations.flatMap Operation.pushes

def withinLimits (list : DeadNonceList) : Prop := minCapacity ≤ list.capacity ∧ list.capacity ≤ maxCapacity

/-- The operation evicts nothing, or leaves at least as many entries as the capacity it has set. -/
def Sheds (list : DeadNonceList) (operation : Operation) : Prop :=
  (list.step operation).queue = list.queue ++ operation.pushes ∨
    (list.step operation).capacity ≤ (list.step operation).queue.length

section
variable (list : DeadNonceList)

private theorem evictEntries_suffix : list.evictEntries.queue <:+ list.queue := List.drop_suffix _ _

/-- The assertion that ends `evictEntries`, and the return before it. -/
theorem evictEntries_sheds :
    list.evictEntries.queue = list.queue ∨ list.capacity ≤ list.evictEntries.queue.length := by
  by_cases full : list.capacity < list.queue.length
  · right
    simp only [evictEntries,List.length_drop]
    omega
  · left
    have none : list.queue.length - list.capacity = 0 := by omega
    simp [evictEntries,none]

private theorem step_suffix (operation : Operation) :
    (list.step operation).queue <:+ list.queue ++ operation.pushes := by
  cases operation with
  | add name nonce => exact evictEntries_suffix _
  | mark => exact List.suffix_rfl
  | adjustCapacity =>
    rw [Operation.pushes,List.append_nil]
    exact evictEntries_suffix _

private theorem step_sheds (operation : Operation) : list.Sheds operation := by
  cases operation with
  | add name nonce => exact evictEntries_sheds _
  | mark => exact Or.inl rfl
  | adjustCapacity =>
    rw [Sheds,Operation.pushes,List.append_nil]
    exact evictEntries_sheds _

private theorem adjustCapacity_withinLimits (within : list.withinLimits) : list.adjustCapacity.withinLimits := by
  obtain ⟨lower,upper⟩ := within
  simp only [withinLimits,adjustCapacity,evictEntries,minCapacity,maxCapacity] at lower upper ⊢
  split
  · omega
  · split
    · omega
    · exact ⟨lower,upper⟩

private theorem step_withinLimits (operation : Operation) (within : list.withinLimits) :
    (list.step operation).withinLimits := by
  cases operation with
  | add name nonce => exact within
  | mark => exact within
  | adjustCapacity => exact adjustCapacity_withinLimits list within

/-- Where fewer entries are wanted than the new capacity, no operation takes one of them. -/
theorem step_keeps (operation : Operation) {wanted : Nat} (there : wanted ≤ list.queue.length)
    (below : wanted + operation.pushes.length ≤ (list.step operation).capacity) :
    wanted + operation.pushes.length ≤ (list.step operation).queue.length := by
  rcases step_sheds list operation with same | kept
  · rw [same,List.length_append]
    omega
  · exact below.trans kept

end

private theorem history_concat (operations : List Operation) (operation : Operation) :
    history (operations ++ [operation]) = history operations ++ operation.pushes := by
  simp [history]

private theorem new_withinLimits : new.withinLimits := by
  simp [withinLimits,new,minCapacity,initialCapacity,maxCapacity]

private theorem run_withinLimits (operations : List Operation) : (run step new operations).withinLimits := by
  induction operations using List.reverseRecOn with
  | nil => exact new_withinLimits
  | append_singleton operations operation ih =>
    rw [run_concat]
    exact step_withinLimits _ operation ih

private theorem run_suffix (operations : List Operation) : (run step new operations).queue <:+ history operations := by
  induction operations using List.reverseRecOn with
  | nil => simp [history,new]
  | append_singleton operations operation ih =>
    rw [run_concat,history_concat]
    obtain ⟨dropped,same⟩ := ih
    refine (step_suffix _ operation).trans ?_
    exact ⟨dropped,by rw [← List.append_assoc,same]⟩

/-- From a queue that ends with a wanted entry, as many entries as were pushed behind it
are still there, and the wanted one, while they are fewer than every capacity since. -/
theorem run_keeps (list : DeadNonceList) (operations : List Operation) (some : 0 < list.queue.length)
    (few : ∀ before, before <+: operations →
      (operations.flatMap Operation.pushes).length < (run step list before).capacity) :
    (operations.flatMap Operation.pushes).length < (run step list operations).queue.length := by
  suffices all : ∀ before, before <+: operations →
      (before.flatMap Operation.pushes).length + 1 ≤ (run step list before).queue.length from
    all operations List.prefix_rfl
  intro before
  induction before using List.reverseRecOn with
  | nil =>
    intro _
    exact some
  | append_singleton before operation ih =>
    intro inside
    have earlier := ih ((List.prefix_append _ _).trans inside)
    have capacity := few _ inside
    obtain ⟨after,rfl⟩ := inside
    simp only [List.flatMap_append,List.flatMap_singleton,List.length_append] at capacity ⊢
    rw [run_concat] at capacity ⊢
    have kept := step_keeps (run step list before) operation earlier (by omega)
    omega

/-- In two suffixes of one list the longer one has the members of the shorter. -/
theorem mem_of_suffix {queue all front back : List UInt64} {entry : UInt64} (newest : queue <:+ all)
    (split : all = front ++ entry :: back) (long : back.length < queue.length) : entry ∈ queue := by
  have behind : entry :: back <:+ all := ⟨front,split.symm⟩
  have inside : entry :: back <:+ queue := List.suffix_of_suffix_length_le behind newest long
  exact inside.subset (List.mem_cons_self ..)

private theorem add_nonempty (list : DeadNonceList) (name : Name) (nonce : UInt32)
    (within : list.withinLimits) : 0 < (list.add name nonce).queue.length := by
  rcases step_sheds list (.add name nonce) with same | kept
  · change (list.add name nonce).queue = list.queue ++ [makeEntry name nonce] at same
    rw [same]
    simp
  · change list.capacity ≤ (list.add name nonce).queue.length at kept
    have least : 2^3 ≤ list.capacity := within.1
    omega

private theorem has_of_few (before after : List Operation) (name : Name) (nonce : UInt32)
    (few : ∀ since, since <+: after → (after.flatMap Operation.pushes).length <
      (run step new (before ++ .add name nonce :: since)).capacity) :
    (run step new (before ++ .add name nonce :: after)).has name nonce = true := by
  have newest := run_suffix (before ++ .add name nonce :: after)
  simp only [run_append,run_cons] at few newest ⊢
  have long := run_keeps _ after (add_nonempty _ name nonce (run_withinLimits before)) few
  have split : history (before ++ .add name nonce :: after) =
      history before ++ makeEntry name nonce :: after.flatMap Operation.pushes := by
    simp [history,Operation.pushes]
  exact List.contains_iff_mem.mpr (mem_of_suffix newest split long)

/-- The queue is the newest part of the history, the capacity keeps its limits, no operation
shortens the queue below the capacity, and an added nonce is there while fewer entries
were pushed behind it than the least capacity since. -/
theorem nonces_retained (operations : List Operation) :
    (run step new operations).queue <:+ history operations ∧
    minCapacity ≤ (run step new operations).capacity ∧ (run step new operations).capacity ≤ maxCapacity ∧
    Steps step Sheds new operations ∧
    ∀ before name nonce after, operations = before ++ .add name nonce :: after →
      (∀ since, since <+: after → (after.flatMap Operation.pushes).length <
        (run step new (before ++ .add name nonce :: since)).capacity) →
      (run step new operations).has name nonce = true := by
  obtain ⟨lower,upper⟩ := run_withinLimits operations
  refine ⟨run_suffix operations,lower,upper,?_,?_⟩
  · intro before operation _
    exact step_sheds _ operation
  · intro before name nonce after split few
    rw [split]
    exact has_of_few before after name nonce few

end Ncfcc.Nfd.Table.DeadNonceList
