import Mathlib.Algebra.Field.Rat
import Mathlib.Algebra.Order.Ring.Rat
import Ncfcc.Library.Shares

/-! The consumer whose numbers follow a Zipf-Mandelbrot distribution. Its table is filled with running
sums of the weights and divided by its last entry in place; a draw is looked up from the
front. `pow` and the numbers it is used with are those of an ordered field. -/
namespace Ncfcc.Apps
open Ncfcc.Library
variable {K : Type*}

structure ConsumerZipfMandelbrot (K : Type*) where
  n : UInt32
  q : K
  s : K
  pcum : List K

namespace ConsumerZipfMandelbrot

/-- Nothing is defined outside of the vector. -/
def store (pcum : List K) (i : Nat) (value : K) : Option (List K) :=
  if i < pcum.length then some (pcum.set i value) else none

/-- The loop over the contents; without a hit the first content is taken. -/
def search [LE K] [DecidableLE K] (pcum : List K) (random : K) : (rounds : Nat) → (i : Nat) → Option Nat
  | 0, _ => some 1
  | rounds + 1, i => pcum[i]?.bind fun sum => if random ≤ sum then some i else search pcum random rounds (i + 1)

section
variable [Field K] (pow : K → K → K)

def constructed : ConsumerZipfMandelbrot K := ⟨100,7 / 10,7 / 10,[]⟩

def accumulate (q s : K) (pcum : List K) (i : Nat) : Option (List K) :=
  pcum[i - 1]?.bind fun sum => store pcum i (sum + 1 / pow (i + q) s)

def normalise (last : Nat) (pcum : List K) (i : Nat) : Option (List K) :=
  pcum[i]?.bind fun sum => pcum[last]?.bind fun total => store pcum i (sum / total)

/-- The length of the vector has 32 bits, as the counters of the loops have. -/
def setNumberOfContents (consumer : ConsumerZipfMandelbrot K) (numOfContents : UInt32) : Option (ConsumerZipfMandelbrot K) :=
  let indices := List.range' 1 numOfContents.toNat
  (store (List.replicate (numOfContents + 1).toNat 0) 0 0).bind fun first =>
    (indices.foldlM (accumulate pow consumer.q consumer.s) first).bind fun sums =>
      (indices.foldlM (normalise numOfContents.toNat) sums).map fun pcum => {consumer with n := numOfContents, pcum}

def setQ (consumer : ConsumerZipfMandelbrot K) (q : K) : Option (ConsumerZipfMandelbrot K) :=
  setNumberOfContents pow {consumer with q} consumer.n

def setS (consumer : ConsumerZipfMandelbrot K) (s : K) : Option (ConsumerZipfMandelbrot K) :=
  setNumberOfContents pow {consumer with s} consumer.n

inductive Call (K : Type*) where
  | setNumberOfContents (numOfContents : UInt32)
  | setQ (q : K)
  | setS (s : K)
  deriving DecidableEq

def perform (consumer : ConsumerZipfMandelbrot K) : Call K → Option (ConsumerZipfMandelbrot K)
  | .setNumberOfContents numOfContents => setNumberOfContents pow consumer numOfContents
  | .setQ q => setQ pow consumer q
  | .setS s => setS pow consumer s

/-- Zeros are drawn again. -/
def getNextSeq [LE K] [DecidableLE K] [DecidableEq K] (consumer : ConsumerZipfMandelbrot K) (draws : List K) : Option Nat :=
  (draws.find? fun random => random ≠ 0).bind fun random => search consumer.pcum random consumer.n.toNat 1

end

/-! The table. -/

def tableOf (length : Nat) (entry : Nat → K) : List K := (List.range length).map entry

section
variable {length i : Nat} {entry other : Nat → K}

private theorem tableOf_get (inside : i < length) : (tableOf length entry)[i]? = some (entry i) := by
  simp [tableOf,inside]

private theorem tableOf_congr (same : ∀ i < length, entry i = other i) : tableOf length entry = tableOf length other := by
  apply List.map_congr_left
  intro i inside
  exact same i (List.mem_range.mp inside)

private theorem store_tableOf (inside : i < length) (value : K) :
    store (tableOf length entry) i value = some (tableOf length (Function.update entry i value)) := by
  have bound : i < (tableOf length entry).length := by
    simpa [tableOf] using inside
  rw [store,if_pos bound]
  apply congrArg some
  apply List.ext_getElem (by simp [tableOf])
  intro j _ _
  rw [List.getElem_set]
  split
  · rename_i same
    subst same
    simp [tableOf]
  · rename_i different
    simp [tableOf,Function.update_of_ne (Ne.symm different)]

end

section
variable [Field K] {pow : K → K → K}

def weight (pow : K → K → K) (q s : K) (i : Nat) : K := 1 / pow (i + q) s

private theorem foldlM_accumulate (q s : K) {last rounds : Nat} (inside : rounds ≤ last) :
    (List.range' 1 rounds).foldlM (accumulate pow q s) (tableOf (last + 1) fun _ => 0) =
      some (tableOf (last + 1) fun i => if i ≤ rounds then cumulated (weight pow q s) i else 0) := by
  induction rounds with
  | zero =>
    apply congrArg some
    apply tableOf_congr
    intro i _
    split
    · rename_i first
      rw [Nat.le_zero.mp first,cumulated,Finset.sum_range_zero]
    · rfl
  | succ rounds ih =>
    have bound : rounds < last + 1 := Nat.lt_succ_of_le (Nat.le_of_succ_le inside)
    have next : 1 + rounds < last + 1 := by omega
    rw [List.range'_1_concat,List.foldlM_append,ih (Nat.le_of_succ_le inside)]
    simp only [Option.bind_eq_bind,Option.bind_some,List.foldlM_cons,List.foldlM_nil,Option.pure_def,accumulate,
      Nat.add_sub_cancel_left,tableOf_get bound,store_tableOf next,Nat.le_refl,↓reduceIte]
    apply congrArg some
    apply tableOf_congr
    intro i _
    rcases Nat.lt_trichotomy i (1 + rounds) with less | rfl | more
    · rw [Function.update_of_ne less.ne,if_pos (by omega),if_pos (by omega)]
    · rw [Function.update_self,if_pos (by omega),Nat.add_comm 1,cumulated_succ]
      rfl
    · rw [Function.update_of_ne more.ne',if_neg (by omega),if_neg (by omega)]

/-- Each entry is divided by the last one, which comes last itself. -/
theorem foldlM_normalise (sums : Nat → K) {last rounds : Nat} (inside : rounds ≤ last) :
    (List.range' 1 rounds).foldlM (normalise last) (tableOf (last + 1) sums) =
      some (tableOf (last + 1) fun i => if 1 ≤ i ∧ i ≤ rounds then sums i / sums last else sums i) := by
  induction rounds with
  | zero =>
    apply congrArg some
    apply tableOf_congr
    intro i _
    rw [if_neg (by omega)]
  | succ rounds ih =>
    have next : 1 + rounds < last + 1 := by omega
    have early : ¬(1 ≤ 1 + rounds ∧ 1 + rounds ≤ rounds) := by omega
    have total : ¬(1 ≤ last ∧ last ≤ rounds) := by omega
    rw [List.range'_1_concat,List.foldlM_append,ih (Nat.le_of_succ_le inside)]
    simp only [Option.bind_eq_bind,Option.bind_some,List.foldlM_cons,List.foldlM_nil,Option.pure_def,normalise,
      tableOf_get next,tableOf_get (Nat.lt_succ_self last),store_tableOf next,if_neg early,if_neg total]
    apply congrArg some
    apply tableOf_congr
    intro i _
    by_cases own : i = 1 + rounds
    · subst own
      rw [Function.update_self,if_pos (by omega)]
    · rw [Function.update_of_ne own]
      apply if_congr _ rfl rfl
      omega

/-- The table holds the shares of the weights. -/
def Filled (pow : K → K → K) (consumer : ConsumerZipfMandelbrot K) : Prop :=
  consumer.pcum = tableOf (consumer.n.toNat + 1) (share (weight pow consumer.q consumer.s) consumer.n.toNat)

private theorem toNat_add_one {n : UInt32} (below : n ≠ 4294967295) : (n + 1).toNat = n.toNat + 1 := by
  have bound := n.toNat_lt
  have other : n.toNat ≠ 4294967295 := fun same => below (UInt32.toNat_inj.mp same)
  rw [UInt32.toNat_add]
  simp only [UInt32.toNat_one]
  omega

private theorem setNumberOfContents_fills (consumer : ConsumerZipfMandelbrot K) {n : UInt32} (below : n ≠ 4294967295) :
    ∃ pcum, setNumberOfContents pow consumer n = some {consumer with n, pcum} ∧ Filled pow {consumer with n, pcum} := by
  have zeros : List.replicate (n + 1).toNat (0 : K) = tableOf (n.toNat + 1) fun _ => 0 := by
    rw [toNat_add_one below,tableOf,List.map_const',List.length_range]
  refine ⟨tableOf (n.toNat + 1) (share (weight pow consumer.q consumer.s) n.toNat),?_,rfl⟩
  have first : Function.update (fun _ => (0 : K)) 0 0 = fun _ => 0 := Function.update_eq_self 0 _
  rw [setNumberOfContents,zeros,store_tableOf (Nat.succ_pos _),first]
  simp only [Option.bind_some,foldlM_accumulate consumer.q consumer.s (Nat.le_refl n.toNat),foldlM_normalise _ (Nat.le_refl n.toNat),
    Option.map_some]
  apply congrArg fun pcum => some (ConsumerZipfMandelbrot.mk n consumer.q consumer.s pcum)
  apply tableOf_congr
  intro i inside
  have bound : i ≤ n.toNat := Nat.lt_succ_iff.mp inside
  simp only [bound,Nat.le_refl,and_true,↓reduceIte]
  split
  · rfl
  · rename_i zero
    rw [Nat.eq_zero_of_not_pos zero,share_zero,cumulated,Finset.sum_range_zero]

/-- The vector of the greatest number has no entries. -/
theorem setNumberOfContents_greatest (pow : K → K → K) (consumer : ConsumerZipfMandelbrot K) : setNumberOfContents pow consumer 4294967295 = none := rfl

private theorem perform_cases (pow : K → K → K) (consumer : ConsumerZipfMandelbrot K) (below : consumer.n ≠ 4294967295) (call : Call K) :
    (call = .setNumberOfContents 4294967295 ∧ perform pow consumer call = none) ∨
      call ≠ .setNumberOfContents 4294967295 ∧
        ∃ after, perform pow consumer call = some after ∧ after.n ≠ 4294967295 ∧ Filled pow after := by
  cases call with
  | setNumberOfContents n =>
    by_cases greatest : n = 4294967295
    · subst greatest
      exact Or.inl ⟨rfl,setNumberOfContents_greatest pow consumer⟩
    · obtain ⟨pcum,done,filled⟩ := setNumberOfContents_fills consumer greatest
      exact Or.inr ⟨fun same => greatest (Call.setNumberOfContents.inj same),_,done,greatest,filled⟩
  | setQ q =>
    obtain ⟨pcum,done,filled⟩ := setNumberOfContents_fills {consumer with q} below
    exact Or.inr ⟨nofun,_,done,below,filled⟩
  | setS s =>
    obtain ⟨pcum,done,filled⟩ := setNumberOfContents_fills {consumer with s} below
    exact Or.inr ⟨nofun,_,done,below,filled⟩

/-- The calls are carried out unless one of them sets the greatest number, and the last one leaves the table filled. -/
theorem foldlM_perform (calls : List (Call K)) {consumer : ConsumerZipfMandelbrot K} (below : consumer.n ≠ 4294967295)
    (filled : Filled pow consumer) :
    ((∀ call ∈ calls, call ≠ .setNumberOfContents 4294967295) ∧
      ∃ after, calls.foldlM (perform pow) consumer = some after ∧ Filled pow after) ∨
    (¬∀ call ∈ calls, call ≠ .setNumberOfContents 4294967295) ∧ calls.foldlM (perform pow) consumer = none := by
  induction calls generalizing consumer with
  | nil => exact Or.inl ⟨nofun,consumer,rfl,filled⟩
  | cons call rest ih =>
    rw [List.foldlM_cons,List.forall_mem_cons]
    rcases perform_cases pow consumer below call with ⟨greatest,fails⟩ | ⟨other,after,done,still,full⟩
    · rw [fails]
      exact Or.inr ⟨fun others => others.1 greatest,rfl⟩
    · rw [done]
      rcases ih still full with ⟨others,final⟩ | ⟨greatest,fails⟩
      · exact Or.inl ⟨⟨other,others⟩,final⟩
      · exact Or.inr ⟨fun all => greatest all.2,fails⟩

end

/-! Draws. -/

/-- The loop finds the interval that the draw falls into. -/
theorem search_spec [LinearOrder K] {entry : Nat → K} {n : Nat} {random : K} (above : random ≤ entry n) {rounds i : Nat} (position : i + rounds = n + 1)
    (first : 1 ≤ i) (below : entry (i - 1) < random) :
    ∃ found, search (tableOf (n + 1) entry) random rounds i = some found ∧ FallsInto entry n random found := by
  induction rounds generalizing i with
  | zero =>
    obtain rfl := position
    exact absurd above (not_le_of_gt below)
  | succ rounds ih =>
    have inside : i < n + 1 := by omega
    rw [search,tableOf_get inside,Option.bind_some]
    split
    · rename_i reached
      exact ⟨i,rfl,first,Nat.lt_succ_iff.mp inside,below,reached⟩
    · rename_i beyond
      apply ih (by omega) (Nat.le_succ_of_le first)
      exact lt_of_not_ge beyond

section
variable [Field K] [LinearOrder K] {pow : K → K → K}

def cumulative (consumer : ConsumerZipfMandelbrot K) (i : Nat) : K := consumer.pcum.getD i 0

/-- A table that rises from zero to one, from which a draw takes the only index whose interval it falls into; the
length of the interval is the share of the weight of the index. -/
structure Distributes (pow : K → K → K) (consumer : ConsumerZipfMandelbrot K) : Prop where
  length : consumer.pcum.length = consumer.n.toNat + 1
  zero : consumer.cumulative 0 = 0
  one : consumer.cumulative consumer.n.toNat = 1
  rises : ∀ i j, i < j → j ≤ consumer.n.toNat → consumer.cumulative i < consumer.cumulative j
  intervals : ∀ i, 1 ≤ i → i ≤ consumer.n.toNat → consumer.cumulative i - consumer.cumulative (i - 1) =
    weight pow consumer.q consumer.s i / cumulated (weight pow consumer.q consumer.s) consumer.n.toNat
  draws : ∀ (draws : List K) (random : K), (draws.find? fun random => random ≠ 0) = some random → 0 < random → random ≤ 1 →
    ∃ i, consumer.getNextSeq draws = some i ∧ FallsInto consumer.cumulative consumer.n.toNat random i ∧
      ∀ j, FallsInto consumer.cumulative consumer.n.toNat random j → j = i

def PositiveWeights (pow : K → K → K) (consumer : ConsumerZipfMandelbrot K) : Prop :=
  ∀ i, 1 ≤ i → i ≤ consumer.n.toNat → 0 < weight pow consumer.q consumer.s i

variable [IsStrictOrderedRing K]

theorem Filled.distributes {consumer : ConsumerZipfMandelbrot K} (filled : Filled pow consumer) (nonempty : 1 ≤ consumer.n.toNat)
    (positive : PositiveWeights pow consumer) : Distributes pow consumer := by
  have entries : ∀ i ≤ consumer.n.toNat,
      consumer.cumulative i = share (weight pow consumer.q consumer.s) consumer.n.toNat i := by
    intro i inside
    rw [cumulative,filled,List.getD_eq_getElem?_getD,tableOf_get (Nat.lt_succ_of_le inside),Option.getD_some]
  have rises : ∀ i j, i < j → j ≤ consumer.n.toNat → consumer.cumulative i < consumer.cumulative j := by
    intro i j before inside
    rw [entries i (before.le.trans inside),entries j inside]
    exact share_lt positive nonempty before inside
  have same : ∀ {random i}, FallsInto (share (weight pow consumer.q consumer.s) consumer.n.toNat) consumer.n.toNat random i →
      FallsInto consumer.cumulative consumer.n.toNat random i := by
    rintro random i ⟨first,inside,below,reached⟩
    refine ⟨first,inside,?_,?_⟩
    · rw [entries _ ((Nat.sub_le i 1).trans inside)]
      exact below
    · rw [entries i inside]
      exact reached
  refine ⟨?_,?_,?_,rises,?_,?_⟩
  · rw [filled,tableOf,List.length_map,List.length_range]
  · rw [entries 0 (Nat.zero_le _),share_zero]
  · rw [entries _ (Nat.le_refl _),share_self positive nonempty]
  · intro i first inside
    rw [entries i inside,entries (i - 1) ((Nat.sub_le i 1).trans inside)]
    exact share_sub first
  · intro draws random drawn above below
    have last : random ≤ share (weight pow consumer.q consumer.s) consumer.n.toNat consumer.n.toNat := by
      rw [share_self positive nonempty]
      exact below
    have start : share (weight pow consumer.q consumer.s) consumer.n.toNat (1 - 1) < random := by
      rw [Nat.sub_self,share_zero]
      exact above
    obtain ⟨i,found,falls⟩ := search_spec last (Nat.add_comm 1 _) (Nat.le_refl 1) start
    refine ⟨i,?_,same falls,fun j other => other.unique rises (same falls)⟩
    rw [getNextSeq,drawn,Option.bind_some,filled]
    exact found

/-- What is asked of the calls that set a consumer up: they are carried out, and with positive weights draws are distributed by them. -/
def SetUp (pow : K → K → K) (calls : List (Call K)) : Prop :=
  ∃ consumer, calls.foldlM (perform pow) constructed = some consumer ∧
    (1 ≤ consumer.n.toNat → PositiveWeights pow consumer → Distributes pow consumer)

/-- Just the greatest number of contents cannot be set. -/
theorem setUp_iff (pow : K → K → K) (first : Call K) (rest : List (Call K)) :
    SetUp pow (first :: rest) ↔ ∀ call ∈ first :: rest, call ≠ .setNumberOfContents 4294967295 := by
  rw [List.forall_mem_cons,SetUp,List.foldlM_cons]
  have hundred : (100 : UInt32) ≠ 4294967295 := by decide
  have initial : (constructed : ConsumerZipfMandelbrot K).n ≠ 4294967295 := hundred
  rcases perform_cases pow constructed initial first with ⟨greatest,fails⟩ | ⟨other,started,done,below,filled⟩
  · rw [fails]
    constructor
    · rintro ⟨consumer,run,_⟩
      exact nomatch run
    · intro others
      exact absurd greatest others.1
  · rw [done]
    rcases foldlM_perform rest below filled with ⟨others,final,run,full⟩ | ⟨greatest,fails⟩
    · constructor
      · exact fun _ => ⟨other,others⟩
      · exact fun _ => ⟨final,run,full.distributes⟩
    · constructor
      · rintro ⟨consumer,run,_⟩
        exact nomatch fails.symm.trans run
      · exact fun others => absurd others.2 greatest

/-- Three contents with the weights 1, 1/2 and 1/3. -/
theorem setUp_threeContents : SetUp (fun (base _ : ℚ) => base) [.setNumberOfContents 3,.setQ 0,.setS 1] :=
  (setUp_iff _ _ _).mpr (by simp)

theorem greatest_unset : ¬SetUp (fun (base _ : ℚ) => base) [.setNumberOfContents 4294967295] := by
  rintro ⟨consumer,run,_⟩
  have fails := setNumberOfContents_greatest (fun (base _ : ℚ) => base) constructed
  have same : setNumberOfContents (fun (base _ : ℚ) => base) constructed 4294967295 = some consumer := run
  exact nomatch fails.symm.trans same

end

end ConsumerZipfMandelbrot

end Ncfcc.Apps
