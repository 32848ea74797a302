import Ncfcc.Nfd.Table.NameTreeSubtree

/-! The enumerations as runs of their iterators. The full one goes from bucket to bucket with an `int`; the
partial one emits a part of the subtree in pre-order. -/
namespace Ncfcc.Nfd.NameTree
open Ncfcc.Library

section
variable (tree : NameTree)

/-- `operator++` of a full enumeration. None where the loop reads a bucket at a negative place. -/
def increment (selector : Entry → Bool) (id : Nat) : Option (Option Nat) :=
  let chain := tree.chainAfter id
  match chain.find? (tree.selects selector) with
  | some next => some (some next)
  | none =>
    (tree.entries (chain.getLastD id)).bind fun entry =>
      let newLocation := toInt (tree.location entry.hash + 1)
      if newLocation < 0 ∧ newLocation < toInt tree.nBuckets then none
      else some (((tree.laterBuckets (chain.getLastD id)).flatMap tree.buckets).find? (tree.selects selector))

def FullVisits (selector : Entry → Bool) (visited : List Nat) : Prop :=
  match (Chains.walk tree.nBuckets tree.buckets).find? (tree.selects selector) with
  | none => visited = []
  | some first => Emits (visiting (tree.increment selector)) first visited

def PartialVisits (hashComponent : Component → UInt64) (name : Name) (selector : Nat → Bool × Bool) (visited : List Nat) : Prop :=
  match tree.findExactMatch hashComponent name with
  | none => visited = []
  | some root => ∃ rest, Emits (tree.round selector root) (root,tree.descends selector root) rest ∧
      visited = (tree.come selector root).1 ++ rest

/-- The first entry is above the second, or a child on its way comes before one on the way of the second. -/
def Precedes (first second : Nat) : Prop :=
  ∃ one other, tree.entries first = some one ∧ tree.entries second = some other ∧
    (one.name <+: other.name ∧ one.name ≠ other.name ∨
      ∃ id left right lower upper, [left,right].Sublist (tree.childrenOf id) ∧ tree.entries left = some lower ∧
        tree.entries right = some upper ∧ lower.name <+: one.name ∧ upper.name <+: other.name)

/-- A full enumeration visits each selected entry once and nothing else. -/
def VisitsSelected : Prop :=
  ∀ selector, ∃ visited, tree.FullVisits selector visited ∧ visited.Nodup ∧
    ∀ id, id ∈ visited ↔ ∃ entry, tree.entries id = some entry ∧ selector entry = true

/-- A partial enumeration visits in pre-order the accepted entries under a name that no entry above them cuts off. -/
def VisitsSubtrees (hashComponent : Component → UInt64) : Prop :=
  ∀ name selector, ∃ visited, tree.PartialVisits hashComponent name selector visited ∧ visited.Nodup ∧
    visited.Pairwise tree.Precedes ∧ ∀ other, other ∈ visited ↔ (selector other).1 = true ∧
      ∃ found, tree.entries other = some found ∧ name <+: found.name ∧
        ∀ between middle, tree.entries between = some middle → name <+: middle.name → middle.name <+: found.name →
          between ≠ other → (selector between).2 = true

/-- The `int` counter reaches the bucket of every entry; or all entries are in one bucket, and the loop behind it
does not start at a negative place. -/
def CountsBuckets : Prop :=
  ∀ id entry, tree.entries id = some entry → (tree.location entry.hash : Int) < toInt tree.nBuckets ∨
    (∀ other found, tree.entries other = some found → tree.location found.hash = tree.location entry.hash) ∧
      ¬(toInt (tree.location entry.hash + 1) < 0 ∧ toInt (tree.location entry.hash + 1) < toInt tree.nBuckets)

end

section
variable {hashComponent : Component → UInt64} {tree : NameTree} {bucket id : Nat}

theorem toInt_lt (number : Nat) : toInt number < 2^31 := by
  unfold toInt
  rw [Int.bmod_def]
  split <;> omega

private theorem countsBuckets_of_lt (small : tree.nBuckets < 2^31) (positive : 0 < tree.nBuckets) : tree.CountsBuckets := by
  intro id entry _
  left
  rw [toInt_of_lt small]
  exact Int.ofNat_lt.mpr (Nat.mod_lt _ positive)

/-- The loop behind a bucket does not start at a negative place. -/
theorem CountsBuckets.defined (counts : tree.CountsBuckets) {entry : Entry} (stored : tree.entries id = some entry) :
    ¬(toInt (tree.location entry.hash + 1) < 0 ∧ toInt (tree.location entry.hash + 1) < toInt tree.nBuckets) := by
  rcases counts id entry stored with counted | ⟨-,defined⟩
  · have limit := toInt_lt tree.nBuckets
    rw [toInt_of_lt (by omega)]
    omega
  · exact defined

private theorem flatMap_filter_of_nil {chains : Nat → List Nat} {passes : Nat → Bool} {places : List Nat}
    (empty : ∀ place ∈ places, passes place = false → chains place = []) :
    (places.filter passes).flatMap chains = places.flatMap chains := by
  induction places with
  | nil => rfl
  | cons place rest ih =>
    have others := ih fun later inside => empty later (List.mem_cons_of_mem _ inside)
    cases passed : passes place with
    | true => rw [List.filter_cons_of_pos passed,List.flatMap_cons,List.flatMap_cons,others]
    | false =>
      rw [List.filter_cons_of_neg (by simp [passed]),List.flatMap_cons,empty place List.mem_cons_self passed,others]
      rfl

section
variable (consistent : Consistent hashComponent tree)
include consistent

theorem Consistent.entry_of_mem (bound : bucket < tree.nBuckets) (inside : id ∈ tree.buckets bucket) :
    ∃ entry, tree.entries id = some entry ∧ tree.location entry.hash = bucket := by
  obtain ⟨key,known,place⟩ := consistent.chains.placed bucket bound id inside
  obtain ⟨entry,stored,rfl⟩ := entry_of_keys known
  exact ⟨entry,stored,place⟩

theorem Consistent.mem_bucket {entry : Entry} (stored : tree.entries id = some entry) :
    tree.location entry.hash < tree.nBuckets ∧ id ∈ tree.buckets (tree.location entry.hash) := by
  exact ⟨Nat.mod_lt _ consistent.chains.positive,consistent.chains.chained id entry.key (keys_of_entry stored)⟩

/-- With such entries the loop behind a bucket goes through all later entries. -/
theorem Consistent.laterBuckets_of_counts (counts : tree.CountsBuckets) (bound : bucket < tree.nBuckets) (inside : id ∈ tree.buckets bucket) :
    (tree.laterBuckets id).flatMap tree.buckets =
      (List.range' (bucket + 1) (tree.nBuckets - (bucket + 1))).flatMap tree.buckets := by
  obtain ⟨entry,stored,location⟩ := consistent.entry_of_mem bound inside
  -- a bucket with an entry is reached, unless it is the only one
  have reached : ∀ other < tree.nBuckets, other ≠ bucket → tree.buckets other ≠ [] → (other : Int) < toInt tree.nBuckets := by
    intro other limit apart occupied
    obtain ⟨item,there⟩ := List.exists_mem_of_ne_nil _ occupied
    obtain ⟨found,known,place⟩ := consistent.entry_of_mem limit there
    rcases counts item found known with counted | ⟨alone,-⟩
    · rwa [place] at counted
    · exact absurd (place.symm.trans ((alone id entry stored).symm.trans location)) apart
  unfold laterBuckets
  rw [stored]
  dsimp only
  rw [location]
  by_cases counted : (bucket : Int) < toInt tree.nBuckets
  · have limit := toInt_lt tree.nBuckets
    rw [toInt_of_lt (by omega : bucket + 1 < 2^31),range_split bound,List.filter_append,List.filter_cons_of_neg (by simp),
      List.filter_eq_nil_iff.mpr,List.nil_append]
    · apply flatMap_filter_of_nil
      intro later member missed
      have range := List.mem_range'_1.mp member
      by_contra occupied
      have counted := reached later (by omega) (by omega) occupied
      simp only [decide_eq_false_iff_not,not_and] at missed
      exact missed (by omega) counted
    · intro earlier member
      have range := List.mem_range.mp member
      simp only [decide_eq_true_eq]
      omega
  · have alone := ((counts id entry stored).resolve_left (location ▸ counted)).1
    have empty : ∀ other < tree.nBuckets, other ≠ bucket → tree.buckets other = [] := by
      intro other limit apart
      rw [List.eq_nil_iff_forall_not_mem]
      intro item there
      obtain ⟨found,known,place⟩ := consistent.entry_of_mem limit there
      exact apart (place.symm.trans ((alone item found known).trans location))
    rw [List.flatMap_eq_nil_iff.mpr,List.flatMap_eq_nil_iff.mpr]
    · intro later member
      have range := List.mem_range'_1.mp member
      exact empty later (by omega) (by omega)
    · intro other member
      obtain ⟨limit,passed⟩ := List.mem_filter.mp member
      have range := of_decide_eq_true passed
      exact empty other (List.mem_range.mp limit) (by omega)

theorem Consistent.increment_of_counts (counts : tree.CountsBuckets) (selector : Entry → Bool) {before after : List Nat}
    (split : Chains.walk tree.nBuckets tree.buckets = before ++ id :: after) :
    tree.increment selector id = some (after.find? (tree.selects selector)) := by
  have member : id ∈ Chains.walk tree.nBuckets tree.buckets := by
    rw [split]
    exact List.mem_append_right _ List.mem_cons_self
  obtain ⟨bucket,bound,inside⟩ := (Chains.mem_walk _ _ _).mp member
  have visits := consistent.visitsAfter_of_later split bound inside fun last there => consistent.laterBuckets_of_counts counts bound there
  obtain ⟨front,back,chain,fresh⟩ := List.eq_append_cons_of_mem inside
  have last : back.getLastD id ∈ tree.buckets bucket := by
    rw [chain]
    exact List.mem_append_right _ List.getLastD_mem_cons
  obtain ⟨entry,stored,location⟩ := consistent.entry_of_mem bound last
  unfold visitsAfter at visits
  unfold increment
  dsimp only at visits ⊢
  rw [consistent.chainAfter_eq bound chain fresh] at visits ⊢
  rw [← visits,List.find?_append]
  cases back.find? (tree.selects selector) with
  | some next => rfl
  | none =>
    dsimp only
    rw [stored,Option.bind_some,if_neg (counts.defined stored),Option.none_or]

/-- With such entries the full enumeration goes through all chains. -/
theorem Consistent.fullVisits_of_counts (counts : tree.CountsBuckets) (selector : Entry → Bool) :
    tree.FullVisits selector ((Chains.walk tree.nBuckets tree.buckets).filter (tree.selects selector)) := by
  unfold FullVisits
  cases found : (Chains.walk tree.nBuckets tree.buckets).find? (tree.selects selector) with
  | none => exact List.filter_eq_nil_iff.mpr (List.find?_eq_none.mp found)
  | some first => exact emits_filter (fun before id after split _ => consistent.increment_of_counts counts selector split) found

theorem Consistent.increment_eq (selector : Entry → Bool) (bound : bucket < tree.nBuckets) (inside : id ∈ tree.buckets bucket)
    (none : ∀ other ∈ tree.buckets bucket, other ≠ id → tree.selects selector other = false) :
    tree.increment selector id = if toInt (bucket + 1) < 0 ∧ toInt (bucket + 1) < toInt tree.nBuckets then Option.none
      else some ((((List.range tree.nBuckets).filter fun place : Nat => toInt (bucket + 1) ≤ place ∧ place < toInt tree.nBuckets).flatMap
        tree.buckets).find? (tree.selects selector)) := by
  obtain ⟨front,back,chain,fresh⟩ := List.eq_append_cons_of_mem inside
  have nodup := consistent.chains.single bucket bound
  rw [chain] at nodup
  have behind : ∀ other ∈ back, tree.selects selector other = false := by
    intro other later
    apply none other
    · rw [chain]
      exact List.mem_append_right _ (List.mem_cons_of_mem _ later)
    · rintro rfl
      exact (List.nodup_cons.mp (List.nodup_middle.mp nodup)).1 (List.mem_append_right _ later)
  have last : back.getLastD id ∈ tree.buckets bucket := by
    rw [chain]
    exact List.mem_append_right _ List.getLastD_mem_cons
  obtain ⟨entry,stored,location⟩ := consistent.entry_of_mem bound last
  unfold increment
  dsimp only
  rw [consistent.chainAfter_eq bound chain fresh,List.find?_eq_none.mpr fun other later => by simp [behind other later]]
  dsimp only
  rw [laterBuckets,stored,Option.bind_some]
  dsimp only
  rw [location]

theorem Consistent.selects_name {entry : Entry} (stored : tree.entries id = some entry) (other : Nat) :
    tree.selects (fun found => found.name = entry.name) other = true ↔ other = id := by
  unfold selects
  apply Iff.intro
  · intro selected
    cases known : tree.entries other with
    | none =>
      rw [known] at selected
      cases selected
    | some found =>
      rw [known] at selected
      exact consistent.names.distinct other id found.key entry.key (keys_of_entry known) (keys_of_entry stored)
        (of_decide_eq_true selected)
  · rintro rfl
    rw [stored,Option.any_some]
    exact decide_eq_true rfl

/-- Of two entries the counter reaches the one in the later bucket, if the enumeration of both visits both. -/
theorem Consistent.counted_of_visits {low high : Nat} {one other : Entry} (here : tree.entries low = some one)
    (there : tree.entries high = some other) (less : tree.location one.hash < tree.location other.hash) {visited : List Nat}
    (visits : tree.FullVisits (fun found => found.name = one.name || found.name = other.name) visited) (both : high ∈ visited) :
    (tree.location other.hash : Int) < toInt tree.nBuckets := by
  by_contra beyond
  have selected : ∀ id, tree.selects (fun found => found.name = one.name || found.name = other.name) id = true ↔ id = low ∨ id = high := by
    intro id
    rw [← consistent.selects_name here,← consistent.selects_name there]
    unfold selects
    cases tree.entries id <;> simp
  obtain ⟨bound,inside⟩ := consistent.mem_bucket here
  obtain ⟨limit,far⟩ := consistent.mem_bucket there
  have elsewhere : ∀ bucket < tree.nBuckets, bucket ≠ tree.location other.hash → high ∉ tree.buckets bucket := by
    intro bucket range apart among
    obtain ⟨same,known,place⟩ := consistent.entry_of_mem range among
    cases there.symm.trans known
    exact apart place.symm
  -- the enumeration starts at the entry in the earlier bucket
  obtain ⟨front,back,chain,fresh⟩ := List.eq_append_cons_of_mem inside
  have whole := walk_split bound chain
  have nodup := consistent.chains.walk_nodup
  rw [whole] at nodup
  have unselected : ∀ id ∈ (List.range (tree.location one.hash)).flatMap tree.buckets ++ front,
      ¬tree.selects (fun found => found.name = one.name || found.name = other.name) id = true := by
    intro id before
    rw [selected]
    rintro (rfl | rfl)
    · exact (List.nodup_cons.mp (List.nodup_middle.mp nodup)).1 (List.mem_append_left _ before)
    · rcases List.mem_append.mp before with earlier | within
      · obtain ⟨bucket,range,among⟩ := List.mem_flatMap.mp earlier
        have range := List.mem_range.mp range
        exact elsewhere bucket (by omega) (by omega) among
      · apply elsewhere _ bound (by omega)
        rw [chain]
        exact List.mem_append_left _ within
  unfold FullVisits at visits
  rw [whole,List.find?_append,List.find?_eq_none.mpr unselected,Option.none_or,
    List.find?_cons_of_pos ((selected low).mpr (.inl rfl))] at visits
  dsimp only at visits
  -- from there it does not come to the other
  have increment := consistent.increment_eq (fun found => found.name = one.name || found.name = other.name) bound inside
    (fun id among apart => Bool.eq_false_iff.mpr fun named => by
      rcases (selected id).mp named with rfl | rfl
      · exact apart rfl
      · exact elsewhere _ bound (by omega) among)
  split at increment
  · exact visits.defined (by rw [visiting,increment]; rfl)
  · rw [List.find?_eq_none.mpr] at increment
    · have ends := visits.unique (.last (by rw [visiting,increment]; rfl))
      rw [ends,List.mem_singleton] at both
      subst both
      cases here.symm.trans there
      exact Nat.lt_irrefl _ less
    · intro id later
      rw [selected]
      obtain ⟨place,passed,among⟩ := List.mem_flatMap.mp later
      obtain ⟨range,passed⟩ := List.mem_filter.mp passed
      have passed := of_decide_eq_true passed
      obtain ⟨found,known,located⟩ := consistent.entry_of_mem (List.mem_range.mp range) among
      rintro (rfl | rfl)
      · cases here.symm.trans known
        have limit := toInt_lt tree.nBuckets
        rw [located,toInt_of_lt (by omega)] at passed
        omega
      · cases there.symm.trans known
        rw [located] at beyond
        exact beyond passed.2

/-- An enumeration that visits all selected entries, whatever is selected, has buckets that its counter reaches. -/
theorem Consistent.countsBuckets_of_visits (visits : tree.VisitsSelected) : tree.CountsBuckets := by
  intro id entry stored
  by_cases counted : (tree.location entry.hash : Int) < toInt tree.nBuckets
  · exact .inl counted
  · right
    apply And.intro
    · intro other found known
      by_contra apart
      obtain ⟨visited,run,-,members⟩ := visits fun item => item.name = entry.name || item.name = found.name
      rcases Nat.lt_or_gt_of_ne apart with before | behind
      · obtain ⟨visited,run,-,members⟩ := visits fun item => item.name = found.name || item.name = entry.name
        exact counted (consistent.counted_of_visits known stored before run ((members id).mpr ⟨entry,stored,by simp⟩))
      · have reached := consistent.counted_of_visits stored known behind run ((members other).mpr ⟨found,known,by simp⟩)
        omega
    · intro undefined
      obtain ⟨visited,run,-,members⟩ := visits fun item => item.name = entry.name
      obtain ⟨bound,inside⟩ := consistent.mem_bucket stored
      have increment := consistent.increment_eq (fun item => item.name = entry.name) bound inside
        (fun other _ apart => Bool.eq_false_iff.mpr fun named => apart ((consistent.selects_name stored other).mp named))
      rw [if_pos undefined] at increment
      unfold FullVisits at run
      split at run
      · have met := (members id).mpr ⟨entry,stored,by simp⟩
        rw [run] at met
        cases met
      · rename_i first found
        obtain rfl := (consistent.selects_name stored first).mp (List.find?_some found)
        exact run.defined (by rw [visiting,increment]; rfl)

/-- What is come to from an entry on is in pre-order. -/
theorem Consistent.below_precedes (selector : Nat → Bool × Bool) (depth : Nat) {entry : Entry} (stored : tree.entries id = some entry)
    (deep : tree.Deep entry depth) : (id :: tree.below selector depth id).Pairwise tree.Precedes := by
  induction depth generalizing id entry with
  | zero => exact List.pairwise_singleton _ _
  | succ depth ih =>
    rw [List.pairwise_cons]
    apply And.intro
    · intro other met
      obtain ⟨found,known,under,longer,-⟩ := (consistent.mem_below selector (depth + 1) stored deep other).mp met
      exact ⟨entry,found,stored,known,.inl ⟨under,longer.symm⟩⟩
    · rw [below]
      split
      · rw [List.pairwise_flatMap]
        apply And.intro
        · intro child inside
          obtain ⟨lower,known,under,length⟩ := consistent.child_spec stored inside
          exact ih known (deep.child under length)
        · rw [List.pairwise_iff_forall_sublist]
          intro left right ordered one here other there
          have inside := ordered.subset
          obtain ⟨lower,known,under,length⟩ := consistent.child_spec stored (inside List.mem_cons_self)
          obtain ⟨upper,also,beneath,size⟩ := consistent.child_spec stored (inside (List.mem_cons_of_mem _ List.mem_cons_self))
          obtain ⟨first,found,above⟩ := consistent.of_mem_below known (deep.child under length) here
          obtain ⟨second,found',above'⟩ := consistent.of_mem_below also (deep.child beneath size) there
          exact ⟨first,second,found,found',.inr ⟨id,left,right,lower,upper,ordered,known,also,above,above'⟩⟩
      · exact List.Pairwise.nil

theorem Consistent.visitsSubtrees : tree.VisitsSubtrees hashComponent := by
  intro name selector
  unfold PartialVisits
  cases searched : tree.findExactMatch hashComponent name with
  | none =>
    refine ⟨[],rfl,List.nodup_nil,List.Pairwise.nil,?_⟩
    intro other
    refine iff_of_false List.not_mem_nil ?_
    rintro ⟨-,found,known,under,-⟩
    obtain ⟨root,key,held,named⟩ := consistent.names.closed found.name name under other found.key (keys_of_entry known) rfl
    obtain ⟨entry,stored,rfl⟩ := entry_of_keys held
    have there := (consistent.findExactMatch_iff name root).mpr ⟨entry,stored,named⟩
    cases searched.symm.trans there
  | some root =>
    obtain ⟨entry,stored,rfl⟩ := (consistent.findExactMatch_iff name root).mp searched
    obtain ⟨depth,deep⟩ := consistent.exists_deep entry
    have nodup : (root :: tree.below selector depth root).Nodup := by
      rw [List.nodup_cons]
      apply And.intro
      · intro met
        obtain ⟨found,known,-,longer,-⟩ := (consistent.mem_below selector depth stored deep root).mp met
        cases stored.symm.trans known
        exact longer rfl
      · exact consistent.below_nodup depth stored deep
    refine ⟨(root :: tree.below selector depth root).filter fun id => (selector id).1,?_,nodup.filter _,
      (consistent.below_precedes selector depth stored deep).filter _,?_⟩
    · refine ⟨_,consistent.emits_below selector stored deep,?_⟩
      rw [List.filter_cons]
      unfold come
      split <;> rfl
    · intro other
      rw [List.mem_filter,and_comm]
      exact and_congr_right fun _ => consistent.mem_subtree selector stored deep other

/-- All enumerations visit what they shall if and only if the counter of the full one reaches the buckets. -/
theorem Consistent.enumerations_iff : tree.VisitsSelected ∧ tree.VisitsSubtrees hashComponent ↔ tree.CountsBuckets := by
  apply Iff.intro
  · rintro ⟨visits,-⟩
    exact consistent.countsBuckets_of_visits visits
  · intro counts
    refine ⟨?_,consistent.visitsSubtrees⟩
    intro selector
    exact ⟨_,consistent.fullVisits_of_counts counts selector,consistent.chains.walk_nodup.filter _,consistent.mem_walk_filter selector⟩

end

end

private theorem lookup_consistent (nBuckets : Nat) (positive : 0 < nBuckets) (name : Name) (safe : LookupSafe cityHash (initial nBuckets) name) :
    Consistent cityHash ((initial nBuckets).lookup cityHash name).1 :=
  (initial_consistent nBuckets positive).lookup name safe

/-- A table of eight buckets. -/
theorem enumerations_eightBuckets : ((initial 8).lookup cityHash [[0x41]]).1.VisitsSelected := by
  have consistent := lookup_consistent 8 (by decide) [[0x41]] (by decide +kernel)
  exact (consistent.enumerations_iff.mpr (countsBuckets_of_lt (by decide +kernel) consistent.chains.positive)).1

/-- With 2^31 buckets the counter reaches no second bucket, and `/A` is not met behind the root. -/
theorem wideTable_missed : Consistent cityHash ((initial (2^31)).lookup cityHash [[0x41]]).1 ∧
    ¬((initial (2^31)).lookup cityHash [[0x41]]).1.VisitsSelected := by
  have consistent := lookup_consistent (2^31) (by decide) [[0x41]] (by decide +kernel)
  refine ⟨consistent,?_⟩
  intro visits
  have counts := consistent.countsBuckets_of_visits visits
  have root := (Option.some_get (by decide +kernel : (((initial (2^31)).lookup cityHash [[0x41]]).1.entries 0).isSome = true)).symm
  have below := (Option.some_get (by decide +kernel : (((initial (2^31)).lookup cityHash [[0x41]]).1.entries 1).isSome = true)).symm
  rcases counts 1 _ below with counted | ⟨alone,-⟩
  · revert counted
    decide +kernel
  · have same := alone 0 _ root
    revert same
    decide +kernel

end Ncfcc.Nfd.NameTree
