import Ncfcc.Library.Iteration
import Ncfcc.Nfd.Table.LongestPrefixMatch

/-! The iterators of the name tree. The full enumeration goes on behind the bucket of an
entry's hash; the partial one walks a subtree along children and parents, leaving out what
a selector cuts off; all matches are met on the way up from the longest one. -/
namespace Ncfcc.Nfd.NameTree
open Ncfcc.Library

/-- A number cut to `int`. -/
def toInt (number : Nat) : Int := Int.bmod number (2^32)

section
variable (tree : NameTree)

def selects (selector : Entry → Bool) (id : Nat) : Bool := (tree.entries id).any selector

def chainAfter (id : Nat) : List Nat :=
  match (List.range tree.nBuckets).find? (fun bucket => id ∈ tree.buckets bucket) with
  | none => []
  | some bucket => ((tree.buckets bucket).dropWhile fun other => other ≠ id).drop 1

/-- The buckets of the loop behind the bucket of an entry's hash, with its `int` counter. -/
def laterBuckets (id : Nat) : List Nat :=
  match tree.entries id with
  | none => []
  | some entry => (List.range tree.nBuckets).filter fun bucket =>
      toInt (tree.location entry.hash + 1) ≤ bucket ∧ bucket < toInt tree.nBuckets

/-- The nodes that `operator++` of a full enumeration looks at, in order. -/
def visitsAfter (id : Nat) : List Nat :=
  let chain := tree.chainAfter id
  chain ++ (tree.laterBuckets (chain.getLastD id)).flatMap tree.buckets

/-- The bound is never met in a tree whose entries are in their buckets; in others the
enumeration need not end. -/
def fullEnumerate (selector : Entry → Bool) : List Nat :=
  iterate (fun id => (tree.visitsAfter id).find? (tree.selects selector)) tree.nextEntry
    ((Chains.walk tree.nBuckets tree.buckets).find? (tree.selects selector))

def hasChildren (id : Nat) : Bool := (tree.entries id).any fun entry => !entry.children.isEmpty

section
variable (root : Nat) (selector : Nat → Bool × Bool)

/-- An entry that the iterator comes to, whether its children are to be visited, and whether
the entry is accepted. -/
def arrive (id : Nat) : Nat × Bool × Bool := (id,(selector id).2 && tree.hasChildren id,(selector id).1)

/-- One round of `operator++` of a partial enumeration: to the first child, to the next
sibling, or back to the parent. None stands for the end. -/
def advance (id : Nat) (shouldVisitChildren : Bool) : Option (Nat × Bool × Bool) :=
  (tree.entries id).bind fun entry =>
    if shouldVisitChildren then entry.children.head?.map (tree.arrive selector)
    else if id = root then none
    else
      entry.parent.bind fun parent => (tree.entries parent).map fun above =>
        match above.children[above.children.idxOf id + 1]? with
        | some sibling => tree.arrive selector sibling
        | none => (parent,false,false)

/-- The entries accepted on the way, for at most as many rounds as `fuel`. -/
def walkSubtree : (fuel : Nat) → Nat → Bool → List Nat
  | 0, _, _ => []
  | fuel + 1, id, shouldVisitChildren =>
    match tree.advance root selector id shouldVisitChildren with
    | none => []
    | some (next,visit,accepted) =>
      if accepted then next :: walkSubtree fuel next visit else walkSubtree fuel next visit

end

/-- Each entry of the subtree is come to at most once from above and left at most once. -/
def partialEnumerate (hashComponent : Component → UInt64) (name : Name) (selector : Nat → Bool × Bool) : List Nat :=
  match tree.findExactMatch hashComponent name with
  | none => []
  | some root =>
    let (id,visit,accepted) := tree.arrive selector root
    let below := tree.walkSubtree root selector (2 * tree.nextEntry + 1) id visit
    if accepted then id :: below else below

/-- `findAllMatches` and its `operator++`: the selected ones among the found entry and those above it. -/
def upwards (selector : Entry → Bool) : (fuel : Nat) → Option Nat → List Nat
  | _, none => []
  | 0, some _ => []
  | fuel + 1, some id =>
    match tree.entries id with
    | none => []
    | some entry =>
      if selector entry then id :: upwards selector fuel entry.parent else upwards selector fuel entry.parent

def findAllMatches (hashComponent : Component → UInt64) (name : Name) (selector : Entry → Bool) : List Nat :=
  tree.upwards selector (name.length + 1) (tree.findLongestPrefixMatch hashComponent name selector)

end

section
variable {hashComponent : Component → UInt64} {tree : NameTree}

theorem toInt_of_lt {number : Nat} (small : number < 2^31) : toInt number = number := by
  unfold toInt
  rw [Int.bmod_def]
  split <;> omega

theorem Consistent.nItems_le (consistent : Consistent hashComponent tree) :
    (Chains.walk tree.nBuckets tree.buckets).length ≤ tree.nextEntry := by
  have inside : Chains.walk tree.nBuckets tree.buckets ⊆ List.range tree.nextEntry := by
    intro id member
    obtain ⟨key,stored⟩ := (consistent.chains.mem_walk id).mp member
    exact List.mem_range.mpr (consistent.names.fresh id key stored)
  have shorter := (List.subperm_of_subset consistent.chains.walk_nodup inside).length_le
  rwa [List.length_range] at shorter

private theorem drop_past (before after : List Nat) {id : Nat} (fresh : id ∉ before) :
    ((before ++ id :: after).dropWhile fun other => other ≠ id).drop 1 = after := by
  rw [List.dropWhile_append_of_pos]
  · simp
  · intro other inside
    simp only [ne_eq,decide_eq_true_eq]
    rintro rfl
    exact fresh inside

/-- What stands behind an item of a list without repetitions is determined. -/
private theorem after_unique {before after front back : List Nat} {id : Nat}
    (nodup : (before ++ id :: after).Nodup) (same : before ++ id :: after = front ++ id :: back) : after = back := by
  have first := (List.nodup_middle.mp nodup)
  have second := (List.nodup_middle.mp (same ▸ nodup))
  have left := drop_past before after fun inside : id ∈ before =>
    (List.nodup_cons.mp first).1 (List.mem_append_left _ inside)
  have right := drop_past front back fun inside : id ∈ front =>
    (List.nodup_cons.mp second).1 (List.mem_append_left _ inside)
  rw [same] at left
  exact left.symm.trans right

theorem range_split {bucket count : Nat} (bound : bucket < count) :
    List.range count = List.range bucket ++ bucket :: List.range' (bucket + 1) (count - (bucket + 1)) := by
  have parts : count = bucket + ((count - (bucket + 1)) + 1) := by omega
  conv_lhs => rw [parts,List.range_add]
  congr 1
  rw [List.range_succ_eq_map,List.map_cons,List.map_map,List.range'_eq_map_range]
  congr 1
  apply List.map_congr_left
  intro offset _
  simp only [Function.comp_apply]
  omega

theorem Consistent.laterBuckets_eq (consistent : Consistent hashComponent tree) (small : tree.nBuckets < 2^31)
    {bucket id : Nat} (bound : bucket < tree.nBuckets) (inside : id ∈ tree.buckets bucket) :
    tree.laterBuckets id = List.range' (bucket + 1) (tree.nBuckets - (bucket + 1)) := by
  obtain ⟨key,known,place⟩ := consistent.chains.placed bucket bound id inside
  obtain ⟨entry,stored,rfl⟩ := entry_of_keys known
  have location : tree.location entry.hash = bucket := place
  unfold laterBuckets
  rw [stored]
  dsimp only
  rw [location,toInt_of_lt (by omega),toInt_of_lt small,range_split bound,List.filter_append]
  rw [List.filter_eq_nil_iff.mpr,List.filter_cons_of_neg,List.filter_eq_self.mpr,List.nil_append]
  · intro later member
    have := List.mem_range'_1.mp member
    simp only [decide_eq_true_eq]
    omega
  · simp
  · intro earlier member
    have := List.mem_range.mp member
    simp only [decide_eq_true_eq]
    omega

theorem Consistent.chainAfter_eq (consistent : Consistent hashComponent tree) {bucket id : Nat} (bound : bucket < tree.nBuckets)
    {front back : List Nat} (chain : tree.buckets bucket = front ++ id :: back) (fresh : id ∉ front) : tree.chainAfter id = back := by
  have inside : id ∈ tree.buckets bucket := by
    rw [chain]
    exact List.mem_append_right _ List.mem_cons_self
  have only : ∀ other < tree.nBuckets, id ∈ tree.buckets other → other = bucket := by
    intro other limit there
    obtain ⟨key,known,place⟩ := consistent.chains.placed bucket bound id inside
    obtain ⟨same,found,elsewhere⟩ := consistent.chains.placed other limit id there
    rw [known] at found
    cases found
    exact elsewhere.symm.trans place
  have found : (List.range tree.nBuckets).find? (fun other => id ∈ tree.buckets other) = some bucket := by
    cases searched : (List.range tree.nBuckets).find? (fun other => id ∈ tree.buckets other) with
    | none =>
      have missing := List.find?_eq_none.mp searched bucket (List.mem_range.mpr bound)
      simp [inside] at missing
    | some other =>
      have there := List.find?_some searched
      have limit := List.mem_range.mp (List.mem_of_find?_eq_some searched)
      rw [only other limit (of_decide_eq_true there)]
  rw [chainAfter,found]
  dsimp only
  rw [chain]
  exact drop_past front back fresh

theorem walk_split {bucket id : Nat} (bound : bucket < tree.nBuckets) {front back : List Nat}
    (chain : tree.buckets bucket = front ++ id :: back) :
    Chains.walk tree.nBuckets tree.buckets = ((List.range bucket).flatMap tree.buckets ++ front) ++ id :: (back ++
      (List.range' (bucket + 1) (tree.nBuckets - (bucket + 1))).flatMap tree.buckets) := by
  rw [Chains.walk,range_split bound,List.flatMap_append,List.flatMap_cons,chain]
  simp

/-- The nodes visited behind a node are those behind it in the walk, if the loop goes through the later chains. -/
theorem Consistent.visitsAfter_of_later (consistent : Consistent hashComponent tree) {before after : List Nat} {id bucket : Nat}
    (split : Chains.walk tree.nBuckets tree.buckets = before ++ id :: after) (bound : bucket < tree.nBuckets)
    (inside : id ∈ tree.buckets bucket) (later : ∀ last ∈ tree.buckets bucket, (tree.laterBuckets last).flatMap tree.buckets =
      (List.range' (bucket + 1) (tree.nBuckets - (bucket + 1))).flatMap tree.buckets) : tree.visitsAfter id = after := by
  have nodup := consistent.chains.walk_nodup
  obtain ⟨front,back,chain,fresh⟩ := List.eq_append_cons_of_mem inside
  have last : back.getLastD id ∈ tree.buckets bucket := by
    rw [chain]
    exact List.mem_append_right _ List.getLastD_mem_cons
  have whole := walk_split bound chain
  unfold visitsAfter
  dsimp only
  rw [consistent.chainAfter_eq bound chain fresh,later _ last]
  rw [split] at nodup whole
  exact (after_unique nodup whole).symm

/-- The nodes visited behind a node are those behind it in the walk through all chains. -/
theorem Consistent.visitsAfter_eq (consistent : Consistent hashComponent tree) (small : tree.nBuckets < 2^31)
    {before after : List Nat} {id : Nat} (split : Chains.walk tree.nBuckets tree.buckets = before ++ id :: after) :
    tree.visitsAfter id = after := by
  have member : id ∈ Chains.walk tree.nBuckets tree.buckets := by
    rw [split]
    exact List.mem_append_right _ (List.mem_cons_self ..)
  obtain ⟨bucket,bound,inside⟩ := (Chains.mem_walk _ _ _).mp member
  apply consistent.visitsAfter_of_later split bound inside
  intro last there
  rw [consistent.laterBuckets_eq small bound there]

theorem Consistent.fullEnumerate_eq (consistent : Consistent hashComponent tree) (small : tree.nBuckets < 2^31)
    (selector : Entry → Bool) :
    tree.fullEnumerate selector = (Chains.walk tree.nBuckets tree.buckets).filter (tree.selects selector) := by
  refine iterate_find ?_ consistent.nItems_le
  intro before id after split
  rw [consistent.visitsAfter_eq small split]

theorem Consistent.mem_walk_filter (consistent : Consistent hashComponent tree) (selector : Entry → Bool) (id : Nat) :
    id ∈ (Chains.walk tree.nBuckets tree.buckets).filter (tree.selects selector) ↔
      ∃ entry, tree.entries id = some entry ∧ selector entry = true := by
  rw [List.mem_filter,consistent.chains.mem_walk]
  unfold selects keys
  cases tree.entries id with
  | none => simp
  | some entry => simp

theorem Consistent.mem_fullEnumerate (consistent : Consistent hashComponent tree) (small : tree.nBuckets < 2^31)
    (selector : Entry → Bool) (id : Nat) :
    id ∈ tree.fullEnumerate selector ↔ ∃ entry, tree.entries id = some entry ∧ selector entry = true := by
  rw [consistent.fullEnumerate_eq small,consistent.mem_walk_filter]

/-- The walk up the parents meets each selected prefix of an entry's name once. -/
theorem Consistent.upwards_spec (consistent : Consistent hashComponent tree) (selector : Entry → Bool) (fuel id : Nat)
    (entry : Entry) (stored : tree.entries id = some entry) (enough : entry.name.length < fuel) :
    (tree.upwards selector fuel (some id)).Nodup ∧
      ∀ other, other ∈ tree.upwards selector fuel (some id) ↔ ∃ found, tree.Candidate entry.name selector other found := by
  induction fuel generalizing id entry with
  | zero => exact absurd enough (Nat.not_lt_zero _)
  | succ fuel ih =>
    -- What is met above the entry, which is not the entry itself.
    have rest : (tree.upwards selector fuel entry.parent).Nodup ∧ id ∉ tree.upwards selector fuel entry.parent ∧
        ∀ other, other ∈ tree.upwards selector fuel entry.parent ↔
          entry.name ≠ [] ∧ ∃ found, tree.Candidate entry.name.dropLast selector other found := by
      rcases consistent.parent_cases stored with ⟨parent,empty⟩ | ⟨up,above,parent,found,shorter,length⟩
      · have stop : tree.upwards selector fuel none = [] := by cases fuel <;> rfl
        rw [parent,stop]
        simp [empty]
      · rw [parent,← shorter]
        obtain ⟨nodup,members⟩ := ih up above found (by omega)
        refine ⟨nodup,?_,?_⟩
        · intro inside
          obtain ⟨same,known,shorter,-⟩ := (members id).mp inside
          rw [stored] at known
          cases known
          have bound := shorter.length_le
          omega
        · intro other
          rw [members]
          exact ⟨fun candidate => ⟨List.ne_nil_of_length_pos (by omega),candidate⟩,fun both => both.2⟩
    obtain ⟨nodup,fresh,members⟩ := rest
    have cases := consistent.candidate_cases selector stored
    unfold upwards
    rw [stored]
    dsimp only
    split
    · rename_i selected
      refine ⟨List.nodup_cons.mpr ⟨fresh,nodup⟩,?_⟩
      intro other
      rw [List.mem_cons,members]
      simp only [cases,selected,and_true,exists_or,exists_and_left,exists_eq]
    · rename_i skipped
      refine ⟨nodup,?_⟩
      intro other
      rw [members]
      simp [cases,skipped]

end

end Ncfcc.Nfd.NameTree
