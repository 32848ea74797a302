import Ncfcc.Nfd.Table.NameTree

/-! The name tree without its children and attachments: of each entry its hash, its
name and its parent, and the chains. The names and the chains have an invariant each,
which the three changes the tree makes keep; a rehash keeps the second only if no
hash changes its bucket when it is cut to 32 bits. -/
namespace Ncfcc.Nfd.NameTree
open Ncfcc.Library

structure Key where
  hash : UInt64
  name : Name
  parent : Option Nat

/-- Of two entries with one hash, the shorter name of a prefix pair is chained first. -/
def Before (keys : Nat → Option Key) (first second : Nat) : Prop :=
  ∀ a b, keys first = some a → keys second = some b → a.hash = b.hash → b.name <+: a.name → b.name = a.name

/-- The names form a tree: one entry a name, each below the entry of the name one shorter. -/
structure Names (hashComponent : Component → UInt64) (keys : Nat → Option Key) (nextEntry : Nat) : Prop where
  hashed : ∀ id key, keys id = some key → key.hash = computeHash hashComponent key.name
  distinct : ∀ first second a b, keys first = some a → keys second = some b → a.name = b.name → first = second
  fresh : ∀ id key, keys id = some key → id < nextEntry
  root : ∀ id key, keys id = some key → (key.parent = none ↔ key.name = [])
  above : ∀ id key parent, keys id = some key → key.parent = some parent →
    ∃ other, keys parent = some other ∧ other.name = key.name.dropLast

/-- Every entry is in the chain of its hash, once, and nothing else is chained. -/
structure Chained (keys : Nat → Option Key) (buckets : Nat → List Nat) (nBuckets nItems : Nat) : Prop where
  positive : 0 < nBuckets
  placed : ∀ bucket < nBuckets, ∀ id ∈ buckets bucket,
    ∃ key, keys id = some key ∧ key.hash.toNat % nBuckets = bucket
  chained : ∀ id key, keys id = some key → id ∈ buckets (key.hash.toNat % nBuckets)
  single : ∀ bucket < nBuckets, (buckets bucket).Nodup
  ordered : ∀ bucket < nBuckets, (buckets bucket).Pairwise (Before keys)
  counted : nItems = (Chains.walk nBuckets buckets).length

namespace Names
variable {hashComponent : Component → UInt64} {keys : Nat → Option Key} {nextEntry : Nat}

theorem empty : Names hashComponent (fun _ => none) 0 := by
  constructor <;> simp

theorem closed (names : Names hashComponent keys nextEntry) (name below : Name) (shorter : below <+: name)
    (id : Nat) (key : Key) (stored : keys id = some key) (named : key.name = name) :
    ∃ other otherKey, keys other = some otherKey ∧ otherKey.name = below := by
  induction name using List.reverseRecOn generalizing id key with
  | nil =>
    rw [List.prefix_nil.mp shorter]
    exact ⟨id,key,stored,named⟩
  | append_singleton name component ih =>
    rcases List.prefix_concat_iff.mp shorter with rfl | inside
    · exact ⟨id,key,stored,named⟩
    · cases parent : key.parent with
      | none =>
        have empty := (names.root id key stored).mp parent
        rw [named] at empty
        simp at empty
      | some above =>
        obtain ⟨other,found,shortened⟩ := names.above id key above stored parent
        rw [named,List.dropLast_concat] at shortened
        exact ih inside above other found shortened

theorem unused (names : Names hashComponent keys nextEntry) : keys nextEntry = none := by
  cases found : keys nextEntry with
  | none => rfl
  | some key => exact absurd (names.fresh _ key found) (Nat.lt_irrefl _)

theorem update_old (names : Names hashComponent keys nextEntry) (new : Option Key) (id : Nat) (key : Key)
    (stored : keys id = some key) : Function.update keys nextEntry new id = some key := by
  rw [Function.update_of_ne (Nat.ne_of_lt (names.fresh id key stored))]
  exact stored

theorem update_cases (new key : Key) (id : Nat) (stored : Function.update keys nextEntry (some new) id = some key) :
    (id = nextEntry ∧ key = new) ∨ keys id = some key := by
  by_cases last : id = nextEntry
  · rw [last,Function.update_self] at stored
    exact Or.inl ⟨last,(Option.some.inj stored).symm⟩
  · rw [Function.update_of_ne last] at stored
    exact Or.inr stored

theorem create (names : Names hashComponent keys nextEntry) (name : Name) (parent : Option Nat)
    (absent : ∀ id key, keys id = some key → key.name ≠ name) (root : parent = none ↔ name = [])
    (above : ∀ id, parent = some id → ∃ key, keys id = some key ∧ key.name = name.dropLast) :
    Names hashComponent (Function.update keys nextEntry (some ⟨computeHash hashComponent name,name,parent⟩))
      (nextEntry + 1) := by
  constructor
  · intro id key stored
    rcases update_cases _ key id stored with ⟨-,rfl⟩ | before
    · rfl
    · exact names.hashed id key before
  · intro first second a b left right same
    rcases update_cases _ a first left with ⟨rfl,rfl⟩ | before
    · rcases update_cases _ b second right with ⟨rfl,-⟩ | earlier
      · rfl
      · exact absurd same.symm (absent second b earlier)
    · rcases update_cases _ b second right with ⟨rfl,rfl⟩ | earlier
      · exact absurd same (absent first a before)
      · exact names.distinct first second a b before earlier same
  · intro id key stored
    rcases update_cases _ key id stored with ⟨rfl,-⟩ | before
    · exact Nat.lt_succ_self _
    · exact Nat.lt_succ_of_lt (names.fresh id key before)
  · intro id key stored
    rcases update_cases _ key id stored with ⟨-,rfl⟩ | before
    · exact root
    · exact names.root id key before
  · intro id key up stored parented
    rcases update_cases _ key id stored with ⟨-,rfl⟩ | before
    · obtain ⟨other,found,shortened⟩ := above up parented
      exact ⟨other,names.update_old _ up other found,shortened⟩
    · obtain ⟨other,found,shortened⟩ := names.above id key up before parented
      exact ⟨other,names.update_old _ up other found,shortened⟩

/-- The new name is no proper prefix of a stored one, which would have brought it along. -/
theorem create_before (names : Names hashComponent keys nextEntry) (name : Name) (parent : Option Nat)
    (absent : ∀ id key, keys id = some key → key.name ≠ name) (id : Nat) (key : Key)
    (stored : keys id = some key) :
    Before (Function.update keys nextEntry (some ⟨computeHash hashComponent name,name,parent⟩)) id nextEntry := by
  intro a b first second same inside
  rw [Function.update_self] at second
  cases Option.some.inj second
  rw [names.update_old _ id key stored] at first
  cases Option.some.inj first
  obtain ⟨other,otherKey,found,named⟩ := names.closed key.name name inside id key stored rfl
  exact absurd named (absent other otherKey found)

theorem remove (names : Names hashComponent keys nextEntry) (id : Nat)
    (leaf : ∀ other key, keys other = some key → key.parent ≠ some id) :
    Names hashComponent (Function.update keys id none) nextEntry := by
  have old : ∀ other key, Function.update keys id none other = some key → keys other = some key := by
    intro other key stored
    by_cases same : other = id
    · rw [same,Function.update_self] at stored
      cases stored
    · rwa [Function.update_of_ne same] at stored
  constructor
  · intro other key stored
    exact names.hashed other key (old other key stored)
  · intro first second a b left right same
    exact names.distinct first second a b (old first a left) (old second b right) same
  · intro other key stored
    exact names.fresh other key (old other key stored)
  · intro other key stored
    exact names.root other key (old other key stored)
  · intro other key up stored parented
    obtain ⟨upper,found,shortened⟩ := names.above other key up (old other key stored) parented
    refine ⟨upper,?_,shortened⟩
    rw [Function.update_of_ne ?_]
    · exact found
    · rintro rfl
      exact leaf other key (old other key stored) parented

end Names

namespace Chained
variable {keys : Nat → Option Key} {buckets : Nat → List Nat} {nBuckets nItems : Nat}

theorem empty (positive : 0 < nBuckets) : Chained (fun _ => none) (fun _ => []) nBuckets 0 := by
  constructor <;> simp [positive,Chains.walk]

theorem location_lt (table : Chained keys buckets nBuckets nItems) (hash : UInt64) :
    hash.toNat % nBuckets < nBuckets := Nat.mod_lt _ table.positive

private def position (keys : Nat → Option Key) (nBuckets id : Nat) : Nat :=
  ((keys id).map fun key => key.hash.toNat % nBuckets).getD 0

private theorem position_of_placed (placed : ∀ bucket < nBuckets, ∀ id ∈ buckets bucket,
    ∃ key, keys id = some key ∧ key.hash.toNat % nBuckets = bucket) :
    ∀ bucket < nBuckets, ∀ id ∈ buckets bucket, position keys nBuckets id = bucket := by
  intro bucket bound id member
  obtain ⟨key,stored,place⟩ := placed bucket bound id member
  rw [position,stored]
  exact place

theorem mem_walk (table : Chained keys buckets nBuckets nItems) (id : Nat) :
    id ∈ Chains.walk nBuckets buckets ↔ ∃ key, keys id = some key := by
  rw [Chains.mem_walk]
  constructor
  · rintro ⟨bucket,bound,member⟩
    obtain ⟨key,stored,-⟩ := table.placed bucket bound id member
    exact ⟨key,stored⟩
  · rintro ⟨key,stored⟩
    exact ⟨_,table.location_lt key.hash,table.chained id key stored⟩

theorem walk_nodup (table : Chained keys buckets nBuckets nItems) : (Chains.walk nBuckets buckets).Nodup :=
  Chains.walk_nodup table.single (position_of_placed table.placed)

private theorem walk_length (positive : 0 < nBuckets)
    (placed : ∀ bucket < nBuckets, ∀ id ∈ buckets bucket,
      ∃ key, keys id = some key ∧ key.hash.toNat % nBuckets = bucket)
    (chained : ∀ id key, keys id = some key → id ∈ buckets (key.hash.toNat % nBuckets))
    (single : ∀ bucket < nBuckets, (buckets bucket).Nodup) (ids : List Nat) (nodup : ids.Nodup)
    (same : ∀ id, id ∈ ids ↔ ∃ key, keys id = some key) :
    (Chains.walk nBuckets buckets).length = ids.length := by
  apply List.Perm.length_eq
  apply (List.perm_ext_iff_of_nodup (Chains.walk_nodup single (position_of_placed placed)) nodup).mpr
  intro id
  rw [same,Chains.mem_walk]
  constructor
  · rintro ⟨bucket,bound,member⟩
    obtain ⟨key,stored,-⟩ := placed bucket bound id member
    exact ⟨key,stored⟩
  · rintro ⟨key,stored⟩
    exact ⟨_,Nat.mod_lt _ positive,chained id key stored⟩

private theorem mem_append (bucket place id other : Nat) :
    other ∈ Chains.append buckets place id bucket ↔ other ∈ buckets bucket ∨ (bucket = place ∧ other = id) := by
  by_cases here : bucket = place
  · simp [Chains.append,here]
  · simp [Chains.append,here]

private theorem append_chain {R : List Nat → Prop} (place id bucket : Nat)
    (elsewhere : bucket ≠ place → R (buckets bucket)) (here : R (buckets place ++ [id])) :
    R (Chains.append buckets place id bucket) := by
  by_cases same : bucket = place
  · rw [same,Chains.append,Function.update_self]
    exact here
  · rw [Chains.append,Function.update_of_ne same]
    exact elsewhere same

theorem create (table : Chained keys buckets nBuckets nItems) (id : Nat) (key : Key) (unused : keys id = none)
    (last : ∀ other otherKey, keys other = some otherKey → Before (Function.update keys id (some key)) other id) :
    Chained (Function.update keys id (some key)) (Chains.append buckets (key.hash.toNat % nBuckets) id)
      nBuckets (nItems + 1) := by
  have old : ∀ other, (∃ otherKey, keys other = some otherKey) →
      Function.update keys id (some key) other = keys other := by
    rintro other ⟨otherKey,stored⟩
    apply Function.update_of_ne
    rintro rfl
    rw [unused] at stored
    cases stored
  have known : ∀ bucket < nBuckets, ∀ other ∈ buckets bucket, ∃ otherKey, keys other = some otherKey :=
    fun bucket bound other member => (table.placed bucket bound other member).imp fun _ found => found.1
  have unchained : ∀ bucket < nBuckets, id ∉ buckets bucket := by
    intro bucket bound member
    obtain ⟨otherKey,stored⟩ := known bucket bound id member
    rw [unused] at stored
    cases stored
  have placed : ∀ bucket < nBuckets, ∀ other ∈ Chains.append buckets (key.hash.toNat % nBuckets) id bucket,
      ∃ otherKey, Function.update keys id (some key) other = some otherKey ∧
        otherKey.hash.toNat % nBuckets = bucket := by
    intro bucket bound other member
    rcases (mem_append _ _ _ _).mp member with before | ⟨here,rfl⟩
    · rw [old other (known bucket bound other before)]
      exact table.placed bucket bound other before
    · exact ⟨key,Function.update_self ..,here.symm⟩
  have chained : ∀ other otherKey, Function.update keys id (some key) other = some otherKey →
      other ∈ Chains.append buckets (key.hash.toNat % nBuckets) id (otherKey.hash.toNat % nBuckets) := by
    intro other otherKey stored
    rw [mem_append]
    by_cases new : other = id
    · rw [new,Function.update_self] at stored
      cases Option.some.inj stored
      exact Or.inr ⟨rfl,new⟩
    · rw [Function.update_of_ne new] at stored
      exact Or.inl (table.chained other otherKey stored)
  have single : ∀ bucket < nBuckets,
      (Chains.append buckets (key.hash.toNat % nBuckets) id bucket).Nodup := by
    intro bucket bound
    apply append_chain
    · exact fun _ => table.single bucket bound
    · rw [← List.concat_eq_append]
      exact List.Nodup.concat (unchained _ (table.location_lt _)) (table.single _ (table.location_lt _))
  have earlier : ∀ bucket < nBuckets, (buckets bucket).Pairwise (Before (Function.update keys id (some key))) := by
    intro bucket bound
    refine (table.ordered bucket bound).imp_of_mem ?_
    intro first second left right before
    rw [Before,old first (known bucket bound first left),old second (known bucket bound second right)]
    exact before
  refine ⟨table.positive,placed,chained,single,?_,?_⟩
  · intro bucket bound
    apply append_chain
    · exact fun _ => earlier bucket bound
    · refine List.pairwise_append.mpr ⟨earlier _ (table.location_lt _),List.pairwise_singleton _ _,?_⟩
      intro other member item single
      rw [List.mem_singleton.mp single]
      obtain ⟨otherKey,stored⟩ := known _ (table.location_lt _) other member
      exact last other otherKey stored
  · have fresh : id ∉ Chains.walk nBuckets buckets := by
      rw [table.mem_walk,unused]
      simp
    rw [walk_length table.positive placed chained single (id :: Chains.walk nBuckets buckets)
      (List.nodup_cons.mpr ⟨fresh,table.walk_nodup⟩),List.length_cons,table.counted]
    intro other
    rw [List.mem_cons,table.mem_walk]
    by_cases new : other = id
    · simp [new]
    · simp [new]

theorem remove (table : Chained keys buckets nBuckets nItems) (id : Nat) (key : Key) (stored : keys id = some key) :
    Chained (Function.update keys id none)
      (Function.update buckets (key.hash.toNat % nBuckets) ((buckets (key.hash.toNat % nBuckets)).erase id))
      nBuckets (nItems - 1) := by
  have shorter : ∀ bucket, (Function.update buckets (key.hash.toNat % nBuckets)
      ((buckets (key.hash.toNat % nBuckets)).erase id) bucket).Sublist (buckets bucket) := by
    intro bucket
    by_cases here : bucket = key.hash.toNat % nBuckets
    · rw [here,Function.update_self]
      exact List.erase_sublist
    · rw [Function.update_of_ne here]
  have gone : ∀ bucket < nBuckets, ∀ other ∈ Function.update buckets (key.hash.toNat % nBuckets)
      ((buckets (key.hash.toNat % nBuckets)).erase id) bucket, other ≠ id := by
    rintro bucket bound other member rfl
    by_cases here : bucket = key.hash.toNat % nBuckets
    · rw [here,Function.update_self] at member
      exact (table.single _ (table.location_lt _)).not_mem_erase member
    · rw [Function.update_of_ne here] at member
      obtain ⟨otherKey,found,place⟩ := table.placed bucket bound other member
      rw [stored] at found
      cases Option.some.inj found
      exact here place.symm
  have placed : ∀ bucket < nBuckets, ∀ other ∈ Function.update buckets (key.hash.toNat % nBuckets)
      ((buckets (key.hash.toNat % nBuckets)).erase id) bucket,
      ∃ otherKey, Function.update keys id none other = some otherKey ∧
        otherKey.hash.toNat % nBuckets = bucket := by
    intro bucket bound other member
    rw [Function.update_of_ne (gone bucket bound other member)]
    exact table.placed bucket bound other ((shorter bucket).subset member)
  have chained : ∀ other otherKey, Function.update keys id none other = some otherKey →
      other ∈ Function.update buckets (key.hash.toNat % nBuckets)
        ((buckets (key.hash.toNat % nBuckets)).erase id) (otherKey.hash.toNat % nBuckets) := by
    intro other otherKey found
    by_cases same : other = id
    · rw [same,Function.update_self] at found
      cases found
    · rw [Function.update_of_ne same] at found
      have member := table.chained other otherKey found
      by_cases here : otherKey.hash.toNat % nBuckets = key.hash.toNat % nBuckets
      · rw [here] at member ⊢
        rw [Function.update_self]
        exact (List.mem_erase_of_ne same).mpr member
      · rw [Function.update_of_ne here]
        exact member
  have single : ∀ bucket < nBuckets, (Function.update buckets (key.hash.toNat % nBuckets)
      ((buckets (key.hash.toNat % nBuckets)).erase id) bucket).Nodup :=
    fun bucket bound => (table.single bucket bound).sublist (shorter bucket)
  refine ⟨table.positive,placed,chained,single,?_,?_⟩
  · intro bucket bound
    refine ((table.ordered bucket bound).sublist (shorter bucket)).imp_of_mem ?_
    intro first second left right before
    rw [Before,Function.update_of_ne (gone bucket bound first left),
      Function.update_of_ne (gone bucket bound second right)]
    exact before
  · have member : id ∈ Chains.walk nBuckets buckets := (table.mem_walk id).mpr ⟨key,stored⟩
    rw [walk_length table.positive placed chained single ((Chains.walk nBuckets buckets).erase id)
      (table.walk_nodup.erase id),List.length_erase_of_mem member,table.counted]
    intro other
    rw [table.walk_nodup.mem_erase_iff,table.mem_walk]
    by_cases same : other = id
    · simp [same]
    · simp [same]

/-- Entries of one hash share a chain before and after, and keep their order in it. -/
theorem rehash (table : Chained keys buckets nBuckets nItems) (newNBuckets : Nat) (positive : 0 < newNBuckets)
    (place : Nat → Nat)
    (agrees : ∀ id key, keys id = some key → place id = key.hash.toNat % newNBuckets) :
    Chained keys (Chains.rehash place (Chains.walk nBuckets buckets)) newNBuckets nItems := by
  have member : ∀ bucket id, id ∈ Chains.rehash place (Chains.walk nBuckets buckets) bucket ↔
      ∃ key, keys id = some key ∧ key.hash.toNat % newNBuckets = bucket := by
    intro bucket id
    rw [Chains.rehash_chain,List.mem_filter,table.mem_walk]
    constructor
    · rintro ⟨⟨key,stored⟩,here⟩
      refine ⟨key,stored,?_⟩
      rw [← agrees id key stored]
      exact of_decide_eq_true here
    · rintro ⟨key,stored,here⟩
      exact ⟨⟨key,stored⟩,decide_eq_true ((agrees id key stored).trans here)⟩
  have placed : ∀ bucket < newNBuckets, ∀ id ∈ Chains.rehash place (Chains.walk nBuckets buckets) bucket,
      ∃ key, keys id = some key ∧ key.hash.toNat % newNBuckets = bucket :=
    fun bucket _ id inside => (member bucket id).mp inside
  have chained : ∀ id key, keys id = some key →
      id ∈ Chains.rehash place (Chains.walk nBuckets buckets) (key.hash.toNat % newNBuckets) :=
    fun id key stored => (member _ id).mpr ⟨key,stored,rfl⟩
  have single : ∀ bucket < newNBuckets, (Chains.rehash place (Chains.walk nBuckets buckets) bucket).Nodup := by
    intro bucket _
    rw [Chains.rehash_chain]
    exact table.walk_nodup.filter _
  have ordered : (Chains.walk nBuckets buckets).Pairwise (Before keys) := by
    apply Chains.walk_pairwise table.ordered
    intro first left second right apart id inFirst other inSecond a b stored found same
    obtain ⟨key,one,here⟩ := table.placed first left id inFirst
    obtain ⟨otherKey,two,there⟩ := table.placed second right other inSecond
    cases Option.some.inj (stored.symm.trans one)
    cases Option.some.inj (found.symm.trans two)
    rw [same,there] at here
    exact absurd here.symm apart
  refine ⟨positive,placed,chained,single,?_,?_⟩
  · intro bucket _
    rw [Chains.rehash_chain]
    exact ordered.filter _
  · rw [walk_length positive placed chained single (Chains.walk nBuckets buckets) table.walk_nodup table.mem_walk]
    exact table.counted

end Chained

end Ncfcc.Nfd.NameTree
