import Ncfcc.Library.KeyedList
import Ncfcc.Library.Run
import Ncfcc.Nfd.Table.CsOrder

/-! Data in memory, in the order of their full names. The entries come from a pool whose size is the
capacity: it is doubled when it is used up, halved when most of it is free, and at the
limit a replacement policy makes room. -/
namespace Ncfcc.NdnCxx
open Ncfcc.Library
open Ncfcc.Nfd.Table (Interest Data ToldApart nameLess octets)

inductive Replacement
  | fifo
  | lru
  | lfu
  | persistent
  deriving DecidableEq

/-- Entries are told apart by the full names of their Data. Only `lfu` counts. -/
structure CleanupEntry where
  name : Ncfcc.Name
  frequency : Nat
  deriving DecidableEq

/-! The cleanup index of each policy, what is to be evicted first in front. -/

def insertByFrequency (index : List CleanupEntry) (entry : CleanupEntry) : List CleanupEntry :=
  index.takeWhile (fun other => other.frequency ≤ entry.frequency) ++
    entry :: index.dropWhile fun other => other.frequency ≤ entry.frequency

def incrementFrequency (entry : CleanupEntry) : CleanupEntry :=
  {entry with frequency := (entry.frequency + 1) % 2^64}

/-- An entry is moved only if it does not fit between its neighbours any more. -/
def modifyFrequency (index : List CleanupEntry) (name : Ncfcc.Name) : List CleanupEntry :=
  let front := index.takeWhile fun entry => entry.name ≠ name
  match index.dropWhile fun entry => entry.name ≠ name with
  | [] => index
  | entry :: back =>
    let changed := incrementFrequency entry
    if (front.getLast?.all fun other => other.frequency ≤ changed.frequency) &&
        back.head?.all fun other => changed.frequency ≤ other.frequency then front ++ changed :: back
    else insertByFrequency (front ++ back) changed

def afterInsert (policy : Replacement) (index : List CleanupEntry) (name : Ncfcc.Name) : List CleanupEntry :=
  match policy with
  | .fifo | .lru => index ++ [⟨name,0⟩]
  | .lfu => insertByFrequency index ⟨name,0⟩
  | .persistent => index

def beforeErase (policy : Replacement) (index : List CleanupEntry) (name : Ncfcc.Name) : List CleanupEntry :=
  match policy with
  | .fifo | .lru | .lfu => index.eraseP fun entry => entry.name = name
  | .persistent => index

def afterAccess (policy : Replacement) (index : List CleanupEntry) (name : Ncfcc.Name) : List CleanupEntry :=
  match policy with
  | .lru => afterInsert .lru (beforeErase .lru index name) name
  | .lfu => modifyFrequency index name
  | .fifo | .persistent => index

/-- The free entries of the pool are counted. -/
structure InMemoryStorage where
  limit : Nat
  capacity : Nat
  nPackets : Nat
  cache : List Data
  freeEntries : Nat
  cleanupIndex : List CleanupEntry
  deriving DecidableEq

/-- An exception, or an entry taken from an empty pool. -/
inductive StorageFailure
  | error (message : String)
  | noFreeEntry
  deriving DecidableEq

namespace InMemoryStorage

def new (limit : Nat) : InMemoryStorage :=
  let capacity := if limit ≠ 2^64 - 1 ∧ limit < 10 then limit else 10
  ⟨limit,capacity,0,[],capacity,[]⟩

def isFull (storage : InMemoryStorage) : Bool := storage.capacity ≤ storage.nPackets

def stores (storage : InMemoryStorage) (name : Ncfcc.Name) : Bool := storage.cache.any fun data => data.fullName = name

def freeEntry (storage : InMemoryStorage) (name : Ncfcc.Name) : InMemoryStorage :=
  { storage with
    freeEntries := storage.freeEntries + 1
    nPackets := storage.nPackets - 1
    cache := storage.cache.eraseP fun data => data.fullName = name }

def eraseImpl (storage : InMemoryStorage) (name : Ncfcc.Name) : InMemoryStorage :=
  if storage.stores name then storage.freeEntry name else storage

/-- None if nothing was evicted. -/
def evictItem (policy : Replacement) (storage : InMemoryStorage) : Option InMemoryStorage :=
  match policy, storage.cleanupIndex with
  | .persistent, _ => none
  | _, [] => none
  | _, entry :: rest => some {storage.eraseImpl entry.name with cleanupIndex := rest}

def evictLoop (policy : Replacement) (storage : InMemoryStorage) (nAllowedFailures : Nat) :
    Except StorageFailure InMemoryStorage :=
  if storage.nPackets ≤ storage.capacity then .ok storage
  else
    match _evicted : storage.evictItem policy with
    | some after => evictLoop policy after nAllowedFailures
    | none =>
      match nAllowedFailures with
      | 0 => .error (.error "Cannot reduce the capacity of the in-memory storage!")
      | nAllowedFailures + 1 => evictLoop policy storage nAllowedFailures
termination_by (storage.cleanupIndex.length,nAllowedFailures)
decreasing_by
  · refine Prod.Lex.left _ _ ?_
    unfold evictItem at _evicted
    split at _evicted
    · cases _evicted
    · cases _evicted
    · rename_i shape
      cases _evicted
      rw [shape]
      exact Nat.lt_succ_self _
  · exact Prod.Lex.right _ (Nat.lt_succ_self _)

def setCapacity (policy : Replacement) (storage : InMemoryStorage) (capacity : Nat) :
    Except StorageFailure InMemoryStorage := do
  let resized := {storage with capacity := capacity}
  let room ← if capacity < resized.nPackets then resized.evictLoop policy (resized.nPackets - capacity) else .ok resized
  if storage.capacity ≤ capacity then
    .ok {room with freeEntries := room.freeEntries + (capacity - storage.capacity)}
  else if room.freeEntries < storage.capacity - capacity then .error .noFreeEntry
  else .ok {room with freeEntries := room.freeEntries - (storage.capacity - capacity)}

def insertByName (cache : List Data) (data : Data) : List Data :=
  cache.takeWhile (fun other => nameLess other.fullName data.fullName) ++
    data :: cache.dropWhile fun other => nameLess other.fullName data.fullName

/-- What `insert` does if the storage is full. -/
def makeRoom (policy : Replacement) (storage : InMemoryStorage) : Except StorageFailure InMemoryStorage := do
  let doesReachLimit := storage.limit == storage.capacity
  let grown ← if storage.isFull && !doesReachLimit then
      storage.setCapacity policy (min (2 * storage.capacity) storage.limit)
    else .ok storage
  .ok (if grown.isFull && doesReachLimit then (grown.evictItem policy).getD grown else grown)

def enter (policy : Replacement) (storage : InMemoryStorage) (data : Data) : InMemoryStorage :=
  { storage with
    freeEntries := storage.freeEntries - 1
    nPackets := storage.nPackets + 1
    cache := insertByName storage.cache data
    cleanupIndex := afterInsert policy storage.cleanupIndex data.fullName }

def insert (policy : Replacement) (storage : InMemoryStorage) (data : Data) : Except StorageFailure InMemoryStorage :=
  if storage.stores data.fullName then .ok storage
  else do
    let room ← storage.makeRoom policy
    if room.freeEntries = 0 then .error .noFreeEntry else .ok (room.enter policy data)

def access (policy : Replacement) (storage : InMemoryStorage) (data : Data) : InMemoryStorage :=
  {storage with cleanupIndex := afterAccess policy storage.cleanupIndex data.fullName}

def lowerBound (storage : InMemoryStorage) (name : Ncfcc.Name) : List Data :=
  storage.cache.dropWhile fun data => nameLess data.fullName name

def findName (policy : Replacement) (storage : InMemoryStorage) (name : Ncfcc.Name) : InMemoryStorage × Option Data :=
  match storage.lowerBound name with
  | [] => (storage,none)
  | data :: _ => if (octets name).isPrefixOf (octets data.fullName) then (storage.access policy data,some data) else (storage,none)

def hasLeftmostSelector (interest : Interest) : Bool := interest.selectors.childSelector.getD 0 == 0

/-- One round of the loop for the rightmost child: the child that was met last, and its first match. -/
def rightmostStep (interest : Interest) (current : Ncfcc.Name × Option Data) (candidate : Data) : Ncfcc.Name × Option Data :=
  if interest.matchesData candidate then
    let childPrefix := candidate.fullName.take (interest.name.length + 1)
    if current.1.isEmpty || octets childPrefix != octets current.1 then (childPrefix,some candidate) else current
  else current

def selectChild (storage : InMemoryStorage) (interest : Interest) (startingPoint : Nat) : Option Data :=
  match storage.cache.drop startingPoint with
  | [] => none
  | first :: rest =>
    let candidates := rest.takeWhile fun data => (octets interest.name).isPrefixOf (octets data.fullName)
    if hasLeftmostSelector interest then
      if interest.matchesData first then some first else candidates.find? interest.matchesData
    else
      match (candidates.foldl (rightmostStep interest) ([],none)).2 with
      | some data => some data
      | none => if interest.matchesData first then some first else none

def findInterest (policy : Replacement) (storage : InMemoryStorage) (interest : Interest) : InMemoryStorage × Option Data :=
  match storage.cache.find? fun data => data.fullName = interest.name with
  | some data => (storage,some data)
  | none =>
    let bound := (storage.cache.takeWhile fun data => nameLess data.fullName interest.name).length
    if bound = storage.cache.length then (storage,none)
    else
      -- the entry in front of the bound, if there is one
      match storage.selectChild interest (bound - 1) with
      | some data => (storage.access policy data,some data)
      | none => (storage,none)

def eraseEntry (policy : Replacement) (storage : InMemoryStorage) (data : Data) : InMemoryStorage :=
  {storage.freeEntry data.fullName with cleanupIndex := beforeErase policy storage.cleanupIndex data.fullName}

def under (storage : InMemoryStorage) (pattern : Ncfcc.Name) : List Data :=
  (storage.lowerBound pattern).takeWhile fun data => (octets pattern).isPrefixOf (octets data.name)

def erase (policy : Replacement) (storage : InMemoryStorage) (pattern : Ncfcc.Name) (isPrefix : Bool) :
    Except StorageFailure InMemoryStorage :=
  if isPrefix then
    let erased := (storage.under pattern).foldl (eraseEntry policy) storage
    if 2 * erased.nPackets < erased.freeEntries then erased.setCapacity policy (erased.capacity / 2) else .ok erased
  else
    match storage.cache.find? fun data => data.fullName = pattern with
    | none => .ok storage
    | some data =>
      let erased := storage.eraseEntry policy data
      if 2 * erased.nPackets < erased.freeEntries then erased.setCapacity policy (erased.capacity / 2) else .ok erased

def tracked (storage : InMemoryStorage) : List Ncfcc.Name := storage.cleanupIndex.map CleanupEntry.name

def names (storage : InMemoryStorage) : List Ncfcc.Name := storage.cache.map Nfd.Table.Data.fullName

/-- The cache is in order, entries are free or used, and the policy knows what is stored. -/
structure Sound (policy : Replacement) (storage : InMemoryStorage) : Prop where
  ordered : storage.cache.Pairwise fun first second => nameLess first.fullName second.fullName = true
  packets : storage.nPackets = storage.cache.length
  pool : storage.nPackets + storage.freeEntries = storage.capacity
  limited : storage.capacity ≤ storage.limit
  index : if policy = .persistent then storage.cleanupIndex = [] else storage.tracked.Perm storage.names

section
variable {policy : Replacement} {storage after : InMemoryStorage} {data : Data} {name : Ncfcc.Name}

theorem stores_iff : storage.stores name = true ↔ name ∈ storage.names := by
  simp [stores,names,List.any_eq_true]

theorem names_nodup (ordered : storage.cache.Pairwise fun first second => nameLess first.fullName second.fullName = true) :
    storage.names.Nodup := by
  refine List.pairwise_map.mpr (ordered.imp ?_)
  intro first second less same
  rw [same] at less
  exact Nfd.Table.nameLess_irrefl _ less

private theorem names_eraseP (ordered : storage.cache.Pairwise fun first second => nameLess first.fullName second.fullName = true) :
    (storage.freeEntry name).names = storage.names.erase name :=
  map_eraseP_key (names_nodup ordered) name

theorem sound_new (policy : Replacement) (limit : Nat) : (new limit).Sound policy where
  ordered := List.Pairwise.nil
  packets := rfl
  pool := Nat.zero_add _
  limited := by
    unfold new
    dsimp only
    split <;> omega
  index := by
    split
    · rfl
    · exact List.Perm.refl []

/-- What taking an entry out leaves, but for the cleanup index. -/
theorem Sound.freeEntry (sound : storage.Sound policy) (stored : name ∈ storage.names) (index : List CleanupEntry)
    (left : if policy = .persistent then index = [] else (index.map CleanupEntry.name).Perm (storage.names.erase name)) :
    Sound policy {storage.freeEntry name with cleanupIndex := index} := by
  obtain ⟨data,inside,same⟩ := List.mem_map.mp stored
  have positive := List.length_pos_of_mem inside
  have packets := sound.packets
  have pool := sound.pool
  refine ⟨sound.ordered.sublist List.eraseP_sublist,?_,?_,sound.limited,?_⟩
  · have length := List.length_eraseP_of_mem inside (p := fun data => decide (data.fullName = name)) (decide_eq_true same)
    exact (congrArg (· - 1) packets).trans length.symm
  · change storage.nPackets - 1 + (storage.freeEntries + 1) = storage.capacity
    omega
  · change if _ then _ else List.Perm (index.map CleanupEntry.name) (storage.freeEntry name).names
    rw [names_eraseP sound.ordered]
    exact left

private theorem beforeErase_tracked (evicts : policy ≠ .persistent) (distinct : storage.tracked.Nodup) (name : Ncfcc.Name) :
    (beforeErase policy storage.cleanupIndex name).map CleanupEntry.name = storage.tracked.erase name := by
  have erased : beforeErase policy storage.cleanupIndex name = storage.cleanupIndex.eraseP fun entry => entry.name = name := by
    cases policy with
    | persistent => exact absurd rfl evicts
    | fifo => rfl
    | lru => rfl
    | lfu => rfl
  rw [erased]
  exact map_eraseP_key distinct name

theorem Sound.eraseEntry (sound : storage.Sound policy) (inside : data ∈ storage.cache) :
    (storage.eraseEntry policy data).Sound policy := by
  have stored : data.fullName ∈ storage.names := List.mem_map_of_mem inside
  refine sound.freeEntry stored _ ?_
  have index := sound.index
  split at index
  · rename_i persistent
    rw [if_pos persistent,persistent]
    exact index
  · rename_i evicts
    rw [if_neg evicts,beforeErase_tracked evicts (index.nodup_iff.mpr (names_nodup sound.ordered))]
    exact index.erase _

/-- At a policy that evicts there is something to evict as long as something is stored. -/
theorem Sound.evictItem (sound : storage.Sound policy) (evicts : policy ≠ .persistent) (some_stored : 0 < storage.nPackets) :
    ∃ entry rest, storage.cleanupIndex = entry :: rest ∧
      storage.evictItem policy = some {storage.freeEntry entry.name with cleanupIndex := rest} ∧
      Sound policy {storage.freeEntry entry.name with cleanupIndex := rest} := by
  have index := sound.index
  rw [if_neg evicts] at index
  cases shape : storage.cleanupIndex with
  | nil =>
    have length := index.length_eq
    rw [tracked,shape,names,List.length_map,List.length_map,← sound.packets] at length
    exact absurd length (Nat.ne_of_lt some_stored)
  | cons entry rest =>
    rw [tracked,shape,List.map_cons] at index
    have stored : entry.name ∈ storage.names := index.subset List.mem_cons_self
    refine ⟨entry,rest,rfl,?_,sound.freeEntry stored rest ?_⟩
    · have erases : storage.eraseImpl entry.name = storage.freeEntry entry.name := if_pos (stores_iff.mpr stored)
      unfold InMemoryStorage.evictItem
      rw [shape,← erases]
      cases policy with
      | persistent => exact absurd rfl evicts
      | fifo => rfl
      | lru => rfl
      | lfu => rfl
    · rw [if_neg evicts]
      have erased := index.erase entry.name
      rwa [List.erase_cons_head] at erased

/-- The capacity is changed without evicting anything if there is room for all that is stored. -/
theorem Sound.setCapacity (sound : storage.Sound policy) {capacity : Nat} (enough : storage.nPackets ≤ capacity)
    (limited : capacity ≤ storage.limit) :
    let resized := {storage with capacity := capacity, freeEntries := capacity - storage.nPackets}
    storage.setCapacity policy capacity = .ok resized ∧ resized.Sound policy := by
  intro resized
  have pool := sound.pool
  refine ⟨?_,⟨sound.ordered,sound.packets,by simp only [resized]; omega,limited,sound.index⟩⟩
  unfold InMemoryStorage.setCapacity
  dsimp only
  rw [if_neg (Nat.not_lt.mpr enough)]
  change (if storage.capacity ≤ capacity then _ else _) = _
  split
  · have free : storage.freeEntries + (capacity - storage.capacity) = capacity - storage.nPackets := by omega
    rw [free]
  · have free : storage.freeEntries - (storage.capacity - capacity) = capacity - storage.nPackets := by omega
    change (if storage.freeEntries < storage.capacity - capacity then _ else _) = _
    rw [if_neg (by omega),free]

private theorem insertByFrequency_perm (index : List CleanupEntry) (entry : CleanupEntry) :
    (insertByFrequency index entry).Perm (entry :: index) := by
  refine List.perm_middle.trans (.of_eq (congrArg (entry :: ·) ?_))
  exact List.takeWhile_append_dropWhile

private theorem afterInsert_tracked (evicts : policy ≠ .persistent) (index : List CleanupEntry) (name : Ncfcc.Name) :
    ((afterInsert policy index name).map CleanupEntry.name).Perm (name :: index.map CleanupEntry.name) := by
  cases policy with
  | persistent => exact absurd rfl evicts
  | fifo => exact (List.perm_append_singleton _ _).map CleanupEntry.name
  | lru => exact (List.perm_append_singleton _ _).map CleanupEntry.name
  | lfu => exact (insertByFrequency_perm index ⟨name,0⟩).map CleanupEntry.name

theorem insertByName_perm (cache : List Data) (data : Data) : (insertByName cache data).Perm (data :: cache) := by
  refine List.perm_middle.trans (.of_eq (congrArg (data :: ·) ?_))
  exact List.takeWhile_append_dropWhile

theorem Sound.enter (sound : storage.Sound policy) (new : data.fullName ∉ storage.names) (free : storage.freeEntries ≠ 0) :
    (storage.enter policy data).Sound policy := by
  have packets := sound.packets
  have pool := sound.pool
  have entered := insertByName_perm storage.cache data
  refine ⟨?_,?_,?_,sound.limited,?_⟩
  · refine ordered_insert sound.ordered (fun _ _ _ => Nfd.Table.nameLess_trans) (fun _ => Iff.rfl) ?_
    intro other inside
    rcases Nfd.Table.compareNames_cases other.fullName data.fullName with ⟨-,less⟩ | ⟨-,greater⟩ | ⟨-,same⟩
    · exact Or.inl less
    · exact Or.inr greater
    · exact absurd (List.mem_map.mpr ⟨other,inside,same⟩) new
  · exact (congrArg (· + 1) packets).trans entered.length_eq.symm
  · change storage.nPackets + 1 + (storage.freeEntries - 1) = storage.capacity
    omega
  · have index := sound.index
    split at index
    · rename_i persistent
      rw [if_pos persistent]
      change afterInsert policy storage.cleanupIndex data.fullName = []
      rw [persistent,index]
      rfl
    · rename_i evicts
      rw [if_neg evicts]
      refine (afterInsert_tracked evicts _ _).trans ((index.cons _).trans ?_)
      exact (entered.map Nfd.Table.Data.fullName).symm

/-- There is room after `makeRoom` unless the capacity is zero, or nothing may be evicted at the limit. -/
structure Room (policy : Replacement) (storage room : InMemoryStorage) : Prop where
  sound : room.Sound policy
  limit : room.limit = storage.limit
  names : room.names ⊆ storage.names
  none : room.freeEntries = 0 ↔ storage.capacity = 0 ∨ policy = .persistent ∧ storage.nPackets = storage.limit
  keeps : storage.nPackets < storage.limit → room.cache = storage.cache ∧ room.cleanupIndex = storage.cleanupIndex
  evicts : policy ≠ .persistent → storage.nPackets = storage.limit → room.freeEntries ≠ 0 →
    ∃ entry rest, storage.cleanupIndex = entry :: rest ∧ room = {storage.freeEntry entry.name with cleanupIndex := rest}

/-- At the limit an entry is evicted, unless there is none or the policy evicts nothing. -/
theorem Sound.room_evicted (sound : storage.Sound policy) (full : storage.capacity ≤ storage.nPackets)
    (reached : storage.limit = storage.capacity) : Room policy storage ((storage.evictItem policy).getD storage) := by
  have pool := sound.pool
  have same : Room policy storage storage ∨ policy ≠ .persistent ∧ 0 < storage.nPackets := by
    by_cases kept : policy = .persistent ∨ storage.nPackets = 0
    · refine Or.inl ⟨sound,rfl,List.Subset.refl _,iff_of_true (by omega) ?_,fun _ => ⟨rfl,rfl⟩,
        fun _ _ free => absurd (by omega) free⟩
      rcases kept with persistent | empty
      · exact Or.inr ⟨persistent,by omega⟩
      · exact Or.inl (by omega)
    · exact Or.inr ⟨fun persistent => kept (Or.inl persistent),by omega⟩
  cases evicted : storage.evictItem policy with
  | none =>
    refine same.resolve_right fun possible => ?_
    obtain ⟨entry,rest,-,done,-⟩ := sound.evictItem possible.1 possible.2
    rw [evicted] at done
    cases done
  | some after =>
    have evicts : policy ≠ .persistent := by
      rintro rfl
      cases evicted
    have stored : 0 < storage.nPackets := by
      by_contra none
      have index := sound.index
      rw [if_neg evicts] at index
      have length := index.length_eq
      rw [tracked,names,List.length_map,List.length_map,← sound.packets,Nat.eq_zero_of_not_pos none] at length
      unfold InMemoryStorage.evictItem at evicted
      rw [List.eq_nil_of_length_eq_zero length] at evicted
      cases policy <;> cases evicted
    obtain ⟨entry,rest,shape,done,left⟩ := sound.evictItem evicts stored
    rw [evicted] at done
    cases done
    refine ⟨left,rfl,?_,iff_of_false (Nat.succ_ne_zero _) ?_,fun below => by omega,fun _ _ _ => ⟨entry,rest,shape,rfl⟩⟩
    · change (storage.freeEntry entry.name).names ⊆ _
      rw [names_eraseP sound.ordered]
      exact List.erase_subset
    · rintro (zero | ⟨persistent,-⟩)
      · omega
      · exact evicts persistent

theorem Sound.makeRoom (sound : storage.Sound policy) :
    ∃ room, storage.makeRoom policy = .ok room ∧ Room policy storage room := by
  have pool := sound.pool
  have limited := sound.limited
  by_cases reached : storage.limit = storage.capacity
  · have bound : (storage.limit == storage.capacity) = true := beq_iff_eq.mpr reached
    have made : storage.makeRoom policy =
        .ok (if storage.isFull then (storage.evictItem policy).getD storage else storage) := by
      simp only [InMemoryStorage.makeRoom,bound,Bool.not_true,Bool.and_false,Bool.false_eq_true,if_false,Bool.and_true]
      rfl
    refine ⟨_,made,?_⟩
    split
    · rename_i full
      exact sound.room_evicted (of_decide_eq_true full) reached
    · rename_i room
      have less : ¬ storage.capacity ≤ storage.nPackets := fun full => room (decide_eq_true full)
      refine ⟨sound,rfl,List.Subset.refl _,iff_of_false (by omega) ?_,fun _ => ⟨rfl,rfl⟩,fun _ all _ => by omega⟩
      rintro (zero | ⟨-,full⟩) <;> omega
  · have bound : (storage.limit == storage.capacity) = false := beq_eq_false_iff_ne.mpr reached
    have enough : storage.nPackets ≤ min (2 * storage.capacity) storage.limit := by omega
    obtain ⟨resized,grown⟩ := sound.setCapacity enough (Nat.min_le_right _ _)
    by_cases full : storage.isFull = true
    · have made : storage.makeRoom policy = storage.setCapacity policy (min (2 * storage.capacity) storage.limit) := by
        simp only [InMemoryStorage.makeRoom,bound,Bool.not_false,Bool.and_true,full,if_true,Bool.and_false,
          Bool.false_eq_true,if_false]
        exact bind_pure _
      have filled : storage.capacity ≤ storage.nPackets := of_decide_eq_true full
      refine ⟨_,made.trans resized,grown,rfl,List.Subset.refl _,?_,fun _ => ⟨rfl,rfl⟩,fun _ all _ => by omega⟩
      change min (2 * storage.capacity) storage.limit - storage.nPackets = 0 ↔ _
      constructor
      · intro none
        exact Or.inl (by omega)
      · rintro (zero | ⟨-,all⟩) <;> omega
    · have made : storage.makeRoom policy = .ok storage := by
        simp only [InMemoryStorage.makeRoom,bound,Bool.not_false,Bool.and_true,full,if_false,Bool.and_false,
          Bool.false_eq_true]
        rfl
      have less : ¬ storage.capacity ≤ storage.nPackets := fun filled => full (decide_eq_true filled)
      refine ⟨storage,made,sound,rfl,List.Subset.refl _,iff_of_false (by omega) ?_,fun _ => ⟨rfl,rfl⟩,fun _ all _ => by omega⟩
      rintro (zero | ⟨-,all⟩) <;> omega

/-- An insertion fails exactly when the capacity is zero, or at the limit of a storage that evicts nothing. -/
theorem Sound.insert (sound : storage.Sound policy) (new : storage.stores data.fullName = false) :
    if storage.capacity = 0 ∨ policy = .persistent ∧ storage.nPackets = storage.limit then
      storage.insert policy data = .error .noFreeEntry
    else ∃ room, Room policy storage room ∧ storage.insert policy data = .ok (room.enter policy data) ∧
      (room.enter policy data).Sound policy := by
  obtain ⟨room,made,possible⟩ := sound.makeRoom
  have inserted : storage.insert policy data =
      if room.freeEntries = 0 then .error .noFreeEntry else .ok (room.enter policy data) := by
    unfold InMemoryStorage.insert
    rw [new,made]
    rfl
  have missing : data.fullName ∉ room.names := by
    intro inside
    rw [stores_iff.mpr (possible.names inside)] at new
    cases new
  split
  · rename_i none
    rw [inserted,if_pos (possible.none.mpr none)]
  · rename_i some
    have free := mt possible.none.mp some
    rw [inserted,if_neg free]
    exact ⟨room,possible,rfl,possible.sound.enter missing free⟩

/-- What is erased leaves the cleanup index, where the rest stays in its order. -/
def KeepsOrder (policy : Replacement) (storage after : InMemoryStorage) : Prop :=
  policy ≠ .persistent → after.tracked = storage.tracked.filter after.stores

/-- Entries that are erased one after another. -/
theorem Sound.foldl_eraseEntry {erased : List Data} (sound : storage.Sound policy) (inside : erased ⊆ storage.cache)
    (distinct : (erased.map Nfd.Table.Data.fullName).Nodup) :
    let after := erased.foldl (InMemoryStorage.eraseEntry policy) storage
    after.Sound policy ∧ after.cache = storage.cache.filter (fun data => data ∉ erased) ∧ KeepsOrder policy storage after := by
  induction erased generalizing storage with
  | nil =>
    refine ⟨sound,(List.filter_eq_self.mpr fun _ _ => by simp).symm,fun evicts => (List.filter_eq_self.mpr ?_).symm⟩
    intro name there
    have index := sound.index
    rw [if_neg evicts] at index
    exact stores_iff.mpr (index.subset there)
  | cons data erased ih =>
    rw [List.map_cons,List.nodup_cons] at distinct
    have there := inside List.mem_cons_self
    have left : (storage.eraseEntry policy data).cache = storage.cache.filter fun other => other.fullName ≠ data.fullName :=
      eraseP_key (names_nodup sound.ordered) _
    have others : erased ⊆ (storage.eraseEntry policy data).cache := by
      intro other also
      rw [left]
      refine List.mem_filter.mpr ⟨inside (List.mem_cons_of_mem _ also),decide_eq_true fun same => distinct.1 ?_⟩
      rw [← same]
      exact List.mem_map_of_mem also
    obtain ⟨after,cache,order⟩ := ih (sound.eraseEntry there) others distinct.2
    refine ⟨after,cache.trans ?_,fun evicts => (order evicts).trans ?_⟩
    · rw [left,List.filter_filter]
      refine List.filter_congr fun other stored => ?_
      have same : other.fullName = data.fullName ↔ other = data :=
        ⟨List.inj_on_of_nodup_map (names_nodup sound.ordered) stored there,congrArg _⟩
      simp [same,Bool.and_comm]
    · have index := sound.index
      rw [if_neg evicts] at index
      have nodup := index.nodup_iff.mpr (names_nodup sound.ordered)
      change ((beforeErase policy storage.cleanupIndex data.fullName).map CleanupEntry.name).filter _ = _
      rw [beforeErase_tracked evicts nodup,nodup.erase_eq_filter,List.filter_filter]
      refine List.filter_congr fun name _ => Bool.and_eq_left_iff_imp.mpr fun kept => ?_
      obtain ⟨other,stored,rfl⟩ := List.mem_map.mp (stores_iff.mp kept)
      change other ∈ (erased.foldl (InMemoryStorage.eraseEntry policy) (storage.eraseEntry policy data)).cache at stored
      rw [cache,left] at stored
      have differs := of_decide_eq_true (List.mem_filter.mp (List.mem_filter.mp stored).1).2
      exact bne_iff_ne.mpr differs

/-- The capacity is halved if most of it is free, which evicts nothing. -/
theorem Sound.halve (sound : storage.Sound policy) : ∃ halved,
    (if 2 * storage.nPackets < storage.freeEntries then storage.setCapacity policy (storage.capacity / 2) else .ok storage) =
      .ok halved ∧ halved.Sound policy ∧ halved.limit = storage.limit ∧ halved.cache = storage.cache ∧
      halved.cleanupIndex = storage.cleanupIndex := by
  have pool := sound.pool
  have limited := sound.limited
  split
  · have enough : storage.nPackets ≤ storage.capacity / 2 := by omega
    obtain ⟨resized,halved⟩ := sound.setCapacity enough (by omega)
    exact ⟨_,resized,halved,rfl,rfl,rfl⟩
  · exact ⟨storage,rfl,sound,rfl,rfl,rfl⟩

theorem Sound.lowerBound_eq (sound : storage.Sound policy) (name : Ncfcc.Name) :
    storage.lowerBound name = storage.cache.filter fun data => !nameLess data.fullName name :=
  (split_eq_filter sound.ordered fun _ _ less below => Nfd.Table.nameLess_trans less below).2

/-- What is under a name and not below it comes first among what is not below it. -/
theorem Sound.under_eq (sound : storage.Sound policy) {pattern : Ncfcc.Name} (missing : pattern ∉ storage.names) :
    (storage.lowerBound pattern).takeWhile (fun data => pattern.isPrefixOf data.name) =
      storage.cache.filter fun data => pattern.isPrefixOf data.name := by
  have above := sound.lowerBound_eq pattern
  have ordered := sound.ordered.sublist (List.dropWhile_sublist fun data => nameLess data.fullName pattern)
  have early : ∀ data ∈ storage.lowerBound pattern, pattern <+: data.fullName ↔ pattern <+: data.name := by
    intro data inside
    rw [above] at inside
    have stored : data.fullName ∈ storage.names := List.mem_map_of_mem (List.mem_of_mem_filter inside)
    rw [Nfd.Table.Data.fullName,List.prefix_concat_iff]
    refine or_iff_right fun same => missing ?_
    rwa [same]
  have members := List.Pairwise.and_mem.mp ordered
  have front : (storage.lowerBound pattern).takeWhile (fun data => pattern.isPrefixOf data.name) =
      (storage.lowerBound pattern).filter fun data => pattern.isPrefixOf data.name := by
    refine (split_eq_filter members ?_).1
    rintro first second ⟨here,there,less⟩ under
    have long := (early second there).mpr (List.isPrefixOf_iff_prefix.mp under)
    have high : ¬ nameLess first.fullName pattern = true := by
      change first ∈ storage.lowerBound pattern at here
      rw [above] at here
      simpa using (List.mem_filter.mp here).2
    have between := Nfd.Table.prefix_of_names_between long high (Nfd.Table.nameLess_asymm less)
    exact List.isPrefixOf_iff_prefix.mpr ((early first here).mp between)
  rw [front,above,List.filter_filter]
  refine List.filter_congr fun data _ => ?_
  rw [Bool.and_eq_left_iff_imp]
  intro under
  have whole : pattern <+: data.fullName := (List.isPrefixOf_iff_prefix.mp under).trans (List.prefix_append _ _)
  simpa using Nfd.Table.not_nameLess_under whole

/-- The Data with a full name hide what is under it. -/
theorem Sound.under_stored (sound : storage.Sound policy) {pattern : Ncfcc.Name} (stored : pattern ∈ storage.names) :
    (storage.lowerBound pattern).takeWhile (fun data => pattern.isPrefixOf data.name) = [] := by
  obtain ⟨data,inside,rfl⟩ := List.mem_map.mp stored
  have above := sound.lowerBound_eq data.fullName
  have there : data ∈ storage.lowerBound data.fullName := by
    rw [above]
    exact List.mem_filter.mpr ⟨inside,by simpa using Nfd.Table.nameLess_irrefl data.fullName⟩
  have ordered := sound.ordered.sublist (List.dropWhile_sublist fun other => nameLess other.fullName data.fullName)
  change List.Pairwise _ (storage.lowerBound data.fullName) at ordered
  generalize storage.lowerBound data.fullName = bound at there ordered
  cases bound with
  | nil => rfl
  | cons first rest =>
    refine List.takeWhile_cons_of_neg fun under => ?_
    have front := List.isPrefixOf_iff_prefix.mp under
    rcases List.mem_cons.mp there with rfl | later
    · have length := front.length_le
      rw [Nfd.Table.Data.fullName,List.length_append,List.length_singleton] at length
      omega
    · have less := (List.pairwise_cons.mp ordered).1 data later
      exact Nfd.Table.not_nameLess_under (front.trans (List.prefix_append _ _)) less

theorem KeepsOrder.trans {left : InMemoryStorage} (order : KeepsOrder policy storage left) (cache : after.cache = left.cache)
    (index : after.cleanupIndex = left.cleanupIndex) : KeepsOrder policy storage after := by
  intro evicts
  have stores : after.stores = left.stores := by
    funext name
    rw [InMemoryStorage.stores,cache]
    rfl
  rw [stores]
  exact (congrArg (List.map CleanupEntry.name) index).trans (order evicts)

private theorem foldl_eraseEntry_limit (policy : Replacement) (storage : InMemoryStorage) (erased : List Data) :
    (erased.foldl (eraseEntry policy) storage).limit = storage.limit := by
  induction erased generalizing storage with
  | nil => rfl
  | cons data erased ih => exact ih _

/-- Erasing never fails. -/
theorem Sound.erase (sound : storage.Sound policy) (pattern : Ncfcc.Name) (isPrefix : Bool) :
    ∃ after, storage.erase policy pattern isPrefix = .ok after ∧ after.Sound policy ∧ after.limit = storage.limit ∧
      KeepsOrder policy storage after ∧
      after.cache = if isPrefix then storage.cache.filter fun data => data ∉ storage.under pattern
      else storage.cache.filter fun data => data.fullName ≠ pattern := by
  unfold InMemoryStorage.erase
  cases isPrefix with
  | true =>
    simp only [if_true]
    have erased : (storage.under pattern).Sublist storage.cache := (List.takeWhile_sublist _).trans (List.dropWhile_sublist _)
    obtain ⟨left,cache,order⟩ := sound.foldl_eraseEntry erased.subset ((names_nodup sound.ordered).sublist (erased.map _))
    obtain ⟨halved,done,after,limit,same,index⟩ := left.halve
    exact ⟨halved,done,after,limit.trans (foldl_eraseEntry_limit _ _ _),order.trans same index,same.trans cache⟩
  | false =>
    simp only [Bool.false_eq_true,if_false]
    cases found : storage.cache.find? fun data => data.fullName = pattern with
    | none =>
      obtain ⟨-,-,order⟩ := sound.foldl_eraseEntry (List.nil_subset _) List.nodup_nil
      refine ⟨storage,rfl,sound,rfl,order,(List.filter_eq_self.mpr fun data inside => ?_).symm⟩
      simpa using List.find?_eq_none.mp found data inside
    | some data =>
      obtain ⟨inside,rfl⟩ := (find_key_eq_some_iff (names_nodup sound.ordered) pattern data).mp found
      obtain ⟨left,-,order⟩ := sound.foldl_eraseEntry (List.cons_subset.mpr ⟨inside,List.nil_subset _⟩) (List.nodup_singleton _)
      obtain ⟨halved,done,after,limit,same,index⟩ := left.halve
      exact ⟨halved,done,after,limit,order.trans same index,same.trans (eraseP_key (names_nodup sound.ordered) _)⟩

/-- Under a name all Data are erased, or none if the name is the full name of one. -/
theorem Sound.kept_eq (sound : storage.Sound policy) {names : List Ncfcc.Name} {pattern : Ncfcc.Name} (apart : ToldApart names)
    (here : pattern ∈ names) (known : storage.names ⊆ names) :
    (storage.cache.filter fun data => data ∉ storage.under pattern) =
      if pattern ∈ storage.names then storage.cache else storage.cache.filter fun data => !pattern.isPrefixOf data.name := by
  have typed : storage.under pattern = (storage.lowerBound pattern).takeWhile fun data => pattern.isPrefixOf data.name :=
    takeWhile_congr fun data inside => by
      have stored : data.fullName ∈ storage.names := List.mem_map_of_mem ((List.dropWhile_sublist _).subset inside)
      rw [Bool.eq_iff_iff,List.isPrefixOf_iff_prefix,List.isPrefixOf_iff_prefix]
      exact apart.prefix_iff here (known stored) List.prefix_rfl (List.prefix_append _ _)
  rw [typed]
  split
  · rename_i stored
    rw [sound.under_stored stored]
    exact List.filter_eq_self.mpr fun _ _ => by simp
  · rename_i missing
    rw [sound.under_eq missing]
    refine List.filter_congr fun data inside => ?_
    have listed : data ∈ (storage.cache.filter fun data => pattern.isPrefixOf data.name) ↔
        pattern.isPrefixOf data.name = true :=
      List.mem_filter.trans (and_iff_right inside)
    rw [Bool.eq_iff_iff,decide_eq_true_iff,listed,Bool.not_eq_true',Bool.not_eq_true]

/-- An access changes the order of the cleanup index only. -/
theorem modifyFrequency_tracked (index : List CleanupEntry) (name : Ncfcc.Name) :
    ((modifyFrequency index name).map CleanupEntry.name).Perm (index.map CleanupEntry.name) := by
  have split : index.takeWhile (fun entry => entry.name ≠ name) ++ index.dropWhile (fun entry => entry.name ≠ name) = index :=
    List.takeWhile_append_dropWhile
  unfold modifyFrequency
  cases shape : index.dropWhile fun entry => entry.name ≠ name with
  | nil => exact .refl _
  | cons entry back =>
    rw [shape] at split
    have whole : (entry.name :: (index.takeWhile (fun entry => entry.name ≠ name) ++ back).map CleanupEntry.name).Perm
        (index.map CleanupEntry.name) := by
      conv_rhs => rw [← split]
      rw [List.map_append,List.map_append,List.map_cons]
      exact List.perm_middle.symm
    dsimp only
    split
    · refine .trans (.of_eq ?_) (.of_eq (congrArg (List.map CleanupEntry.name) split))
      rw [List.map_append,List.map_append]
      rfl
    · exact ((insertByFrequency_perm _ _).map CleanupEntry.name).trans whole

theorem Sound.access (sound : storage.Sound policy) (inside : data ∈ storage.cache) :
    (storage.access policy data).Sound policy := by
  refine ⟨sound.ordered,sound.packets,sound.pool,sound.limited,?_⟩
  have index := sound.index
  split at index
  · rename_i persistent
    rw [if_pos persistent]
    subst persistent
    exact index
  · rename_i evicts
    rw [if_neg evicts]
    refine .trans ?_ index
    change ((afterAccess policy storage.cleanupIndex data.fullName).map CleanupEntry.name).Perm _
    cases policy with
    | persistent => exact .refl _
    | fifo => exact .refl _
    | lfu => exact modifyFrequency_tracked _ _
    | lru =>
      have distinct := index.nodup_iff.mpr (names_nodup sound.ordered)
      have there : data.fullName ∈ storage.tracked := index.symm.subset (List.mem_map_of_mem inside)
      refine (afterInsert_tracked evicts _ _).trans ?_
      rw [beforeErase_tracked evicts distinct]
      exact (List.perm_cons_erase there).symm

end

end InMemoryStorage

end Ncfcc.NdnCxx
