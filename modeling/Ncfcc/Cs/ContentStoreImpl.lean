import Ncfcc.Library.Run
import Ncfcc.Cs.Policies

/-! `ContentStoreImpl` over one replacement policy or a `multi_policy_container` of two.
The trie and the policies are changed together: an eviction inside the insertion
into one policy erases the node from all of them. -/
namespace Ncfcc.Cs
open Ncfcc.Library Ncfcc.Utils

inductive Replacement where
  | lru
  | lfu
  | fifo
  | random
  deriving DecidableEq, Repr

def Replacement.traits : Replacement → PolicyTraits
  | lru => .lru
  | lfu => .lfu
  | fifo => .fifo
  | random => .random

/-- The store classes: the plain one, `ContentStoreWithStats`,
`ContentStoreWithFreshness` and `ContentStoreWithProbability`. -/
inductive StoreClass where
  | impl
  | stats
  | freshness
  | probability
  deriving DecidableEq, Repr

def StoreClass.traits (kind : StoreClass) (replacement : Replacement) : List PolicyTraits :=
  match kind with
  | impl => [replacement.traits]
  | stats => [replacement.traits,.lifetimeStats]
  | freshness => [replacement.traits,.freshness]
  | probability => [.probability,replacement.traits]

/-- What the trace sources report, oldest first. -/
inductive StoreTrace where
  | didAddEntry (entry : Entry) (time : Time)
  | willRemoveEntry (entry : Entry) (lifetime time : Time)
  deriving DecidableEq

def StoreTrace.entry : StoreTrace → Entry
  | .didAddEntry entry _ => entry
  | .willRemoveEntry entry _ _ => entry

structure ContentStoreImpl where
  trie : Trie Component Entry
  policies : List MemberPolicy
  /-- How many entries were created. -/
  created : Nat
  trace : List StoreTrace

namespace MemberPolicy

/-- What `erase` reports about a node that is in the container. -/
def removal (member : MemberPolicy) (now : Time) (entry : Entry) : List StoreTrace :=
  if member.traits.reports then
    (member.items.find? (fun item => item.1 = entry.data.name)).toList.map fun item =>
      .willRemoveEntry entry (now - item.2) now
  else []

end MemberPolicy

namespace ContentStoreImpl

def new (traits : List PolicyTraits) : ContentStoreImpl where
  trie := .node [] none []
  policies := traits.map .new
  created := 0
  trace := []

def Stored (store : ContentStoreImpl) (entry : Entry) : Prop := store.trie.get entry.data.name = some entry

/-- `erase` of one member policy. -/
def eraseMember (now : Time) (entry : Entry) (index : Nat) (store : ContentStoreImpl) : ContentStoreImpl :=
  { store with
    policies := store.policies.modify index (MemberPolicy.erase · entry)
    trace := store.trace ++ (store.policies[index]?.toList.flatMap fun member => member.removal now entry) }

/-- `trie_with_policy::erase`: the policies erase the node, the last one first, and the
trie prunes it. Nothing happens at a name that is not stored. -/
def erase (now : Time) (name : Name) (store : ContentStoreImpl) : ContentStoreImpl :=
  match store.trie.get name with
  | none => store
  | some entry =>
    { store with
      trie := store.trie.erase name
      policies := store.policies.map (MemberPolicy.erase · entry)
      trace := store.trace ++ store.policies.reverse.flatMap (MemberPolicy.removal · now entry) }

/-- The eviction inside `insert`: a full container gives up its first node. -/
def makeRoom (now : Time) (member : MemberPolicy) (store : ContentStoreImpl) : ContentStoreImpl :=
  if member.traits.limited && member.full then
    match member.items.head? with
    | none => store
    | some victim => store.erase now victim.1
  else store

/-- `insert` of one member policy. -/
def insertMember (call : Call) (entry : Entry) (index : Nat) (store : ContentStoreImpl) :
    Bool × ContentStoreImpl :=
  match store.policies[index]? with
  | none => (true,store)
  | some member =>
    if member.rejects call then (false,store)
    else
      let store := store.makeRoom call.now member
      (true,{ store with policies := store.policies.modify index (MemberPolicy.link · call entry) })

/-- `inherit_with_base::insert` over the first `count` policies: the last of them comes
first, and takes the node out again when one before it in the vector refuses. -/
def insertPolicies (call : Call) (entry : Entry) : (count : Nat) → ContentStoreImpl → Bool × ContentStoreImpl
  | 0, store => (true,store)
  | count + 1, store =>
    let (ok,store) := store.insertMember call entry count
    if ok then
      let (ok,store) := insertPolicies call entry count store
      if ok then (true,store) else (false,store.eraseMember call.now entry count)
    else (false,store)

def add (call : Call) (layout : Trie.Layout Component Entry) (data : FreshData) (store : ContentStoreImpl) :
    Bool × ContentStoreImpl :=
  let entry : Entry := ⟨data,store.created⟩
  let (inserted,trie) := store.trie.insert layout data.name entry
  let store := { store with trie, created := store.created + 1 }
  if inserted then
    let (ok,store) := store.insertPolicies call entry store.policies.length
    if ok then (true,{ store with trace := store.trace ++ [.didAddEntry entry call.now] })
    else (false,{ store with trie := store.trie.erase data.name })
  else (false,store)

/-- What `deepest_prefix_match` hands to the policy: nothing, or an iterator that is
null when it found no payload. -/
def deepestPrefixMatch (trie : Trie Component Entry) (name : Name) : Option (Option (Name × Entry)) :=
  let result := trie.find name
  if result.reachLast then
    match result.found with
    | some item => some (some item)
    | none => some (result.last.first.map fun (path,entry) => (result.path ++ path,entry))
  else none

def deepestPrefixMatchIfNextLevel (trie : Trie Component Entry) (name : Name) (test : Component → Bool) :
    Option (Option (Name × Entry)) :=
  let result := trie.find name
  if result.reachLast then
    (result.last.findIfNextLevel test).map fun (path,entry) => some (result.path ++ path,entry)
  else none

/-- No result at all stands for a policy dereferencing a null iterator. -/
def lookup (interest : Interest) (store : ContentStoreImpl) : Option (Option Entry × ContentStoreImpl) :=
  let matched := if interest.exclude.empty then deepestPrefixMatch store.trie interest.name
    else deepestPrefixMatchIfNextLevel store.trie interest.name
      fun component => !interest.exclude.isExcluded component
  match matched with
  | none => some (none,store)
  | some none => if store.policies.any (fun member => member.traits.dereferences) then none else some (none,store)
  | some (some (path,entry)) =>
    some (some entry,{ store with policies := store.policies.map (MemberPolicy.lookup · path) })

/-- `SetMaxSize` sets the limit of every member policy. -/
def setMaxSize (maxSize : Nat) (store : ContentStoreImpl) : ContentStoreImpl :=
  { store with policies := store.policies.map fun member => { member with maxSize } }

/-- `GetSize` is the size of the first container. -/
def getSize (store : ContentStoreImpl) : Nat := (store.policies.head?.map fun member => member.items.length).getD 0

/-- `GetMaxSize` is the limit of the first policy. -/
def getMaxSize (store : ContentStoreImpl) : Nat := (store.policies.head?.map MemberPolicy.maxSize).getD 0

def freshness (store : ContentStoreImpl) : List Item :=
  (store.policies.find? fun member => member.traits.expires).elim [] MemberPolicy.items

/-- The loop of `CleanExpired`, for at most as many rounds as `fuel`. -/
def cleanRounds (now : Time) : (fuel : Nat) → ContentStoreImpl → ContentStoreImpl
  | 0, store => store
  | fuel + 1, store =>
    match store.freshness.head? with
    | none => store
    | some item => if item.2 ≤ now then cleanRounds now fuel (store.erase now item.1) else store

def cleanExpired (now : Time) (store : ContentStoreImpl) : ContentStoreImpl :=
  store.cleanRounds now store.freshness.length

end ContentStoreImpl

inductive StoreEvent where
  | add (call : Call) (layout : Trie.Layout Component Entry) (data : FreshData)
  | lookup (interest : Interest)
  | setMaxSize (maxSize : Nat)
  | erase (now : Time) (name : Name)
  | cleanExpired (now : Time)

namespace ContentStoreImpl

def step (store : ContentStoreImpl) : StoreEvent → Option ContentStoreImpl
  | .add call layout data => some (store.add call layout data).2
  | .lookup interest => (store.lookup interest).map Prod.snd
  | .setMaxSize maxSize => some (store.setMaxSize maxSize)
  | .erase now name => some (store.erase now name)
  | .cleanExpired now => some (store.cleanExpired now)

/-- The steps of a run; there is no store any more after an undefined lookup. -/
def next : Option ContentStoreImpl → StoreEvent → Option ContentStoreImpl := attempt step

end ContentStoreImpl

end Ncfcc.Cs
