import Ncfcc.Name
import Ncfcc.Utils.Trie

/-! The content store over a trie of names, with an arbitrary replacement policy
beside it. The policy decides which entries are dropped when one is added. -/
namespace Ncfcc.Cs
open Ncfcc.Utils

structure Data where
  name : Name
  content : List UInt8
  deriving DecidableEq

/-- The map of an Exclude runs from the greatest component down; the flag says
that everything up to the next greater entry is excluded as well. -/
structure Exclude where
  entries : List (Component × Bool)
  ordered : entries.Pairwise fun first second => Component.less second.1 first.1

namespace Exclude

def empty (exclude : Exclude) : Bool := exclude.entries.isEmpty

def isExcluded (exclude : Exclude) (component : Component) : Bool :=
  match exclude.entries.find? (fun entry => !Component.less component entry.1) with
  | none => false
  | some (bound,any) => if any then true else bound == component

end Exclude

structure Interest where
  name : Name
  exclude : Exclude

/-- A replacement policy. Inserting an item says whether it is kept and which
items are erased for it; `lookupEnd` is `lookup` at the null iterator, undefined
for the policies that dereference it. -/
structure Policy where
  State : Type
  initial : State
  insert : State → Data → Bool × List Name × State
  lookup : State → Name → State
  lookupEnd : State → Option State
  erase : State → Name → State

structure ContentStore (policy : Policy) where
  trie : Trie Component Data
  state : policy.State

namespace ContentStore
variable {policy : Policy}

def empty : ContentStore policy := ⟨.node [] none [],policy.initial⟩

/-- `Add`: a name that is taken keeps its Data. -/
def add (store : ContentStore policy) (layout : Trie.Layout Component Data) (data : Data) :
    Bool × ContentStore policy :=
  let (inserted,trie) := store.trie.insert layout data.name data
  if inserted then
    let (ok,victims,state) := policy.insert store.state data
    let trie := victims.foldl Trie.erase trie
    if ok then (true,⟨trie,state⟩) else (false,⟨trie.erase data.name,state⟩)
  else (false,⟨trie,store.state⟩)

/-- `trie_with_policy::erase`, as the expiry of an entry calls it. -/
def erase (store : ContentStore policy) (name : Name) : ContentStore policy :=
  ⟨store.trie.erase name,policy.erase store.state name⟩

def touch (store : ContentStore policy) : Option (Name × Data) → Option (Option Data × ContentStore policy)
  | some (path,data) => some (some data,⟨store.trie,policy.lookup store.state path⟩)
  | none => (policy.lookupEnd store.state).map fun state => (none,⟨store.trie,state⟩)

/-- No result at all stands for the policy being given a null iterator it dereferences. -/
def deepestPrefixMatch (store : ContentStore policy) (name : Name) :
    Option (Option Data × ContentStore policy) :=
  let result := store.trie.find name
  if result.reachLast then
    match result.found with
    | some item => store.touch (some item)
    | none => store.touch (result.last.first.map fun (path,data) => (result.path ++ path,data))
  else some (none,store)

def deepestPrefixMatchIfNextLevel (store : ContentStore policy) (name : Name) (test : Component → Bool) :
    Option (Option Data × ContentStore policy) :=
  let result := store.trie.find name
  if result.reachLast then
    match result.last.findIfNextLevel test with
    | some (path,data) => store.touch (some (result.path ++ path,data))
    | none => some (none,store)
  else some (none,store)

def lookup (store : ContentStore policy) (interest : Interest) : Option (Option Data × ContentStore policy) :=
  if interest.exclude.empty then store.deepestPrefixMatch interest.name
  else store.deepestPrefixMatchIfNextLevel interest.name fun component => !interest.exclude.isExcluded component

end ContentStore

/-- The contents a store can have, with the Data whose `Add` succeeded so far. -/
inductive Reachable (policy : Policy) : List Data → ContentStore policy → Prop
  | empty : Reachable policy [] .empty
  | add (added : List Data) (store : ContentStore policy) (layout : Trie.Layout Component Data) (data : Data)
      (before : Reachable policy added store) :
      Reachable policy (if (store.add layout data).1 then data :: added else added) (store.add layout data).2
  | lookup (added : List Data) (store : ContentStore policy) (interest : Interest) (answer : Option Data)
      (after : ContentStore policy) (before : Reachable policy added store)
      (looked : store.lookup interest = some (answer,after)) : Reachable policy added after
  | erase (added : List Data) (store : ContentStore policy) (name : Name)
      (before : Reachable policy added store) : Reachable policy added (store.erase name)

end Ncfcc.Cs
