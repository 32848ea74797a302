import Ncfcc.Nfd.CityHash
import Ncfcc.Library.Chains
import Ncfcc.Library.Run

/-! The name tree: entries linked into a tree by their names and chained in a hash
table. Entries are identified by the address they were created at, so that two
entries of one name can be told apart. Names are compared with the types of their
components, as they are hashed. Unsafe resizes can leave a deleted node in a chain:
here it is passed over, in the source its memory is read. -/
namespace Ncfcc.Nfd
open Ncfcc.Library

namespace NameTree

structure Entry where
  hash : UInt64
  name : Name
  parent : Option Nat
  children : List Nat
  fibEntry : Option Nat
  pitEntries : List Nat
  measurementsEntry : Option Nat
  strategyChoiceEntry : Option Nat
  deriving DecidableEq

def Entry.isEmpty (entry : Entry) : Bool :=
  entry.children.isEmpty && entry.fibEntry.isNone && entry.pitEntries.isEmpty &&
    entry.measurementsEntry.isNone && entry.strategyChoiceEntry.isNone

def swapRemove (children : List Nat) (child : Nat) : List Nat :=
  if child ∈ children then (children.set (children.idxOf child) (children.getLastD child)).dropLast
  else children

end NameTree

structure NameTree where
  entries : Nat → Option NameTree.Entry
  nextEntry : Nat
  buckets : Nat → List Nat
  nItems : Nat
  nBuckets : Nat
  minNBuckets : Nat
  enlargeThreshold : Nat
  shrinkThreshold : Nat

namespace NameTree

def initial (nBuckets : Nat) : NameTree where
  entries := fun _ => none
  nextEntry := 0
  buckets := fun _ => []
  nItems := 0
  nBuckets := nBuckets
  minNBuckets := nBuckets
  enlargeThreshold := nBuckets / 2
  shrinkThreshold := nBuckets / 10

section
variable (hashComponent : Component → UInt64)

def computeHash (name : Name) : UInt64 :=
  name.foldl (fun value component => value ^^^ hashComponent component) 0

/-- The hashes of all prefixes, the empty one first. -/
def computeHashSet (name : Name) : List UInt64 :=
  name.scanl (fun value component => value ^^^ hashComponent component) 0

end

def location (tree : NameTree) (hash : UInt64) : Nat := hash.toNat % tree.nBuckets

def modify (tree : NameTree) (id : Nat) (change : Entry → Entry) : NameTree :=
  { tree with entries := Function.update tree.entries id ((tree.entries id).map change) }

def find (tree : NameTree) (bucket : Nat) (test : Entry → Bool) : Option Nat :=
  (tree.buckets bucket).find? fun id => (tree.entries id).any test

/-- `resize`. The hash is cut to 32 bits before the new bucket is computed. The source asserts that as many
nodes are met as there are items, and divides by the number of buckets. -/
def resize (tree : NameTree) (newNBuckets : Nat) : NameTree :=
  { tree with
    buckets := Chains.rehash
      (fun id => ((tree.entries id).map (fun entry => entry.hash.toUInt32.toNat % newNBuckets)).getD 0)
      (Chains.walk tree.nBuckets tree.buckets)
    nBuckets := newNBuckets
    enlargeThreshold := newNBuckets / 2
    shrinkThreshold := newNBuckets / 10 }

def enlarge (tree : NameTree) : NameTree :=
  if tree.nItems > tree.enlargeThreshold then tree.resize (2 * tree.nBuckets) else tree

def shrink (tree : NameTree) : NameTree :=
  if tree.nBuckets / 2 ≥ tree.minNBuckets ∧ tree.nItems < tree.shrinkThreshold then
    tree.resize (tree.nBuckets / 2)
  else tree

def create (tree : NameTree) (hash : UInt64) (name : Name) : NameTree :=
  { tree with
    entries := Function.update tree.entries tree.nextEntry (some ⟨hash,name,none,[],none,[],none,none⟩)
    nextEntry := tree.nextEntry + 1
    buckets := Chains.append tree.buckets (tree.location hash) tree.nextEntry }

def addChild (tree : NameTree) (parent : Option Nat) (child : Nat) : NameTree :=
  match parent with
  | none => tree
  | some id => tree.modify id fun entry => { entry with children := entry.children ++ [child] }

section
variable (hashComponent : Component → UInt64)

/-- `insert`: the entry of the name, whether it is new, and the tree with it. -/
def insert (tree : NameTree) (name : Name) : Nat × Bool × NameTree :=
  let hash := computeHash hashComponent name
  match tree.find (tree.location hash) (fun entry => entry.name = name) with
  | some id => (id,false,tree)
  | none => (tree.nextEntry,true,tree.create hash name)

/-- A round of the loop of `lookup` up to the check of the load. -/
def visit (tree : NameTree) (parent : Option Nat) (name : Name) : Nat × NameTree :=
  match tree.insert hashComponent name with
  | (id,false,tree) => (id,tree)
  | (id,true,tree) =>
    let tree := { tree with nItems := tree.nItems + 1 }
    (id,(tree.modify id fun entry => { entry with parent }).addChild parent id)

def lookupStep (state : NameTree × Option Nat) (name : Name) : NameTree × Option Nat :=
  let (id,tree) := state.1.visit hashComponent state.2 name
  (tree.enlarge,some id)

def prefixes (name : Name) : List Name := (List.range (name.length + 1)).map name.getPrefix

def lookup (tree : NameTree) (name : Name) : NameTree × Option Nat :=
  run (lookupStep hashComponent) (tree,none) (prefixes name)

def findExactMatch (tree : NameTree) (name : Name) : Option Nat :=
  let hash := computeHash hashComponent name
  tree.find (tree.location hash) (fun entry => hash = entry.hash ∧ name = entry.name)

def findLongestPrefixMatch (tree : NameTree) (name : Name) (selector : Entry → Bool) : Option Nat :=
  (List.range (name.length + 1)).reverse.findSome? fun length =>
    let hash := (computeHashSet hashComponent name).getD length 0
    tree.find (tree.location hash)
      (fun entry => hash = entry.hash ∧ entry.name <+: name ∧ selector entry = true)

end

/-- The overload that walks up the parents, for at most as many steps as `fuel`. -/
def findLongestPrefixMatchFrom (tree : NameTree) (selector : Entry → Bool) : (fuel : Nat) → Option Nat → Option Nat
  | _, none => none
  | 0, some _ => none
  | fuel + 1, some id =>
    match tree.entries id with
    | none => none
    | some entry =>
      if selector entry then some id else tree.findLongestPrefixMatchFrom selector fuel entry.parent

/-- Takes a node out of its chain. The first node of a chain is skipped in the
bucket of the entry's hash, whatever chain it is in. -/
def unchain (tree : NameTree) (id : Nat) (hash : UInt64) : Nat → List Nat :=
  match (List.range tree.nBuckets).find? (fun bucket => id ∈ tree.buckets bucket) with
  | none => tree.buckets
  | some bucket =>
    if (tree.buckets bucket).head? = some id then
      Function.update tree.buckets (tree.location hash) (tree.buckets bucket).tail
    else Function.update tree.buckets bucket ((tree.buckets bucket).erase id)

def unlink (tree : NameTree) (id : Nat) (entry : Entry) : NameTree :=
  let parted := match entry.parent with
    | none => tree
    | some parent => tree.modify parent fun above => { above with children := swapRemove above.children id }
  { parted with
    entries := Function.update parted.entries id none
    buckets := parted.unchain id entry.hash
    nItems := parted.nItems - 1 }

/-- `eraseEntryIfEmpty`, for at most as many entries as `fuel`. -/
def eraseIfEmpty : (fuel : Nat) → NameTree → Nat → Bool × NameTree
  | 0, tree, _ => (false,tree)
  | fuel + 1, tree, id =>
    match tree.entries id with
    | none => (false,tree)
    | some entry =>
      if entry.isEmpty then
        let tree := tree.unlink id entry
        let tree := match entry.parent with
          | none => tree
          | some parent => (eraseIfEmpty fuel tree parent).2
        (true,tree.shrink)
      else (false,tree)

/-- A parent's name is shorter, so the components of the name bound the recursion. -/
def eraseEntryIfEmpty (tree : NameTree) (id : Nat) : Bool × NameTree :=
  match tree.entries id with
  | none => (false,tree)
  | some entry => eraseIfEmpty (entry.name.length + 1) tree id

structure Attached where
  fibEntry : Option Nat
  pitEntries : List Nat
  measurementsEntry : Option Nat
  strategyChoiceEntry : Option Nat
  deriving DecidableEq, Repr

def attach (tree : NameTree) (id : Nat) (attached : Attached) : NameTree :=
  tree.modify id fun entry => { entry with
    fibEntry := attached.fibEntry
    pitEntries := attached.pitEntries
    measurementsEntry := attached.measurementsEntry
    strategyChoiceEntry := attached.strategyChoiceEntry }

inductive Call where
  | lookup (name : Name)
  | attach (id : Nat) (attached : Attached)
  | eraseEntryIfEmpty (id : Nat)
  deriving DecidableEq, Repr

def call (hashComponent : Component → UInt64) (tree : NameTree) : Call → NameTree
  | .lookup name => (tree.lookup hashComponent name).1
  | .attach id attached => tree.attach id attached
  | .eraseEntryIfEmpty id => (tree.eraseEntryIfEmpty id).2

/-- The hash that the name tree uses where `size_t` has 64 bits. -/
def cityHash (component : Component) : UInt64 := CityHash.cityHash64 (Component.wire component)

end NameTree

end Ncfcc.Nfd
