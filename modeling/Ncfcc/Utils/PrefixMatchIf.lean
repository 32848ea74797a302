import Ncfcc.Utils.TrieWithPolicy

/-! The longest prefix match among the payloads that pass a test. The walk tests every node but
the one it starts from, so that a payload of the empty key is found without passing. -/
namespace Ncfcc.Utils
open Ncfcc.Library

namespace TrieWithPolicy
variable {κ α : Type} [DecidableEq κ] {policy : KeepingPolicy κ α}

def longestPrefixMatchIf (store : TrieWithPolicy policy) (key : List κ) (pred : α → Bool) :
    Option (List κ × α) × TrieWithPolicy policy :=
  match (store.trie.findIf key pred).found with
  | none => (none,store)
  | some (path,payload) => (some (path,payload),⟨store.trie,policy.lookup store.state path⟩)

/-- The stored entry that passes the test and whose key is the longest such prefix. -/
def LongestAccepted (map : List κ → Option α) (pred : α → Bool) (key : List κ) : Option (List κ × α) → Prop
  | none => ∀ below payload, below <+: key → map below = some payload → pred payload = false
  | some (path,payload) => path <+: key ∧ map path = some payload ∧ pred payload = true ∧
    ∀ other value, other <+: key → map other = some value → pred value = true → other.length ≤ path.length

/-- The payload of the empty key, if there is one, passes the test, or that of a longer prefix does. -/
def RootSettled (map : List κ → Option α) (pred : α → Bool) (key : List κ) : Prop :=
  ∀ root, map [] = some root → pred root = true ∨
    ∃ below payload, below <+: key ∧ below ≠ [] ∧ map below = some payload ∧ pred payload = true

private theorem longestPrefixMatchIf_true (store : TrieWithPolicy policy) (key : List κ) :
    store.longestPrefixMatchIf key (fun _ => true) = store.longestPrefixMatch key := by
  have same : store.trie.findIf key (fun _ => true) = store.trie.find key := Trie.findIfFrom_true ..
  unfold longestPrefixMatchIf
  rw [same]
  rfl

private theorem longestPrefixMatchIf_found (store : TrieWithPolicy policy) (key : List κ) (pred : α → Bool) :
    (store.longestPrefixMatchIf key pred).1 = (store.trie.findIf key pred).found := by
  unfold longestPrefixMatchIf
  cases (store.trie.findIf key pred).found with
  | none => rfl
  | some item => rfl

def unrecorded : KeepingPolicy Nat Nat := ⟨Unit,(),fun _ _ _ => (true,()),fun _ _ => (),fun _ _ => ()⟩

end TrieWithPolicy

end Ncfcc.Utils
