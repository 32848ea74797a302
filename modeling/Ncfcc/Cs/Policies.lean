import Mathlib.Algebra.Order.Group.Unbundled.Int
import Ncfcc.Library.TimedSet
import Ncfcc.Cs.ContentStore

/-! The replacement policies of the content stores and their combinations. A policy is
its container of nodes, in container order and with the value of each node's hook,
and the traits that tell one policy from another; a node is named by its path. -/
namespace Ncfcc.Cs
open Ncfcc.Library Ncfcc.Utils

abbrev Time := Int

def milliSeconds (count : Int) : Time := count * 1000000

/-- A Data with its FreshnessPeriod in milliseconds, negative if it has none. -/
structure FreshData extends Data where
  freshnessPeriod : Int
  deriving DecidableEq

/-- A store entry. Every `Add` creates one, whether it is kept or not, and the
number tells it from all others. -/
structure Entry where
  data : FreshData
  number : Nat
  deriving DecidableEq

/-- What a call of `Add` takes from outside: the time, the value drawn by the random
policy, and whether the value drawn by the probability policy is below its limit. -/
structure Call where
  now : Time
  randomOrder : Nat
  admitted : Bool
  deriving DecidableEq

/-- A node in a policy container, with the value of its hook. -/
abbrev Item := Name × Int

def unlink (name : Name) (items : List Item) : List Item := items.eraseP (fun item => item.1 = name)

def pushBack (item : Item) (items : List Item) : List Item := items ++ [item]

private theorem pushBack_unlink (item : Item) (items : List Item) (absent : item.1 ∉ items.map Prod.fst) :
    unlink item.1 (pushBack item items) = items := by
  unfold unlink pushBack
  rw [List.eraseP_append_right _ (fun other member same =>
    absent (List.mem_map.mpr ⟨other,member,of_decide_eq_true same⟩))]
  simp

private theorem place_unlink (item : Item) (items : List Item) (absent : item.1 ∉ items.map Prod.fst) :
    unlink item.1 (TimedSet.place item items) = items := by
  induction items with
  | nil => simp [TimedSet.place,unlink]
  | cons head tail ih =>
    rw [List.map_cons,List.mem_cons,not_or] at absent
    unfold TimedSet.place
    split
    · simp [unlink]
    · have apart : head.1 ≠ item.1 := fun same => absent.1 same.symm
      have below := ih absent.2
      unfold unlink at *
      rw [List.eraseP_cons_of_neg (by simpa using apart),below]

def splice (name : Name) (items : List Item) : List Item :=
  match items.find? (fun item => item.1 = name) with
  | none => items
  | some item => pushBack item (unlink name items)

/-- The frequency is a `double`, which adding one no longer changes from `2^53` on. -/
def recount (name : Name) (items : List Item) : List Item :=
  match items.find? (fun item => item.1 = name) with
  | none => items
  | some item => TimedSet.place (item.1,min (item.2 + 1) (2^53)) (unlink name items)

private theorem find_unlink_perm {name : Name} {items : List Item} {item : Item}
    (found : items.find? (fun item => item.1 = name) = some item) :
    (item :: unlink name items).Perm items := by
  unfold unlink
  induction items with
  | nil => cases found
  | cons head tail ih =>
    by_cases here : head.1 = name
    · rw [List.find?_cons_of_pos (by simpa using here)] at found
      rw [List.eraseP_cons_of_pos (by simpa using here),Option.some.inj found]
    · rw [List.find?_cons_of_neg (by simpa using here)] at found
      rw [List.eraseP_cons_of_neg (by simpa using here)]
      exact (List.Perm.swap head item _).trans ((ih found).cons head)

private theorem splice_keys (name : Name) (items : List Item) :
    ((splice name items).map Prod.fst).Perm (items.map Prod.fst) := by
  unfold splice
  cases found : items.find? (fun item => item.1 = name) with
  | none => exact List.Perm.refl _
  | some item => exact ((List.perm_append_singleton item _).trans (find_unlink_perm found)).map Prod.fst

private theorem recount_keys (name : Name) (items : List Item) :
    ((recount name items).map Prod.fst).Perm (items.map Prod.fst) := by
  unfold recount
  cases found : items.find? (fun item => item.1 = name) with
  | none => exact List.Perm.refl _
  | some item =>
    refine ((TimedSet.place_perm _ _).map Prod.fst).trans ?_
    exact (find_unlink_perm found).map Prod.fst

/-- What tells one policy from another. The laws say that linking adds one node that
unlinking removes again, and that a lookup moves nodes only. -/
structure PolicyTraits where
  /-- A full container evicts its first node for a new one. -/
  limited : Bool
  /-- Is the node linked into the container at all? -/
  controls : Entry → Bool
  hook : Call → Entry → Int
  /-- Is the node refused, given whether the container is full and its first node? -/
  rejects : Call → Bool → Option Item → Bool
  link : Item → List Item → List Item
  lookup : Name → List Item → List Item
  /-- `lookup` dereferences its iterator, null or not. -/
  dereferences : Bool
  /-- `erase` fires `WillRemoveEntry`. -/
  reports : Bool
  /-- The hook is the time at which `CleanExpired` removes the node. -/
  expires : Bool
  link_perm : ∀ item items, (link item items).Perm (item :: items)
  link_unlink : ∀ (item : Item) items, item.1 ∉ items.map Prod.fst → unlink item.1 (link item items) = items
  lookup_keys : ∀ name items, ((lookup name items).map Prod.fst).Perm (items.map Prod.fst)

namespace PolicyTraits

/-- A policy over a list, or over a multiset ordered by the hook, that does nothing of its own. -/
def plain (ordered : Bool) : PolicyTraits where
  limited := false
  controls _ := true
  hook _ _ := 0
  rejects _ _ _ := false
  link := if ordered then TimedSet.place else pushBack
  lookup _ items := items
  dereferences := false
  reports := false
  expires := false
  link_perm item items := by
    cases ordered with
    | true => exact TimedSet.place_perm item items
    | false => exact List.perm_append_singleton item items
  link_unlink item items absent := by
    cases ordered with
    | true => exact place_unlink item items absent
    | false => exact pushBack_unlink item items absent
  lookup_keys _ _ := List.Perm.refl _

/-- `lru_policy_traits`. -/
def lru : PolicyTraits :=
  { plain false with limited := true, lookup := splice, dereferences := true, lookup_keys := splice_keys }

/-- `lfu_policy_traits`. -/
def lfu : PolicyTraits :=
  { plain true with limited := true, lookup := recount, dereferences := true, lookup_keys := recount_keys }

/-- `fifo_policy_traits`. -/
def fifo : PolicyTraits := { plain false with limited := true }

/-- `random_policy_traits`: a full container refuses a node that would come first. -/
def random : PolicyTraits :=
  { plain true with
    limited := true
    hook := fun call _ => call.randomOrder
    rejects := fun call full first => full && first.any (fun item => (call.randomOrder : Int) < item.2) }

/-- `freshness_policy_traits`: only Data with a positive FreshnessPeriod is linked. -/
def freshness : PolicyTraits :=
  { plain true with
    controls := fun entry => 0 < entry.data.freshnessPeriod
    hook := fun call entry => call.now + milliSeconds entry.data.freshnessPeriod
    expires := true }

/-- `lifetime_stats_policy_traits`. -/
def lifetimeStats : PolicyTraits :=
  { plain false with hook := fun call _ => call.now, reports := true }

/-- `probability_policy_traits`. -/
def probability : PolicyTraits :=
  { plain false with rejects := fun call _ _ => !call.admitted }

end PolicyTraits

structure MemberPolicy where
  traits : PolicyTraits
  maxSize : Nat
  items : List Item

namespace MemberPolicy

def new (traits : PolicyTraits) : MemberPolicy := ⟨traits,100,[]⟩

def names (member : MemberPolicy) : List Name := member.items.map Prod.fst

def full (member : MemberPolicy) : Bool := member.maxSize ≠ 0 && member.maxSize ≤ member.items.length

def rejects (member : MemberPolicy) (call : Call) : Bool :=
  member.traits.rejects call member.full member.items.head?

/-- The end of `insert`, after the eviction. -/
def link (member : MemberPolicy) (call : Call) (entry : Entry) : MemberPolicy :=
  if member.traits.controls entry then
    { member with items := member.traits.link (entry.data.name,member.traits.hook call entry) member.items }
  else member

def lookup (member : MemberPolicy) (name : Name) : MemberPolicy :=
  { member with items := member.traits.lookup name member.items }

def erase (member : MemberPolicy) (entry : Entry) : MemberPolicy :=
  if member.traits.controls entry then { member with items := unlink entry.data.name member.items }
  else member

end MemberPolicy

namespace Policy

/-- The policy of a store with one container, whose insertions all take the same `call`
from outside. The Data have no FreshnessPeriod. -/
def ofTraits (traits : PolicyTraits) (maxSize : Nat) (call : Call) : Policy where
  State := MemberPolicy
  initial := ⟨traits,maxSize,[]⟩
  insert member data :=
    if member.rejects call then (false,[],member)
    else
      let victims := if member.traits.limited && member.full then member.names.take 1 else []
      (true,victims,MemberPolicy.link { member with items := victims.foldr unlink member.items } call ⟨⟨data,-1⟩,0⟩)
  lookup := .lookup
  lookupEnd member := if member.traits.dereferences then none else some member
  erase member name := { member with items := unlink name member.items }

/-- `lru_policy_traits`. -/
def lru (maxSize : Nat) : Policy := ofTraits .lru maxSize ⟨0,0,true⟩

/-- `fifo_policy_traits`. -/
def fifo (maxSize : Nat) : Policy := ofTraits .fifo maxSize ⟨0,0,true⟩

end Policy

end Ncfcc.Cs
