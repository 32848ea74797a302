import Mathlib.Data.List.Basic
import Mathlib.Tactic.Ring

/-! Numbers as strings of octets, the most significant first, and strings cut into
pieces of equal length. -/
namespace Ncfcc.Library

def bigEndian (count number : Nat) : List UInt8 :=
  (List.range count).reverse.map fun index => UInt8.ofNat (number / 256^index)

def fromBigEndian (octets : List UInt8) : Nat := octets.foldl (fun number octet => number * 256 + octet.toNat) 0

@[simp] theorem bigEndian_length (count number : Nat) : (bigEndian count number).length = count := by
  simp [bigEndian]

theorem bigEndian_succ (count number : Nat) :
    bigEndian (count + 1) number = UInt8.ofNat (number / 256^count) :: bigEndian count number := by
  simp [bigEndian,List.range_succ]

private theorem foldl_octets (octets : List UInt8) (start : Nat) :
    octets.foldl (fun number octet => number * 256 + octet.toNat) start =
      start * 256^octets.length + fromBigEndian octets := by
  induction octets generalizing start with
  | nil => simp [fromBigEndian]
  | cons octet octets ih =>
    unfold fromBigEndian
    rw [List.foldl_cons,List.foldl_cons,ih,ih,List.length_cons,pow_succ]
    ring

private theorem fromBigEndian_bigEndian (count number : Nat) :
    fromBigEndian (bigEndian count number) = number % 256^count := by
  induction count with
  | zero => simp [bigEndian,fromBigEndian,Nat.mod_one]
  | succ count ih =>
    have octet : (UInt8.ofNat (number / 256^count)).toNat = number / 256^count % 256 := UInt8.toNat_ofNat'
    unfold fromBigEndian
    rw [bigEndian_succ,List.foldl_cons,foldl_octets,ih,bigEndian_length,octet,pow_succ,Nat.mod_mul]
    ring

theorem fromBigEndian_of_lt {count number : Nat} (small : number < 256^count) :
    fromBigEndian (bigEndian count number) = number := by
  rw [fromBigEndian_bigEndian,Nat.mod_eq_of_lt small]

/-- Pieces of equal length, put together again. -/
theorem flatMap_pieces {α : Type*} (whole : List α) (size count : Nat) :
    (List.range count).flatMap (fun index => (whole.drop (index * size)).take size) = whole.take (count * size) := by
  induction count with
  | zero => simp
  | succ count ih =>
    rw [List.range_succ,List.flatMap_append,ih,List.flatMap_singleton,Nat.succ_mul,List.take_add]

end Ncfcc.Library
