import Mathlib.Data.List.Basic
import Mathlib.Tactic.SplitIfs

/-! Texts as strings of octets: hexadecimal digits, white space and percent-encoding. -/
namespace Ncfcc.NdnCxx

abbrev Text := List UInt8

def ascii (text : String) : Text := text.toList.map fun c => UInt8.ofNat c.toNat

def percent : UInt8 := 0x25

def period : UInt8 := 0x2e

def slash : UInt8 := 0x2f

def colon : UInt8 := 0x3a

def hexDigit (isUpperCase : Bool) (digit : Nat) : UInt8 :=
  UInt8.ofNat (if digit < 10 then 0x30 + digit else (if isUpperCase then 0x37 else 0x57) + digit)

/-- Two digits, as `std::setw(2)` and the fill character `0` have them. -/
def hexOctet (isUpperCase : Bool) (octet : UInt8) : Text :=
  [hexDigit isUpperCase (octet.toNat / 16),hexDigit isUpperCase (octet.toNat % 16)]

def printHex (isUpperCase : Bool) (buffer : List UInt8) : Text := buffer.flatMap (hexOctet isUpperCase)

/-- None stands for the result -1. -/
def fromHexChar (c : UInt8) : Option Nat :=
  if 0x30 ≤ c ∧ c ≤ 0x39 then some (c.toNat - 0x30)
  else if 0x41 ≤ c ∧ c ≤ 0x46 then some (c.toNat - 0x41 + 0xA)
  else if 0x61 ≤ c ∧ c ≤ 0x66 then some (c.toNat - 0x61 + 0xA)
  else none

/-- `fromHex`, given what the decoder of the crypto library makes of a text. -/
def fromHex (hexDecoder : Text → List UInt8) (hexString : Text) : Except String (List UInt8) :=
  if hexString.length % 2 ≠ 0 then .error "Invalid number of characters in the supplied hex string"
  else if (hexDecoder hexString).length * 2 ≠ hexString.length then
    .error "The supplied hex string contains non-hex characters"
  else .ok (hexDecoder hexString)

def isSpace (c : UInt8) : Bool := c == 0x20 || (0x09 ≤ c && c ≤ 0x0d)

def trimLeft (str : Text) : Text := str.dropWhile isSpace

def trimRight (str : Text) : Text := (str.reverse.dropWhile isSpace).reverse

def trim (str : Text) : Text := trimRight (trimLeft str)

def unescape : Text → Text
  | [] => []
  | c :: first :: second :: rest =>
    if c = percent then
      (match fromHexChar first,fromHexChar second with
        | some hi,some lo => [UInt8.ofNat (hi * 16 + lo)]
        | _,_ => [c,first,second]) ++ unescape rest
    else c :: unescape (first :: second :: rest)
  | c :: rest => c :: unescape rest

private theorem fromHexChar_hexDigit (isUpperCase : Bool) {digit : Nat} (small : digit < 16) :
    fromHexChar (hexDigit isUpperCase digit) = some digit := by
  have every : ∀ upper : Bool, ∀ digit < 16, fromHexChar (hexDigit upper digit) = some digit := by decide
  exact every isUpperCase digit small

theorem unescape_cons {c : UInt8} (other : c ≠ percent) (rest : Text) : unescape (c :: rest) = c :: unescape rest := by
  match rest with
  | [] => rfl
  | [_] => rfl
  | _ :: _ :: _ => exact if_neg other

theorem unescape_hexOctet (octet : UInt8) (rest : Text) :
    unescape (percent :: (hexOctet true octet ++ rest)) = octet :: unescape rest := by
  have high : octet.toNat / 16 < 16 := by have := octet.toNat_lt; omega
  have low : octet.toNat % 16 < 16 := Nat.mod_lt _ (by decide)
  have whole : UInt8.ofNat (octet.toNat / 16 * 16 + octet.toNat % 16) = octet := by
    rw [Nat.div_add_mod',UInt8.ofNat_toNat]
  change (match fromHexChar (hexDigit true _),fromHexChar (hexDigit true _) with
    | some hi,some lo => [UInt8.ofNat (hi * 16 + lo)]
    | _,_ => _) ++ unescape rest = _
  rw [fromHexChar_hexDigit true high,fromHexChar_hexDigit true low]
  change [UInt8.ofNat _] ++ _ = _
  rw [whole]
  rfl

theorem printHex_length (isUpperCase : Bool) (buffer : List UInt8) :
    (printHex isUpperCase buffer).length = buffer.length * 2 := by
  induction buffer with
  | nil => rfl
  | cons octet buffer ih =>
    rw [printHex,List.flatMap_cons,List.length_append,List.length_cons,← printHex,ih]
    change 2 + _ = _
    omega

theorem fromHex_printHex {hexDecoder : Text → List UInt8} {isUpperCase : Bool} {buffer : List UInt8}
    (decodes : hexDecoder (printHex isUpperCase buffer) = buffer) :
    fromHex hexDecoder (printHex isUpperCase buffer) = .ok buffer := by
  unfold fromHex
  rw [decodes,printHex_length,if_neg (by omega),if_neg (by simp)]

private theorem dropWhile_padded {padding text : Text} (white : ∀ c ∈ padding, isSpace c = true)
    (starts : ∀ c ∈ text.head?, isSpace c = false) : (padding ++ text).dropWhile isSpace = text := by
  rw [List.dropWhile_append_of_pos white]
  cases text with
  | nil => rfl
  | cons c rest => exact List.dropWhile_cons_of_neg (by simp [starts c rfl])

/-- Trimming takes white space around a text away, and no more. -/
theorem trim_padded {front text back : Text} (before : ∀ c ∈ front, isSpace c = true)
    (after : ∀ c ∈ back, isSpace c = true) (nonempty : text ≠ []) (starts : ∀ c ∈ text.head?, isSpace c = false)
    (ends : ∀ c ∈ text.getLast?, isSpace c = false) : trim (front ++ (text ++ back)) = text := by
  have left : trimLeft (front ++ (text ++ back)) = text ++ back := by
    refine dropWhile_padded before ?_
    rw [List.head?_append_of_ne_nil text nonempty]
    exact starts
  unfold trim
  rw [left,trimRight,List.reverse_append,dropWhile_padded,List.reverse_reverse]
  · exact fun c inside => after c (List.mem_reverse.mp inside)
  · rw [List.head?_reverse]
    exact ends

/-- A text without white space has nothing to trim. -/
theorem trim_of_plain {str : Text} (plain : ∀ c ∈ str, isSpace c = false) : trim str = str := by
  by_cases nonempty : str = []
  · rw [nonempty]
    rfl
  · have none : ∀ c ∈ ([] : Text), isSpace c = true := fun _ inside => absurd inside List.not_mem_nil
    have padded := trim_padded none none nonempty (fun c first => plain c (List.mem_of_mem_head? first))
      (fun c last => plain c (List.mem_of_mem_getLast? last))
    rwa [List.append_nil] at padded

end Ncfcc.NdnCxx
