import Ncfcc.Library.TextInput

/-! Strings in a buffer of characters, each up to the character that terminates it. Nothing is defined
outside of the buffer. -/
namespace Ncfcc.Library

def terminator : Char := '\x00'

abbrev Buffer := List Char

namespace Buffer

def write (buffer : Buffer) (i : Nat) (c : Char) : Option Buffer :=
  if i < buffer.length then some (buffer.set i c) else none

def cString (buffer : Buffer) (i : Nat) : Option (List Char) :=
  if terminator ∈ buffer.drop i then some ((buffer.drop i).takeWhile fun c => c != terminator) else none

/-- The field at a position is terminated at its separator. The next field starts behind it, and there is
none after the last one. -/
def strsep (separates : Char → Bool) (buffer : Buffer) (i : Nat) : Option (Buffer × Option Nat) :=
  let stop := i + ((buffer.drop i).takeWhile fun c => c != terminator && !separates c).length
  match buffer[stop]? with
  | none => none
  | some c => if c = terminator then some (buffer,none) else (buffer.write stop terminator).map fun cut => (cut,some (stop + 1))

variable {c : Char}

theorem write_append (front : List Char) (old : Char) (rest : List Char) (c : Char) :
    write (front ++ old :: rest) front.length c = some (front ++ c :: rest) := by
  have inside : front.length < (front ++ old :: rest).length := by
    simp
  rw [write,if_pos inside,List.set_append_right _ _ (Nat.le_refl _),Nat.sub_self,List.set_cons_zero]

theorem getElem?_append_cons (front : List Char) (c : Char) (rest : List Char) : (front ++ c :: rest)[front.length]? = some c := by
  simp

theorem cString_append (front text : List Char) (plain : terminator ∉ text) (rest : List Char) :
    cString (front ++ text ++ terminator :: rest) front.length = some text := by
  have suffix : (front ++ text ++ terminator :: rest).drop front.length = text ++ terminator :: rest := by
    rw [List.append_assoc,List.drop_left]
  rw [cString,suffix,if_pos (by simp)]
  apply congrArg some
  refine (span_append ?_ ?_).1
  · intro own member
    apply bne_iff_ne.mpr
    exact fun same => plain (same ▸ member)
  · simp

/-- A terminator at the end makes every position of a buffer the start of a string. -/
theorem cString_isSome {buffer : Buffer} (last : buffer.getLast? = some terminator) {i : Nat} (inside : i < buffer.length) :
    (cString buffer i).isSome = true := by
  have member : terminator ∈ buffer.drop i := by
    apply List.mem_of_getLast?
    rw [List.getLast?_drop,if_neg (Nat.not_le_of_lt inside),last]
  rw [cString,if_pos member]
  rfl

theorem cString_terminator {buffer : Buffer} {i : Nat} (here : buffer[i]? = some terminator) : cString buffer i = some [] := by
  obtain ⟨inside,same⟩ := List.getElem?_eq_some_iff.mp here
  rw [cString,List.drop_eq_getElem_cons inside,same,if_pos List.mem_cons_self]
  simp

section
variable {separates : Char → Bool} {field : List Char} (plain : ∀ c ∈ field, c ≠ terminator ∧ separates c = false)
include plain

private theorem field_stops (ends : c = terminator ∨ separates c = true) (front rest : List Char) :
    (((front ++ field ++ c :: rest).drop front.length).takeWhile fun c => c != terminator && !separates c) = field := by
  have suffix : (front ++ field ++ c :: rest).drop front.length = field ++ c :: rest := by
    rw [List.append_assoc,List.drop_left]
  rw [suffix]
  refine (span_append ?_ ?_).1
  · intro own member
    simp [plain own member]
  · simp only [List.head?_cons,Option.mem_some_iff,forall_eq']
    rcases ends with rfl | separator
    · simp
    · simp [separator]

theorem strsep_separator (front : List Char) (separator : separates c = true) (other : c ≠ terminator) (rest : List Char) :
    strsep separates (front ++ field ++ c :: rest) front.length =
      some (front ++ field ++ terminator :: rest,some (front.length + field.length + 1)) := by
  have stop : front.length + field.length = (front ++ field).length := by
    simp
  simp only [strsep,field_stops plain (Or.inr separator),stop,getElem?_append_cons,write_append,if_neg other,Option.map_some]

theorem strsep_terminator (front rest : List Char) :
    strsep separates (front ++ field ++ terminator :: rest) front.length = some (front ++ field ++ terminator :: rest,none) := by
  have stop : front.length + field.length = (front ++ field).length := by
    simp
  simp only [strsep,field_stops plain (Or.inl rfl),stop,getElem?_append_cons,↓reduceIte]

end

theorem foldlM_write (positions : List Nat) (buffer : Buffer) (inside : ∀ i ∈ positions, i < buffer.length) :
    positions.foldlM (fun buffer i => write buffer i terminator) buffer =
      some (buffer.mapIdx fun i c => if i ∈ positions then terminator else c) := by
  induction positions generalizing buffer with
  | nil =>
    apply congrArg some
    apply List.ext_getElem?
    simp
  | cons first others ih =>
    have here := inside first List.mem_cons_self
    rw [List.foldlM_cons,write,if_pos here]
    refine (ih (buffer.set first terminator) ?_).trans ?_
    · intro i member
      rw [List.length_set]
      exact inside i (List.mem_cons_of_mem first member)
    · apply congrArg some
      apply List.ext_getElem?
      intro i
      simp only [List.getElem?_mapIdx,List.getElem?_set,List.mem_cons]
      grind

end Buffer

/-- The number that a string starts with, zero if it starts with none. -/
def atoi (text : List Char) : Int :=
  let (negative,number) := extractSign (text.dropWhile isSpace)
  let value := digitsValue (number.takeWhile Char.isDigit)
  if negative then -value else value

end Ncfcc.Library
