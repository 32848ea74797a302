import Mathlib.Algebra.Group.Nat.Defs
import Ncfcc.Library.TextInput

/-! Input streams over text. An extraction skips white space first, notices the end of the text when
it comes there, and fails on a stream that is at its end or has failed. -/
namespace Ncfcc.Library

structure TextStream where
  text : List Char
  eof : Bool
  fail : Bool

def IsNumber (number : List Char) : Prop :=
  ∃ sign digits, number = sign ++ digits ∧ sign ∈ [[],['-'],['+']] ∧ digits ≠ [] ∧
    (∀ c ∈ digits, Char.isDigit c = true) ∧ digitsValue digits < 2^32

theorem IsNumber.start {number : List Char} (isNumber : IsNumber number) : number ≠ [] ∧ ∀ c ∈ number.head?, isSpace c = false := by
  obtain ⟨sign,digits,rfl,signed,nonempty,numeric,-⟩ := isNumber
  refine ⟨List.append_ne_nil_of_right_ne_nil sign nonempty,?_⟩
  simp only [List.mem_cons,List.not_mem_nil,or_false] at signed
  rcases signed with rfl | rfl | rfl
  · intro c first
    rw [List.nil_append] at first
    have digit := numeric c (List.mem_of_mem_head? first)
    by_contra space
    rw [isDigit_of_isSpace (Bool.of_not_eq_false space)] at digit
    cases digit
  · rintro c ⟨⟩
    rfl
  · rintro c ⟨⟩
    rfl

theorem head_dropWhile (passes : Char → Bool) (text : List Char) :
    ∀ c ∈ (text.dropWhile passes).head?, passes c = false := by
  intro c first
  have stops := List.head?_dropWhile_not passes text
  rw [Option.mem_def.mp first] at stops
  exact stops

namespace TextStream

def ofText (text : List Char) : TextStream := ⟨text,false,false⟩

def reached (rest : List Char) (fail : Bool) : TextStream := ⟨rest,rest.isEmpty,fail⟩

def skipSpace (stream : TextStream) : TextStream :=
  if stream.eof || stream.fail then {stream with fail := true}
  else
    let text := stream.text.dropWhile isSpace
    reached text text.isEmpty

def extractString (stream : TextStream) : Option (List Char) × TextStream :=
  let start := stream.skipSpace
  if start.fail then (none,start)
  else (some (start.text.takeWhile fun c => !isSpace c),reached (start.text.dropWhile fun c => !isSpace c) false)

/-- A number keeps its old value if nothing is extracted. -/
def extractUInt32 (old : UInt32) (stream : TextStream) : UInt32 × TextStream :=
  let start := stream.skipSpace
  if start.fail then (old,start)
  else
    let text := (extractSign start.text).2
    let digits := text.takeWhile Char.isDigit
    (extractUnsigned start.text,reached (text.dropWhile Char.isDigit) (digits.isEmpty || 2^32 ≤ digitsValue digits))

section
variable {text rest space word number : List Char}

theorem reached_of_ne_nil (nonempty : rest ≠ []) : reached rest false = ofText rest := by
  rw [reached,ofText,List.isEmpty_eq_false_iff.mpr nonempty]

theorem dropWhile_isSpace (spaces : ∀ c ∈ space, isSpace c = true) (starts : ∀ c ∈ text.head?, isSpace c = false) :
    (space ++ text).dropWhile isSpace = text := (span_append spaces starts).2

private theorem skipSpace_ofText (spaces : ∀ c ∈ space, isSpace c = true) (starts : ∀ c ∈ text.head?, isSpace c = false)
    (nonempty : text ≠ []) : (ofText (space ++ text)).skipSpace = ofText text := by
  rw [skipSpace,ofText]
  simp only [Bool.or_self,Bool.false_eq_true,↓reduceIte,dropWhile_isSpace spaces starts]
  rw [List.isEmpty_eq_false_iff.mpr nonempty,reached_of_ne_nil nonempty]

/-- An extraction that does not fail starts behind white space. -/
theorem of_skipSpace {stream : TextStream} (goes : stream.skipSpace.fail = false) :
    stream.fail = false ∧ ∃ space start, stream.text = space ++ start ∧ start ≠ [] ∧ (∀ c ∈ space, isSpace c = true) ∧
      (∀ c ∈ start.head?, isSpace c = false) ∧ stream.skipSpace = ofText start := by
  unfold skipSpace at goes ⊢
  split at goes
  · cases goes
  · rename_i good
    simp only [Bool.or_eq_true,not_or,Bool.not_eq_true] at good
    refine ⟨good.2,stream.text.takeWhile isSpace,stream.text.dropWhile isSpace,
      (List.takeWhile_append_dropWhile ..).symm,List.isEmpty_eq_false_iff.mp goes,?_,?_,?_⟩
    · exact fun c inside => List.all_eq_true.mp (List.all_takeWhile ..) c inside
    · exact head_dropWhile isSpace stream.text
    · simp only [good,Bool.or_self,Bool.false_eq_true,↓reduceIte]
      have nonempty : (stream.text.dropWhile isSpace).isEmpty = false := goes
      rw [nonempty]
      exact reached_of_ne_nil (List.isEmpty_eq_false_iff.mp nonempty)

theorem extractString_append (spaces : ∀ c ∈ space, isSpace c = true) (isWord : IsWord word) (ends : Ends rest) :
    (ofText (space ++ (word ++ rest))).extractString = (some word,reached rest false) := by
  obtain ⟨nonempty,plain⟩ := isWord
  have starts : ∀ c ∈ (word ++ rest).head?, isSpace c = false := by
    cases word with
    | nil => exact absurd rfl nonempty
    | cons first others =>
      rintro c ⟨⟩
      exact plain first List.mem_cons_self
  have within : ∀ c ∈ word, (!isSpace c) = true := fun c inside => by rw [plain c inside]; rfl
  have stops : ∀ c ∈ rest.head?, (!isSpace c) = false := fun c first => by rw [ends c first]; rfl
  obtain ⟨taken,dropped⟩ := span_append within stops
  rw [extractString,skipSpace_ofText spaces starts (List.append_ne_nil_of_left_ne_nil nonempty rest)]
  simp only [ofText,Bool.false_eq_true,↓reduceIte,taken,dropped]

theorem of_extractString {stream after : TextStream} (extracted : stream.extractString = (some word,after)) :
    ∃ space rest, stream.text = space ++ (word ++ rest) ∧ (∀ c ∈ space, isSpace c = true) ∧ IsWord word ∧ Ends rest ∧
      after = reached rest false := by
  unfold extractString at extracted
  dsimp only at extracted
  split at extracted
  · cases extracted
  · rename_i goes
    obtain ⟨-,space,start,split,nonempty,spaces,starts,same⟩ := of_skipSpace (Bool.eq_false_iff.mpr goes)
    rw [same] at extracted
    simp only [ofText,Prod.mk.injEq,Option.some.injEq] at extracted
    obtain ⟨rfl,rfl⟩ := extracted
    refine ⟨space,start.dropWhile fun c => !isSpace c,?_,spaces,⟨?_,?_⟩,?_,rfl⟩
    · rw [split,List.takeWhile_append_dropWhile]
    · cases start with
      | nil => exact absurd rfl nonempty
      | cons first others => simp [starts first rfl]
    · intro c inside
      have passed := List.all_eq_true.mp (List.all_takeWhile ..) c inside
      simpa using passed
    · intro c first
      have stops := head_dropWhile (fun c => !isSpace c) start c first
      simpa using stops

private theorem extractSign_append {sign digits : List Char} (signed : sign ∈ [[],['-'],['+']]) (nonempty : digits ≠ [])
    (numeric : ∀ c ∈ digits, Char.isDigit c = true) (rest : List Char) :
    (extractSign (sign ++ (digits ++ rest))).2 = digits ++ rest := by
  simp only [List.mem_cons,List.not_mem_nil,or_false] at signed
  rcases signed with rfl | rfl | rfl
  · cases digits with
    | nil => exact absurd rfl nonempty
    | cons first others =>
      have minus : first ≠ '-' := by
        rintro rfl
        exact Bool.noConfusion (numeric '-' List.mem_cons_self)
      have plus : first ≠ '+' := by
        rintro rfl
        exact Bool.noConfusion (numeric '+' List.mem_cons_self)
      simp [extractSign,minus,plus]
  · rfl
  · rfl

theorem extractUInt32_append (old : UInt32) (spaces : ∀ c ∈ space, isSpace c = true) (isNumber : IsNumber number)
    (stops : ∀ c ∈ rest.head?, Char.isDigit c = false) :
    (ofText (space ++ (number ++ rest))).extractUInt32 old = (extractUnsigned (number ++ rest),reached rest false) := by
  obtain ⟨nonempty,starts⟩ := isNumber.start
  have begins : ∀ c ∈ (number ++ rest).head?, isSpace c = false := by
    cases number with
    | nil => exact absurd rfl nonempty
    | cons first others => exact starts
  rw [extractUInt32,skipSpace_ofText spaces begins (List.append_ne_nil_of_left_ne_nil nonempty rest)]
  obtain ⟨sign,digits,rfl,signed,some,numeric,small⟩ := isNumber
  obtain ⟨taken,dropped⟩ := span_append numeric stops
  have unsigned := extractSign_append signed some numeric rest
  rw [← List.append_assoc] at unsigned
  simp only [ofText,Bool.false_eq_true,↓reduceIte,unsigned,taken,dropped,List.isEmpty_eq_false_iff.mpr some,
    Nat.not_le_of_lt small,decide_false,Bool.or_self]

private theorem extractSign_split (text : List Char) : ∃ sign, sign ∈ [[],['-'],['+']] ∧ text = sign ++ (extractSign text).2 := by
  cases text with
  | nil => exact ⟨[],by simp,rfl⟩
  | cons first others =>
    unfold extractSign
    dsimp only
    split
    · rename_i minus
      exact ⟨['-'],by simp,by rw [minus]; rfl⟩
    · split
      · rename_i plus
        exact ⟨['+'],by simp,by rw [plus]; rfl⟩
      · exact ⟨[],by simp,rfl⟩

theorem of_extractUInt32 {stream : TextStream} {old : UInt32} (goes : (stream.extractUInt32 old).2.fail = false) :
    stream.fail = false ∧ ∃ space number rest, stream.text = space ++ (number ++ rest) ∧ (∀ c ∈ space, isSpace c = true) ∧
      IsNumber number ∧ (∀ c ∈ rest.head?, Char.isDigit c = false) ∧ (stream.extractUInt32 old).2 = reached rest false := by
  unfold extractUInt32 at goes ⊢
  dsimp only at goes ⊢
  split at goes
  · rename_i failed
    exact absurd (failed.symm.trans goes) (by decide)
  · rename_i started
    obtain ⟨good,space,start,split,-,spaces,-,same⟩ := of_skipSpace (Bool.eq_false_iff.mpr started)
    obtain ⟨sign,signed,whole⟩ := extractSign_split start
    rw [show stream.skipSpace.text = start from congrArg TextStream.text same] at goes ⊢
    rw [if_neg started]
    obtain ⟨digits,small⟩ := Bool.or_eq_false_iff.mp goes
    refine ⟨good,space,sign ++ (extractSign start).2.takeWhile Char.isDigit,(extractSign start).2.dropWhile Char.isDigit,
      ?_,spaces,⟨sign,_,rfl,signed,List.isEmpty_eq_false_iff.mp digits,?_,Nat.lt_of_not_le (of_decide_eq_false small)⟩,?_,?_⟩
    · rw [List.append_assoc,List.takeWhile_append_dropWhile,← whole]
      exact split
    · exact fun c inside => List.all_eq_true.mp (List.all_takeWhile ..) c inside
    · exact head_dropWhile Char.isDigit _
    · dsimp only
      rw [digits,small]
      rfl

end

end TextStream

/-! Decimal numbers. -/

private theorem digitsValue_append (front : List Char) (last : Char) :
    digitsValue (front ++ [last]) = 10 * digitsValue front + (last.toNat - 48) := by
  simp [digitsValue]

theorem digitsValue_toDigits (n : Nat) : digitsValue (Nat.toDigits 10 n) = n := by
  induction n using Nat.strongRecOn with
  | ind n ih =>
    rw [Nat.toDigits_eq_if (by decide)]
    split
    · rename_i small
      have value := Nat.toNat_digitChar_sub_48_of_lt_ten small
      simp [digitsValue,value]
    · rw [digitsValue_append,ih (n / 10) (by omega),Nat.toNat_digitChar_sub_48_of_lt_ten (Nat.mod_lt n (by decide))]
      omega

theorem isNumber_toDigits (n : UInt32) : IsNumber (Nat.toDigits 10 n.toNat) := by
  refine ⟨[],Nat.toDigits 10 n.toNat,rfl,by simp,Nat.toDigits_ne_nil,?_,?_⟩
  · exact fun c inside => Nat.isDigit_of_mem_toDigits (by decide) (by decide) inside
  · rw [digitsValue_toDigits]
    exact n.toNat_lt

theorem extractUnsigned_toDigits (n : UInt32) {rest : List Char} (stops : ∀ c ∈ rest.head?, Char.isDigit c = false) :
    extractUnsigned (Nat.toDigits 10 n.toNat ++ rest) = n := by
  have numeric : ∀ c ∈ Nat.toDigits 10 n.toNat, Char.isDigit c = true :=
    fun c inside => Nat.isDigit_of_mem_toDigits (by decide) (by decide) inside
  obtain ⟨taken,-⟩ := span_append numeric stops
  have unsigned : extractSign (Nat.toDigits 10 n.toNat ++ rest) = (false,Nat.toDigits 10 n.toNat ++ rest) := by
    cases digits : Nat.toDigits 10 n.toNat with
    | nil => exact absurd digits Nat.toDigits_ne_nil
    | cons first others =>
      have digit := numeric first (digits ▸ List.mem_cons_self)
      have minus : first ≠ '-' := by
        rintro rfl
        cases digit
      have plus : first ≠ '+' := by
        rintro rfl
        cases digit
      simp [extractSign,minus,plus]
  have small : ¬ 2^32 ≤ n.toNat := Nat.not_le_of_lt n.toNat_lt
  unfold extractUnsigned
  rw [unsigned]
  dsimp only
  rw [taken,List.isEmpty_eq_false_iff.mpr Nat.toDigits_ne_nil,digitsValue_toDigits]
  simp only [Bool.false_eq_true,↓reduceIte,small]
  exact UInt32.ofNat_toNat

end Ncfcc.Library
