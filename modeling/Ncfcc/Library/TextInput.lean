import Mathlib.Algebra.Group.Nat.Defs
import Mathlib.Data.List.Basic

/-! Formatted input from text: lines, words between white space, and numbers. A number that
cannot be read makes every later extraction fail. -/
namespace Ncfcc.Library

/-- Space, tab, newline, vertical tab, form feed and carriage return. -/
def isSpace (c : Char) : Bool := c = ' ' || (9 ≤ c.toNat && c.toNat ≤ 13)

/-- What `getline` gives until the end of the text; the last line ends there. -/
def lines (text : List Char) : List (List Char) := text.splitOn '\n'

def IsWord (word : List Char) : Prop := word ≠ [] ∧ ∀ c ∈ word, isSpace c = false

/-- The strings extracted one after the other; those after them stay empty. -/
def words (text : List Char) : List (List Char) := (text.splitOnP isSpace).filter fun word => !word.isEmpty

def extractWord (text : List Char) : List Char × List Char :=
  let start := text.dropWhile isSpace
  (start.takeWhile fun c => !isSpace c,start.dropWhile fun c => !isSpace c)

/-! Numbers. -/

def extractSign (text : List Char) : Bool × List Char :=
  match text with
  | [] => (false,[])
  | c :: rest => if c = '-' then (true,rest) else if c = '+' then (false,rest) else (false,c :: rest)

def digitsValue (digits : List Char) : Nat := digits.foldl (fun value digit => 10 * value + (digit.toNat - 48)) 0

/-- A decimal number that rounds to more than any double. -/
def overflows (mantissa : Nat) (exponent : Int) : Bool :=
  (2^1024 - 2^970) * 10^(-exponent).toNat ≤ mantissa * 10^exponent.toNat

def extractFraction (text : List Char) : List Char × List Char :=
  match text with
  | [] => ([],[])
  | c :: rest => if c = '.' then (rest.takeWhile Char.isDigit,rest.dropWhile Char.isDigit) else ([],c :: rest)

/-- The exponent after a mantissa, which needs digits if it is there. -/
def extractExponent (text : List Char) : Option (Int × List Char) :=
  match text with
  | [] => some (0,[])
  | c :: rest =>
    if c = 'e' || c = 'E' then
      let (negative,rest) := extractSign rest
      let digits := rest.takeWhile Char.isDigit
      if digits.isEmpty then none
      else some (if negative then -digitsValue digits else digitsValue digits,rest.dropWhile Char.isDigit)
    else some (0,c :: rest)

/-- The text after a double; none where the extraction fails. -/
def extractDouble (text : List Char) : Option (List Char) :=
  let (_,text) := extractSign text
  let whole := text.takeWhile Char.isDigit
  let (fraction,text) := extractFraction (text.dropWhile Char.isDigit)
  if whole.isEmpty && fraction.isEmpty then none
  else (extractExponent text).bind fun (exponent,text) =>
    if overflows (digitsValue (whole ++ fraction)) (exponent - fraction.length) then none else some text

/-- An unsigned number of 32 bits: a sign is allowed, and zero stands for no number. -/
def extractUnsigned (text : List Char) : UInt32 :=
  let (negative,text) := extractSign text
  let digits := text.takeWhile Char.isDigit
  if digits.isEmpty then 0
  else if 2^32 ≤ digitsValue digits then UInt32.ofNat (2^32 - 1)
  else if negative then 0 - UInt32.ofNat (digitsValue digits) else UInt32.ofNat (digitsValue digits)

/-! What is printed for a double. -/

inductive PrintedDouble where
  | finite (negative : Bool) (first : Fin 10) (whole fraction : List (Fin 10)) (exponent : Option (Bool × List (Fin 10)))
  | infinite (negative : Bool)
  | nan (negative : Bool)

def digitChar (digit : Fin 10) : Char := Char.ofNat (48 + digit)

def printedSign (negative : Bool) : List Char := if negative then ['-'] else []

def printedFraction (fraction : List (Fin 10)) : List Char :=
  if fraction.isEmpty then [] else '.' :: fraction.map digitChar

def printedExponent : Option (Bool × List (Fin 10)) → List Char
  | none => []
  | some (negative,digits) => 'e' :: (if negative then '-' else '+') :: digits.map digitChar

def PrintedDouble.text : PrintedDouble → List Char
  | finite negative first whole fraction exponent =>
    printedSign negative ++ ((first :: whole).map digitChar ++ (printedFraction fraction ++ printedExponent exponent))
  | infinite negative => printedSign negative ++ ['i','n','f']
  | nan negative => printedSign negative ++ ['n','a','n']

/-! Lines and words. -/

theorem lines_flatMap {written : List (List Char)} (single : ∀ line ∈ written, '\n' ∉ line) :
    lines (written.flatMap fun line => line ++ ['\n']) = written ++ [[]] := by
  induction written with
  | nil => rfl
  | cons line rest ih =>
    unfold lines at ih ⊢
    rw [List.flatMap_cons,List.append_assoc,List.singleton_append,
      List.splitOn_append_cons_self_of_not_mem (single line (List.mem_cons_self ..))]
    exact congrArg (line :: ·) (ih fun other inside => single other (List.mem_cons_of_mem _ inside))

@[simp] theorem words_nil : words [] = [] := by
  simp [words]

private theorem words_append_cons {word : List Char} (plain : ∀ c ∈ word, isSpace c = false) {c : Char} (space : isSpace c = true)
    (rest : List Char) : words (word ++ c :: rest) = if word.isEmpty then words rest else word :: words rest := by
  unfold words
  rw [List.splitOnP_append_cons_of_forall_mem plain c space rest]
  cases word with
  | nil => rfl
  | cons first others => rfl

theorem words_cons {c : Char} (space : isSpace c = true) (rest : List Char) : words (c :: rest) = words rest := by
  have nothing : ∀ c ∈ ([] : List Char), isSpace c = false := nofun
  exact words_append_cons nothing space rest

theorem IsWord.words_append {word : List Char} (isWord : IsWord word) {c : Char} (space : isSpace c = true) (rest : List Char) :
    words (word ++ c :: rest) = word :: words rest := by
  rw [words_append_cons isWord.2 space]
  simp [isWord.1]

private theorem mem_splitOnP {α : Type*} (separates : α → Bool) (text : List α) :
    ∀ part ∈ text.splitOnP separates, ∀ c ∈ part, separates c = false := by
  induction text with
  | nil => simp
  | cons first rest ih =>
    rw [List.splitOnP_cons_eq_if_modifyHead]
    cases separates? : separates first with
    | true => simpa using ih
    | false =>
      cases parts : rest.splitOnP separates with
      | nil => simp
      | cons part others =>
        rw [parts] at ih
        simpa [separates?] using ih

theorem mem_words {text word : List Char} (inside : word ∈ words text) : IsWord word := by
  obtain ⟨member,nonempty⟩ := List.mem_filter.mp inside
  exact ⟨by simpa using nonempty,mem_splitOnP isSpace text word member⟩

theorem span_append {passes : Char → Bool} {passed rest : List Char} (all : ∀ c ∈ passed, passes c = true)
    (stops : ∀ c ∈ rest.head?, passes c = false) :
    (passed ++ rest).takeWhile passes = passed ∧ (passed ++ rest).dropWhile passes = rest := by
  rw [List.takeWhile_append_of_pos all,List.dropWhile_append_of_pos all]
  cases rest with
  | nil => simp
  | cons c others => simp [stops c rfl]

theorem IsWord.dropWhile_append {word : List Char} (isWord : IsWord word) (rest : List Char) :
    (word ++ rest).dropWhile isSpace = word ++ rest := by
  obtain ⟨nonempty,plain⟩ := isWord
  cases word with
  | nil => exact absurd rfl nonempty
  | cons first others => simp [plain first (List.mem_cons_self ..)]

theorem extractWord_append {word : List Char} (isWord : IsWord word) {c : Char} (space : isSpace c = true) (rest : List Char) :
    extractWord (word ++ c :: rest) = (word,c :: rest) := by
  have within : ∀ d ∈ word, (!isSpace d) = true := fun d inside => by simp [isWord.2 d inside]
  have stops : ∀ d ∈ (c :: rest).head?, (!isSpace d) = false := by
    rintro d ⟨⟩
    simp [space]
  obtain ⟨taken,dropped⟩ := span_append within stops
  unfold extractWord
  dsimp only
  rw [isWord.dropWhile_append,taken,dropped]

theorem extractWord_skip {c : Char} (space : isSpace c = true) (rest : List Char) :
    extractWord (c :: rest) = extractWord rest := by
  simp [extractWord,space]

theorem extractWord_isWord (text : List Char) (nonempty : (extractWord text).1 ≠ []) : IsWord (extractWord text).1 := by
  refine ⟨nonempty,?_⟩
  intro c inside
  have passed := List.all_eq_true.mp (List.all_takeWhile ..) c inside
  simpa using passed

/-! Printed numbers. -/

private theorem isDigit_digitChar (digit : Fin 10) : (digitChar digit).isDigit = true := by
  revert digit
  decide

private theorem isDigit_map (digits : List (Fin 10)) : ∀ c ∈ digits.map digitChar, c.isDigit = true := by
  intro c inside
  obtain ⟨digit,-,rfl⟩ := List.mem_map.mp inside
  exact isDigit_digitChar digit

private theorem toNat_le_of_isSpace {c : Char} (space : isSpace c = true) : c.toNat ≤ 32 := by
  unfold isSpace at space
  rcases Bool.or_eq_true_iff.mp space with same | control
  · rw [of_decide_eq_true same]
    decide
  · have bound := of_decide_eq_true (Bool.and_eq_true_iff.mp control).2
    omega

private theorem ne_of_isSpace {c : Char} (space : isSpace c = true) (other : Char) (above : 32 < other.toNat) : c ≠ other := by
  rintro rfl
  exact absurd (toNat_le_of_isSpace space) (Nat.not_le_of_lt above)

theorem isDigit_of_isSpace {c : Char} (space : isSpace c = true) : c.isDigit = false := by
  have low : ¬ c.val ≥ 48 := by
    rw [ge_iff_le,UInt32.le_iff_toNat_le]
    exact Nat.not_le_of_lt (Nat.lt_of_le_of_lt (toNat_le_of_isSpace space) (by decide))
  unfold Char.isDigit
  simp [low]

def Ends (rest : List Char) : Prop := ∀ c ∈ rest.head?, isSpace c = true

private theorem extractSign_printed (negative : Bool) (first : Fin 10) (rest : List Char) :
    extractSign (printedSign negative ++ digitChar first :: rest) = (negative,digitChar first :: rest) := by
  have unsigned : ∀ digit : Fin 10, digitChar digit ≠ '-' ∧ digitChar digit ≠ '+' := by decide
  cases negative with
  | true => rfl
  | false =>
    change (if digitChar first = '-' then _ else if digitChar first = '+' then _ else _) = _
    rw [if_neg (unsigned first).1,if_neg (unsigned first).2]

private theorem extractExponent_printed (exponent : Option (Bool × List (Fin 10))) {rest : List Char} (ends : Ends rest) :
    extractExponent (printedExponent exponent ++ rest) = none ∨
      ∃ value, extractExponent (printedExponent exponent ++ rest) = some (value,rest) := by
  cases exponent with
  | none =>
    right
    refine ⟨0,?_⟩
    cases rest with
    | nil => rfl
    | cons c others =>
      have small := ne_of_isSpace (ends c rfl) 'e' (by decide)
      have big := ne_of_isSpace (ends c rfl) 'E' (by decide)
      simp [printedExponent,extractExponent,small,big]
  | some printed =>
    obtain ⟨negative,digits⟩ := printed
    have signed : extractSign ((if negative then '-' else '+') :: (digits.map digitChar ++ rest)) =
        (negative,digits.map digitChar ++ rest) := by
      cases negative <;> rfl
    obtain ⟨taken,dropped⟩ := span_append (isDigit_map digits) (fun c here => isDigit_of_isSpace (ends c here))
    have unfolded : extractExponent (printedExponent (some (negative,digits)) ++ rest) =
        if (digits.map digitChar).isEmpty then none
        else some (if negative then -(digitsValue (digits.map digitChar) : Int) else digitsValue (digits.map digitChar),rest) := by
      simp [printedExponent,extractExponent,signed,taken,dropped]
    rw [unfolded]
    cases (digits.map digitChar).isEmpty with
    | true => exact Or.inl rfl
    | false => exact Or.inr ⟨_,rfl⟩

private theorem extractFraction_printed (fraction : List (Fin 10)) {rest : List Char} (stops : ∀ c ∈ rest.head?, c.isDigit = false ∧ c ≠ '.') :
    extractFraction (printedFraction fraction ++ rest) = (fraction.map digitChar,rest) := by
  cases fraction with
  | nil =>
    cases rest with
    | nil => rfl
    | cons c others =>
      have point := (stops c rfl).2
      simp [printedFraction,extractFraction,point]
  | cons first others =>
    obtain ⟨taken,dropped⟩ := span_append (isDigit_map (first :: others)) (fun c here => (stops c here).1)
    change ((List.map digitChar (first :: others) ++ rest).takeWhile Char.isDigit,_) = _
    rw [taken]
    exact congrArg _ dropped

/-- A printed double is read to its end, or it cannot be read. -/
theorem extractDouble_printed (printed : PrintedDouble) {rest : List Char} (ends : Ends rest) :
    extractDouble (printed.text ++ rest) = none ∨ extractDouble (printed.text ++ rest) = some rest := by
  cases printed with
  | infinite negative =>
    left
    cases negative <;> rfl
  | nan negative =>
    left
    cases negative <;> rfl
  | finite negative first whole fraction exponent =>
    -- The digits of the whole part end at a point, at an exponent or with the number.
    have afterExponent : ∀ c ∈ (printedExponent exponent ++ rest).head?, c.isDigit = false ∧ c ≠ '.' := by
      intro c here
      cases exponent with
      | none => exact ⟨isDigit_of_isSpace (ends c here),ne_of_isSpace (ends c here) '.' (by decide)⟩
      | some printed =>
        cases here
        decide
    have afterWhole : ∀ c ∈ (printedFraction fraction ++ (printedExponent exponent ++ rest)).head?, c.isDigit = false := by
      intro c here
      cases fraction with
      | nil => exact (afterExponent c here).1
      | cons digit others =>
        cases here
        decide
    obtain ⟨taken,dropped⟩ := span_append (isDigit_map (first :: whole)) afterWhole
    have split : (PrintedDouble.finite negative first whole fraction exponent).text ++ rest =
        printedSign negative ++ digitChar first :: (whole.map digitChar ++
          (printedFraction fraction ++ (printedExponent exponent ++ rest))) := by
      simp [PrintedDouble.text]
    have unfolded : extractDouble ((PrintedDouble.finite negative first whole fraction exponent).text ++ rest) =
        (extractExponent (printedExponent exponent ++ rest)).bind fun (value,text) =>
          if overflows (digitsValue ((first :: whole).map digitChar ++ fraction.map digitChar))
              (value - (fraction.map digitChar).length) then none else some text := by
      unfold extractDouble
      rw [split,extractSign_printed]
      dsimp only
      rw [List.map_cons,List.cons_append] at taken dropped
      rw [taken,dropped,extractFraction_printed fraction afterExponent]
      rfl
    rw [unfolded]
    rcases extractExponent_printed exponent ends with missing | ⟨value,found⟩
    · rw [missing]
      exact Or.inl rfl
    · rw [found,Option.bind_some]
      dsimp only
      split
      · exact Or.inl rfl
      · exact Or.inr rfl

theorem PrintedDouble.isWord_text (printed : PrintedDouble) : IsWord printed.text := by
  have digit : ∀ digit : Fin 10, isSpace (digitChar digit) = false := by decide
  have digits : ∀ digits : List (Fin 10), ∀ c ∈ digits.map digitChar, isSpace c = false := by
    intro digits c inside
    obtain ⟨value,-,rfl⟩ := List.mem_map.mp inside
    exact digit value
  have sign : ∀ negative, ∀ c ∈ printedSign negative, isSpace c = false := by
    simp [printedSign,isSpace]
  have marks : ∀ c ∈ ['.','e','-','+'], isSpace c = false := by simp [isSpace]
  cases printed with
  | infinite negative => cases negative <;> simp [IsWord,PrintedDouble.text,printedSign,isSpace]
  | nan negative => cases negative <;> simp [IsWord,PrintedDouble.text,printedSign,isSpace]
  | finite negative first whole fraction exponent =>
    refine ⟨by simp [PrintedDouble.text],?_⟩
    intro c inside
    unfold PrintedDouble.text at inside
    rcases List.mem_append.mp inside with signed | inside
    · exact sign negative c signed
    rcases List.mem_append.mp inside with integral | inside
    · exact digits _ c integral
    rcases List.mem_append.mp inside with fractional | exponential
    · unfold printedFraction at fractional
      split at fractional
      · cases fractional
      · rcases List.mem_cons.mp fractional with rfl | inside
        · exact marks _ (by decide)
        · exact digits _ c inside
    · cases exponent with
      | none => cases exponential
      | some printed =>
        rcases List.mem_cons.mp exponential with rfl | inside
        · exact marks _ (by decide)
        · rcases List.mem_cons.mp inside with rfl | inside
          · exact marks _ (by cases printed.1 <;> decide)
          · exact digits _ c inside

end Ncfcc.Library
