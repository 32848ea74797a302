import Ncfcc.Library.TextStream

/-! Batches as text: times and amounts between spaces. The reader goes on until it notices the end of
the text, and adds what it holds whether or not it was read. -/
namespace Ncfcc.Utils
open Ncfcc.Library

/-- How times are read: a word may be no time, and a failed extraction may change the variable. -/
structure TimeReader (Time : Type) where
  parse : List Char → Option Time
  failed : Time → Time

structure TimeFormat (Time : Type) extends TimeReader Time where
  print : Time → List Char
  isWord : ∀ time, IsWord (print time)
  parse_print : ∀ time, parse (print time) = some time

abbrev Batches (Time : Type) := List (Time × UInt32)

namespace Batches
variable {Time : Type}

/-- `operator<<` -/
def write (format : TimeFormat Time) (batch : Batches Time) : List Char :=
  batch.flatMap fun (time,amount) => format.print time ++ ' ' :: (Nat.toDigits 10 amount.toNat ++ [' '])

/-- The variables of the loop of `operator>>`, and the stream. -/
structure Extraction (Time : Type) where
  time : Time
  amount : UInt32
  stream : TextStream

section
variable (reader : TimeReader Time)

def extractTime (old : Time) (stream : TextStream) : Time × TextStream :=
  match stream.extractString with
  | (none,after) => (reader.failed old,after)
  | (some word,after) =>
    match reader.parse word with
    | none => (reader.failed old,{after with fail := true})
    | some time => (time,after)

def extractPair (state : Extraction Time) : Extraction Time :=
  let (time,stream) := extractTime reader state.time state.stream
  let (amount,stream) := stream.extractUInt32 state.amount
  ⟨time,amount,stream⟩

/-- The pairs added by the loop of `operator>>`, each with whether both extractions succeeded. None if the loop
goes on after this many rounds. -/
def extractPairs : (rounds : Nat) → Extraction Time → Option (List ((Time × UInt32) × Bool))
  | 0, state => if state.stream.eof then some [] else none
  | rounds + 1, state =>
    if state.stream.eof then some []
    else
      let after := extractPair reader state
      (extractPairs rounds after).map fun rest => ((after.time,after.amount),!after.stream.fail) :: rest

/-- `operator>>`, with what the variables hold before the first round. -/
def read (time : Time) (amount : UInt32) (rounds : Nat) (text : List Char) (batch : Batches Time) : Option (Batches Time) :=
  (extractPairs reader rounds ⟨time,amount,.ofText text⟩).map fun added => batch ++ added.map Prod.fst

end

def IsPair (reader : TimeReader Time) (text : List Char) : Prop :=
  ∃ space word gap number, text = space ++ (word ++ (gap ++ number)) ∧ (∀ c ∈ space, isSpace c = true) ∧ IsWord word ∧
    (reader.parse word).isSome ∧ gap ≠ [] ∧ (∀ c ∈ gap, isSpace c = true) ∧ IsNumber number

/-- Pairs up to the end of the text: nothing stands behind the last amount. -/
inductive Paired (reader : TimeReader Time) : List Char → Prop
  | last (text : List Char) (isPair : IsPair reader text) : Paired reader text
  | more (text rest : List Char) (isPair : IsPair reader text) (nonempty : rest ≠ [])
    (stops : ∀ c ∈ rest.head?, Char.isDigit c = false) (paired : Paired reader rest) : Paired reader (text ++ rest)

section
variable {reader : TimeReader Time} {text rest : List Char}

private theorem extractTime_append (old : Time) {space word : List Char} {time : Time} (spaces : ∀ c ∈ space, isSpace c = true)
    (isWord : IsWord word) (parsed : reader.parse word = some time) (ends : Ends rest) :
    extractTime reader old (.ofText (space ++ (word ++ rest))) = (time,.reached rest false) := by
  unfold extractTime
  rw [TextStream.extractString_append spaces isWord ends]
  dsimp only
  rw [parsed]

private theorem ends_of_gap {gap : List Char} (nonempty : gap ≠ []) (spaces : ∀ c ∈ gap, isSpace c = true) (rest : List Char) :
    Ends (gap ++ rest) := by
  cases gap with
  | nil => exact absurd rfl nonempty
  | cons first others =>
    rintro c ⟨⟩
    exact spaces first List.mem_cons_self

private theorem extractPair_append (state : Extraction Time) {space word gap number : List Char} {time : Time}
    (at_text : state.stream = .ofText (space ++ (word ++ (gap ++ (number ++ rest)))))
    (spaces : ∀ c ∈ space, isSpace c = true) (isWord : IsWord word) (parsed : reader.parse word = some time) (wide : gap ≠ [])
    (between : ∀ c ∈ gap, isSpace c = true) (isNumber : IsNumber number) (stops : ∀ c ∈ rest.head?, Char.isDigit c = false) :
    extractPair reader state = ⟨time,extractUnsigned (number ++ rest),.reached rest false⟩ := by
  unfold extractPair
  rw [at_text,extractTime_append state.time spaces isWord parsed (ends_of_gap wide between _),
    TextStream.reached_of_ne_nil (List.append_ne_nil_of_left_ne_nil wide _)]
  dsimp only
  rw [TextStream.extractUInt32_append state.amount between isNumber stops]

private theorem of_extractPair {state : Extraction Time} (goes : (extractPair reader state).stream.fail = false) :
    ∃ front rest, state.stream.text = front ++ rest ∧ IsPair reader front ∧ (∀ c ∈ rest.head?, Char.isDigit c = false) ∧
      (extractPair reader state).stream = .reached rest false := by
  unfold extractPair at goes ⊢
  dsimp only at goes ⊢
  obtain ⟨good,gap,number,rest,split,between,isNumber,stops,after⟩ := TextStream.of_extractUInt32 goes
  -- the time was read, since the stream has not failed
  have timed : ∃ space word remaining, state.stream.text = space ++ (word ++ remaining) ∧ (∀ c ∈ space, isSpace c = true) ∧
      IsWord word ∧ Ends remaining ∧ (reader.parse word).isSome ∧
      (extractTime reader state.time state.stream).2 = .reached remaining false := by
    unfold extractTime at good ⊢
    cases extracted : state.stream.extractString with
    | mk word? stream =>
      rw [extracted] at good
      cases word? with
      | none =>
        unfold TextStream.extractString at extracted
        dsimp only at extracted good
        split at extracted
        · rename_i failed
          cases extracted
          exact absurd (failed.symm.trans good) (by decide)
        · cases extracted
      | some word =>
        obtain ⟨space,remaining,whole,spaces,isWord,ends,rfl⟩ := TextStream.of_extractString extracted
        dsimp only at good ⊢
        cases parsed : reader.parse word with
        | none =>
          rw [parsed] at good
          cases good
        | some time => exact ⟨space,word,remaining,whole,spaces,isWord,ends,by rw [parsed]; rfl,rfl⟩
  obtain ⟨space,word,remaining,whole,spaces,isWord,ends,parsed,timeAfter⟩ := timed
  have there : remaining = gap ++ (number ++ rest) := (congrArg TextStream.text timeAfter).symm.trans split
  have wide : gap ≠ [] := by
    rintro rfl
    obtain ⟨nonempty,starts⟩ := isNumber.start
    cases number with
    | nil => exact nonempty rfl
    | cons first others =>
      have space := ends first (by rw [there]; rfl)
      rw [starts first rfl] at space
      cases space
  refine ⟨space ++ (word ++ (gap ++ number)),rest,?_,⟨space,word,gap,number,rfl,spaces,isWord,parsed,wide,between,isNumber⟩,
    stops,after⟩
  rw [whole,there]
  simp only [List.append_assoc]

private theorem extractPair_of_isPair (isPair : IsPair reader text) (stops : ∀ c ∈ rest.head?, Char.isDigit c = false)
    {state : Extraction Time} (at_text : state.stream = .ofText (text ++ rest)) :
    (extractPair reader state).stream = .reached rest false := by
  obtain ⟨space,word,gap,number,rfl,spaces,isWord,parses,wide,between,isNumber⟩ := isPair
  obtain ⟨time,parsed⟩ := Option.isSome_iff_exists.mp parses
  simp only [List.append_assoc] at at_text
  rw [extractPair_append state at_text spaces isWord parsed wide between isNumber stops]

/-- The loop ends after pairs up to the end of the text, all of them read. -/
theorem extractPairs_of_paired (paired : Paired reader text) {state : Extraction Time} (at_text : state.stream = .ofText text) :
    ∃ rounds added, extractPairs reader rounds state = some added ∧ ∀ item ∈ added, item.2 = true := by
  induction paired generalizing state with
  | last text isPair =>
    have after : (extractPair reader state).stream = .reached [] false :=
      extractPair_of_isPair isPair (by simp) (by rw [at_text,List.append_nil])
    refine ⟨1,[(((extractPair reader state).time,(extractPair reader state).amount),!(extractPair reader state).stream.fail)],?_,?_⟩
    · simp [extractPairs,at_text,TextStream.ofText,after,TextStream.reached]
    · intro item inside
      rw [List.mem_singleton.mp inside,after]
      rfl
  | more text rest isPair nonempty stops _ ih =>
    have after := extractPair_of_isPair isPair stops at_text
    obtain ⟨rounds,added,result,all⟩ := ih (after.trans (TextStream.reached_of_ne_nil nonempty))
    refine ⟨rounds + 1,(((extractPair reader state).time,(extractPair reader state).amount),
      !(extractPair reader state).stream.fail) :: added,?_,?_⟩
    · have fresh : state.stream.eof = false := by
        rw [at_text]
        rfl
      rw [extractPairs,fresh]
      dsimp only
      rw [result]
      rfl
    · intro item inside
      rcases List.mem_cons.mp inside with rfl | later
      · rw [after]
        rfl
      · exact all item later

private theorem paired_of_extractPairs {rounds : Nat} {state : Extraction Time} {added : List ((Time × UInt32) × Bool)}
    (at_text : state.stream = .ofText text) (result : extractPairs reader rounds state = some added)
    (all : ∀ item ∈ added, item.2 = true) : Paired reader text := by
  induction rounds generalizing state text added with
  | zero =>
    rw [extractPairs,at_text] at result
    cases result
  | succ rounds ih =>
    have fresh : state.stream.eof = false := by
      rw [at_text]
      rfl
    rw [extractPairs,fresh] at result
    obtain ⟨later,next,rfl⟩ := Option.map_eq_some_iff.mp result
    have goes : (extractPair reader state).stream.fail = false := by
      have read := all _ List.mem_cons_self
      exact Bool.not_eq_true' _ ▸ read
    obtain ⟨front,rest,split,isPair,stops,after⟩ := of_extractPair goes
    rw [at_text] at split
    by_cases nonempty : rest = []
    · rw [nonempty,List.append_nil] at split
      have same : text = front := split
      exact .last text (same ▸ isPair)
    · rw [show text = front ++ rest from split]
      refine .more front rest isPair nonempty stops (ih (after.trans (TextStream.reached_of_ne_nil nonempty)) next ?_)
      exact fun item inside => all item (List.mem_cons_of_mem _ inside)

end

/-- Reading ends and adds only what was read if and only if the text is a list of pairs with nothing behind the last amount. -/
theorem reads_iff_paired (reader : TimeReader Time) (time : Time) (amount : UInt32) (text : List Char) :
    (∃ rounds added, extractPairs reader rounds ⟨time,amount,.ofText text⟩ = some added ∧ ∀ item ∈ added, item.2 = true) ↔
      Paired reader text := by
  constructor
  · rintro ⟨rounds,added,result,all⟩
    exact paired_of_extractPairs rfl result all
  · intro paired
    exact extractPairs_of_paired paired rfl

/-- What follows a pair that cannot be read: the end of the text is never noticed. -/
theorem extractPair_of_fail (reader : TimeReader Time) {state : Extraction Time} (failed : state.stream.fail = true)
    (unended : state.stream.eof = false) :
    (extractPair reader state).stream.fail = true ∧ (extractPair reader state).stream.eof = false := by
  have skipped : state.stream.skipSpace = {state.stream with fail := true} := by
    rw [TextStream.skipSpace,failed,Bool.or_true,if_pos rfl]
  have nothing : state.stream.extractString = (none,{state.stream with fail := true}) := by
    rw [TextStream.extractString,skipped]
    rfl
  have timed : extractTime reader state.time state.stream = (reader.failed state.time,{state.stream with fail := true}) := by
    rw [extractTime,nothing]
  rw [extractPair,timed]
  simp [TextStream.extractUInt32,TextStream.skipSpace,unended]

/-- After that the loop goes on for ever. -/
theorem extractPairs_of_fail (reader : TimeReader Time) (rounds : Nat) {state : Extraction Time} (failed : state.stream.fail = true)
    (unended : state.stream.eof = false) : extractPairs reader rounds state = none := by
  induction rounds generalizing state with
  | zero =>
    rw [extractPairs,unended]
    rfl
  | succ rounds ih =>
    obtain ⟨still,unended'⟩ := extractPair_of_fail reader failed unended
    rw [extractPairs,unended]
    dsimp only
    rw [ih still unended']
    rfl

def nanoseconds : TimeFormat Nat where
  parse word := if word.head? = some '+' then some (digitsValue (word.tail.takeWhile Char.isDigit)) else none
  failed := id
  print time := '+' :: (Nat.toDigits 10 time ++ ['.','0','n','s'])
  isWord time := by
    refine ⟨List.cons_ne_nil _ _,?_⟩
    intro c inside
    rcases List.mem_cons.mp inside with rfl | later
    · rfl
    · rcases List.mem_append.mp later with digit | unit
      · have numeric := Nat.isDigit_of_mem_toDigits (by decide) (by decide) digit
        by_contra blank
        rw [isDigit_of_isSpace (Bool.of_not_eq_false blank)] at numeric
        cases numeric
      · simp only [List.mem_cons,List.not_mem_nil,or_false] at unit
        rcases unit with rfl | rfl | rfl | rfl <;> rfl
  parse_print time := by
    have numeric : ∀ c ∈ Nat.toDigits 10 time, Char.isDigit c = true :=
      fun c inside => Nat.isDigit_of_mem_toDigits (by decide) (by decide) inside
    have stops : ∀ c ∈ ['.','0','n','s'].head?, Char.isDigit c = false := by
      rintro c ⟨⟩
      rfl
    obtain ⟨taken,-⟩ := span_append numeric stops
    rw [List.head?_cons,if_pos rfl,List.tail_cons,taken,digitsValue_toDigits]

theorem letter_unread : ¬ ∃ rounds added, extractPairs nanoseconds.toTimeReader rounds ⟨0,0,.ofText ("+1.0ns x".toList)⟩ = some added ∧
    ∀ item ∈ added, item.2 = true := by
  rintro ⟨rounds,added,result,-⟩
  cases rounds with
  | zero => cases result
  | succ rounds =>
    have unread := extractPairs_of_fail nanoseconds.toTimeReader rounds
      (show (extractPair nanoseconds.toTimeReader ⟨0,0,.ofText ("+1.0ns x".toList)⟩).stream.fail = true by decide) (by decide)
    rw [extractPairs,show (TextStream.ofText ("+1.0ns x".toList)).eof = false from rfl] at result
    dsimp only at result
    rw [unread] at result
    cases result

/-! Reading back what was written. -/
section
variable (format : TimeFormat Time) {state : Extraction Time} {space : List Char}

/-- At the end of the text a round extracts nothing, and notices it. -/
theorem extractPair_of_spaces (reader : TimeReader Time) (spaces : ∀ c ∈ space, isSpace c = true)
    (at_text : state.stream = .ofText space) : (extractPair reader state).stream.eof = true := by
  have dropped : (space ++ []).dropWhile isSpace = [] := TextStream.dropWhile_isSpace spaces (by simp)
  rw [List.append_nil] at dropped
  have skipped : (TextStream.ofText space).skipSpace = .reached [] true := by
    rw [TextStream.skipSpace,TextStream.ofText]
    dsimp only
    rw [dropped]
    rfl
  have nothing : (TextStream.ofText space).extractString = (none,.reached [] true) := by
    rw [TextStream.extractString,skipped]
    rfl
  rw [extractPair,at_text,extractTime,nothing]
  rfl

/-- What is read is the list written and one pair more, for the separator behind the last. -/
theorem extractPairs_write (batch : Batches Time) {rounds : Nat} {added : List ((Time × UInt32) × Bool)}
    (spaces : ∀ c ∈ space, isSpace c = true) (at_text : state.stream = .ofText (space ++ write format batch))
    (result : extractPairs format.toTimeReader rounds state = some added) :
    ∃ extra, added.map Prod.fst = batch ++ [extra] := by
  have fresh : state.stream.eof = false := by
    rw [at_text]
    rfl
  induction batch generalizing state space rounds added with
  | nil =>
    cases rounds with
    | zero =>
      rw [extractPairs,fresh] at result
      cases result
    | succ rounds =>
      rw [extractPairs,fresh] at result
      obtain ⟨later,next,rfl⟩ := Option.map_eq_some_iff.mp result
      rw [write,List.flatMap_nil,List.append_nil] at at_text
      have ended := extractPair_of_spaces format.toTimeReader spaces at_text
      have done : later = [] := by
        cases rounds <;> simpa [extractPairs,ended] using next.symm
      subst done
      exact ⟨_,rfl⟩
  | cons first others ih =>
    obtain ⟨time,amount⟩ := first
    cases rounds with
    | zero =>
      rw [extractPairs,fresh] at result
      cases result
    | succ rounds =>
      rw [extractPairs,fresh] at result
      obtain ⟨later,next,rfl⟩ := Option.map_eq_some_iff.mp result
      have pair : extractPair format.toTimeReader state = ⟨time,amount,.ofText ([' '] ++ write format others)⟩ := by
        have stops : ∀ c ∈ ([' '] ++ write format others).head?, Char.isDigit c = false := by
          rintro c ⟨⟩
          rfl
        have split : state.stream = .ofText (space ++ (format.print time ++ ([' '] ++ (Nat.toDigits 10 amount.toNat ++
            ([' '] ++ write format others))))) := by
          rw [at_text]
          simp [write]
        rw [extractPair_append state split spaces (format.isWord time) (format.parse_print time) (by simp) (by simp [isSpace])
          (isNumber_toDigits amount) stops,extractUnsigned_toDigits amount stops]
        rfl
      rw [pair] at next ⊢
      obtain ⟨extra,same⟩ := ih (by simp [isSpace]) rfl next rfl
      exact ⟨extra,by rw [List.map_cons,same]; rfl⟩

/-- No list is read back. -/
theorem read_write_ne (time : Time) (amount : UInt32) (batch : Batches Time) :
    ¬ ∃ rounds, read format.toTimeReader time amount rounds (write format batch) [] = some batch := by
  rintro ⟨rounds,result⟩
  obtain ⟨added,extracted,same⟩ := Option.map_eq_some_iff.mp result
  obtain ⟨extra,longer⟩ := extractPairs_write format batch
    (by simp : ∀ c ∈ ([] : List Char), isSpace c = true) rfl extracted
  rw [List.nil_append,longer] at same
  have lengths := congrArg List.length same
  rw [List.length_append,List.length_singleton] at lengths
  omega

theorem empty_unreturned : ¬∃ rounds, read nanoseconds.toTimeReader 0 0 rounds (write nanoseconds []) [] = some [] := by
  rintro ⟨rounds,result⟩
  cases rounds with
  | zero => cases result
  | succ rounds => cases rounds <;> cases result

end

end Batches

end Ncfcc.Utils
