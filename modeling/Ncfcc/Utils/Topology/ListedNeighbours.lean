import Mathlib.Data.List.TakeWhile
import Ncfcc.Library.TextStream
import Ncfcc.Utils.Topology.LineFields
import Ncfcc.Utils.Topology.MapAdditions

/-! What a line of a Rocketfuel map should add, and when it does: its radius is never taken into account,
and a second blank between neighbours makes a neighbour of all the text behind it. -/
namespace Ncfcc.Utils.Rocketfuel
open Ncfcc.Library

/-- An id that stands between angle brackets. -/
def Listed (text id : List Char) : Prop := id ≠ [] ∧ (∀ c ∈ id, c.isDigit = true) ∧ ('<' :: id ++ ['>']) <:+: text

/-- No two blanks follow each other, and in each word of three characters or more a listed id
stands between the first one and the last one. -/
def WordsListed (text : List Char) : Prop :=
  ∀ word ∈ text.splitOnP isBlank, word ≠ [] ∧ (3 ≤ word.length → Listed text word.tail.dropLast)

/-! Neighbours and words. -/

section
variable {field text word neighbour : List Char}

private theorem splitOnP_field {c : Char} {rest : List Char} (whole : ∀ c ∈ field, isBlank c = false) (separator : isBlank c = true) :
    (field ++ c :: rest).splitOnP isBlank = field :: rest.splitOnP isBlank := by
  apply List.splitOnP_append_cons_of_forall_mem whole
  exact separator

private theorem whole_concat {c : Char} (whole : ∀ c ∈ field, isBlank c = false) (more : ¬isBlank c = true) :
    ∀ own ∈ field ++ [c], isBlank own = false := by
  intro own member
  rcases List.mem_append.mp member with old | new
  · exact whole own old
  · rw [List.mem_singleton.mp new]
    exact Bool.eq_false_iff.mpr more

/-- Each word is a neighbour without its first and its last character. -/
theorem mem_neighboursFrom (field : List Char) (whole : ∀ c ∈ field, isBlank c = false) (inside : word ∈ (field ++ text).splitOnP isBlank)
    (nonempty : word ≠ []) : word.tail.dropLast ∈ neighboursFrom field text := by
  fun_induction neighboursFrom field text with
  | case1 field =>
    rw [List.append_nil,List.splitOnP_eq_singleton whole,List.mem_singleton] at inside
    rw [inside]
    exact List.mem_singleton_self _
  | case2 field c rest separator ih =>
    rw [splitOnP_field whole separator] at inside
    rcases List.mem_cons.mp inside with rfl | later
    · rw [if_neg nonempty]
      exact List.mem_cons_self
    · exact List.mem_cons_of_mem _ (ih (fun _ member => nomatch member) later)
  | case3 field c rest more ih =>
    rw [List.append_cons] at inside
    exact ih (whole_concat whole more) inside

/-- Without empty words there are no other neighbours. -/
theorem of_mem_neighboursFrom (field : List Char) (whole : ∀ c ∈ field, isBlank c = false)
    (nonempty : ∀ word ∈ (field ++ text).splitOnP isBlank, word ≠ []) (inside : neighbour ∈ neighboursFrom field text) :
    ∃ word ∈ (field ++ text).splitOnP isBlank, neighbour = word.tail.dropLast := by
  fun_induction neighboursFrom field text with
  | case1 field =>
    rw [List.append_nil,List.splitOnP_eq_singleton whole]
    exact ⟨field,List.mem_singleton_self field,List.mem_singleton.mp inside⟩
  | case2 field c rest separator ih =>
    rw [splitOnP_field whole separator] at nonempty ⊢
    rcases List.mem_cons.mp inside with own | later
    · rw [if_neg (nonempty field List.mem_cons_self)] at own
      exact ⟨field,List.mem_cons_self,own⟩
    · obtain ⟨word,member,same⟩ := ih (fun _ member => nomatch member)
        (fun word member => nonempty word (List.mem_cons_of_mem field member)) later
      exact ⟨word,List.mem_cons_of_mem field member,same⟩
  | case3 field c rest more ih =>
    rw [List.append_cons] at nonempty ⊢
    exact ih (whole_concat whole more) nonempty inside

/-- An empty word makes a neighbour of the text behind it. -/
theorem exists_neighbour_of_empty (field : List Char) {last : Char} (ends : (field ++ text).getLast? = some last) (nonblank : isBlank last = false)
    (whole : ∀ c ∈ field, isBlank c = false) (inside : [] ∈ (field ++ text).splitOnP isBlank) :
    ∃ neighbour ∈ neighboursFrom field text, neighbour.getLast? = some last := by
  fun_induction neighboursFrom field text with
  | case1 field =>
    rw [List.append_nil,List.splitOnP_eq_singleton whole,List.mem_singleton] at inside
    subst inside
    exact nomatch ends
  | case2 field c rest separator ih =>
    have behind : rest.getLast? = some last := by
      rw [List.getLast?_append_cons] at ends
      cases rest with
      | nil =>
        have same : c = last := Option.some.inj ends
        rw [same,nonblank] at separator
        exact nomatch separator
      | cons second others => simpa [List.getLast?_cons] using ends
    rw [splitOnP_field whole separator] at inside
    rcases List.mem_cons.mp inside with rfl | later
    · exact ⟨rest,List.mem_cons_self,behind⟩
    · obtain ⟨neighbour,member,same⟩ := ih behind (fun _ member => nomatch member) later
      exact ⟨neighbour,List.mem_cons_of_mem _ member,same⟩
  | case3 field c rest more ih =>
    rw [List.append_cons] at inside ends
    exact ih ends (whole_concat whole more) inside

/-- Text without separators stands inside a word. -/
theorem exists_word_of_infix {separates : Char → Bool} {part : List Char}
    (plain : ∀ c ∈ part, separates c = false) (inside : part <:+: text) : ∃ word ∈ text.splitOnP separates, part <:+: word := by
  obtain ⟨before,after,rfl⟩ := inside
  induction before with
  | nil =>
    rw [List.nil_append]
    have passed : ∀ c ∈ part ++ after.takeWhile fun c => !separates c, separates c = false := by
      intro c member
      rcases List.mem_append.mp member with own | more
      · exact plain c own
      · simpa using List.mem_takeWhile_imp more
    have split : part ++ after = part ++ (after.takeWhile fun c => !separates c) ++ after.dropWhile fun c => !separates c := by
      rw [List.append_assoc,List.takeWhile_append_dropWhile]
    refine ⟨part ++ after.takeWhile fun c => !separates c,?_,(List.prefix_append ..).isInfix⟩
    rw [split]
    cases rest : after.dropWhile fun c => !separates c with
    | nil =>
      rw [List.append_nil,List.splitOnP_eq_singleton passed]
      exact List.mem_singleton_self _
    | cons c others =>
      have stops := head_dropWhile (fun c => !separates c) after
      rw [rest] at stops
      rw [List.splitOnP_append_cons_of_forall_mem passed c (by simpa using stops)]
      exact List.mem_cons_self
  | cons c before ih =>
    obtain ⟨word,member,within⟩ := ih
    rw [List.cons_append,List.cons_append,List.splitOnP_cons_eq_if_modifyHead]
    split
    · exact ⟨word,List.mem_cons_of_mem _ member,within⟩
    · cases words : (before ++ part ++ after).splitOnP separates with
      | nil => exact (List.splitOnP_ne_nil _ _ words).elim
      | cons first others =>
        rw [words] at member
        rcases List.mem_cons.mp member with rfl | later
        · exact ⟨c :: word,List.mem_cons_self,within.trans (List.suffix_cons c word).isInfix⟩
        · exact ⟨word,List.mem_cons_of_mem _ later,within⟩

/-- An id between the first and the last character of a word is the only one there. -/
theorem eq_of_infix {id : List Char} (digits : ∀ c ∈ word.tail.dropLast, c.isDigit = true) (inside : ('<' :: id ++ ['>']) <:+: word) :
    id = word.tail.dropLast := by
  obtain ⟨before,after,rfl⟩ := inside
  have first : before = [] := by
    cases before with
    | nil => rfl
    | cons c before =>
      have member : '<' ∈ ((c :: before) ++ ('<' :: id ++ ['>']) ++ after).tail.dropLast := by
        have shape : ((c :: before) ++ ('<' :: id ++ ['>']) ++ after).tail = before ++ '<' :: (id ++ '>' :: after) := by
          simp
        rw [shape,List.dropLast_append_of_ne_nil (by simp),List.dropLast_cons_of_ne_nil (by simp)]
        simp
      exact nomatch digits '<' member
  have last : after = [] := by
    rcases List.eq_nil_or_concat' after with none | ⟨after,c,rfl⟩
    · exact none
    · have member : '>' ∈ (before ++ ('<' :: id ++ ['>']) ++ (after ++ [c])).tail.dropLast := by
        subst first
        have shape : ([] ++ ('<' :: id ++ ['>']) ++ (after ++ [c])).tail = id ++ '>' :: after ++ [c] := by
          simp
        rw [shape,List.dropLast_concat]
        simp
      exact nomatch digits '>' member
  subst first last
  simp

/-- The neighbours other than empty ones are the listed ids. -/
theorem WordsListed.mem_iff (words : WordsListed text) {id : List Char} :
    (id ∈ neighboursFrom [] text ∧ id ≠ []) ↔ Listed text id := by
  constructor
  · rintro ⟨member,nonempty⟩
    obtain ⟨word,inside,rfl⟩ := of_mem_neighboursFrom [] (fun _ member => absurd member List.not_mem_nil)
      (fun word inside => (words word inside).1) member
    apply (words word inside).2
    have length := List.length_pos_of_ne_nil nonempty
    rw [List.length_dropLast,List.length_tail] at length
    omega
  · intro listed
    obtain ⟨nonempty,digits,inside⟩ := listed
    have plain : ∀ c ∈ '<' :: id ++ ['>'], isBlank c = false := by
      intro c member
      rcases List.mem_append.mp member with inFront | last
      · rcases List.mem_cons.mp inFront with rfl | digit
        · rfl
        · have isDigit := digits c digit
          by_contra blank
          rw [Bool.not_eq_false,isBlank,Bool.or_eq_true,decide_eq_true_eq,decide_eq_true_eq] at blank
          rcases blank with rfl | rfl <;> exact absurd isDigit (by decide)
      · rw [List.mem_singleton.mp last]
        rfl
    obtain ⟨word,member,within⟩ := exists_word_of_infix plain inside
    have length := within.length_le
    simp only [List.length_append,List.length_cons,List.length_nil] at length
    have positive := List.length_pos_of_ne_nil nonempty
    obtain ⟨filled,enclosed⟩ := words word member
    obtain ⟨_,inner,_⟩ := enclosed (by omega)
    have same := eq_of_infix inner within
    refine ⟨?_,nonempty⟩
    rw [same]
    exact mem_neighboursFrom [] (fun _ member => absurd member List.not_mem_nil) member filled

/-- Where all neighbours are listed, so is what stands in the words. -/
theorem wordsListed_of_neighbours (ends : text.getLast? = some '>')
    (listed : ∀ neighbour ∈ neighboursFrom [] text, neighbour ≠ [] → Listed text neighbour) : WordsListed text := by
  intro word inside
  have filled : word ≠ [] := by
    rintro rfl
    obtain ⟨neighbour,member,last⟩ := exists_neighbour_of_empty [] ends rfl (fun _ member => nomatch member) inside
    have nonempty : neighbour ≠ [] := by
      rintro rfl
      exact nomatch last
    obtain ⟨_,digits,_⟩ := listed neighbour member nonempty
    exact nomatch digits '>' (List.mem_of_getLast? last)
  refine ⟨filled,fun long => ?_⟩
  apply listed _ (mem_neighboursFrom [] (fun _ member => nomatch member) inside filled)
  apply List.ne_nil_of_length_pos
  rw [List.length_dropLast,List.length_tail]
  omega

end

/-! Lines. -/

namespace MatchedLine
variable (line : MatchedLine)

def uidName : String := String.ofList line.uidText

def listedIds : Set String := {name | ∃ text, line.neighbourText = some text ∧ ∃ id, Listed text id ∧ String.ofList id = name}

def neighbourNames : Set String := {name | name ∈ line.neighbourList.map String.ofList ∧ name ≠ ""}

end MatchedLine

/-- A line with a radius adds nothing. Any other one adds its node and a link to each listed id. -/
def AddsListed (allocator : Allocator) (line : MatchedLine) : Prop :=
  ∀ (earlier : List MatchedLine) (before : Reading), earlier.foldlM (readLine allocator) .empty = some before →
    ∃ after, readLine allocator before line = some after ∧
      if line.radius.val = '0' then
        after.OnePerName ∧ after.names = before.names ∪ insert line.uidName line.listedIds ∧
          ∀ first second, after.Linked first second ↔ before.Linked first second ∨
            (first = line.uidName ∧ second ∈ line.listedIds ∨ second = line.uidName ∧ first ∈ line.listedIds)
      else after = before

section
variable {allocator : Allocator} {line : MatchedLine}

private theorem uidName_ne : line.uidName ≠ "" := by
  intro empty
  have none : line.uidText = [] := by
    simpa [MatchedLine.uidName] using empty
  exact line.uid.property.1 (List.append_eq_nil_iff.mp none).2

/-- What a line adds, whatever its radius is. -/
theorem readLine_adds (allocator : Allocator) {before : Reading} (named : before.Named) (line : MatchedLine) :
    ∃ after, readLine allocator before line = some after ∧
      Adds before (insert line.uidName line.neighbourNames)
        {link | link.1 = line.uidName ∧ link.2 ∈ line.neighbourNames} after :=
  ⟨_,readLine_eq allocator before line,adds_line allocator named uidName_ne _⟩

private theorem named_of_lines {before after : Reading} (named : before.Named) {lines : List MatchedLine}
    (read : lines.foldlM (readLine allocator) before = some after) : after.Named := by
  induction lines generalizing before with
  | nil =>
    obtain rfl := Option.some.inj read
    exact named
  | cons line rest ih =>
    obtain ⟨next,first,added⟩ := readLine_adds allocator named line
    rw [List.foldlM_cons,first] at read
    exact ih added.named read

theorem AddsListed.first (adds : AddsListed allocator line) : line.radius.val = '0' ∧ line.neighbourNames ⊆ line.listedIds := by
  obtain ⟨after,read,meets⟩ := adds [] .empty rfl
  obtain ⟨same,first,added⟩ := readLine_adds allocator .empty line
  obtain rfl := Option.some.inj (first.symm.trans read)
  split at meets
  · rename_i inArea
    obtain ⟨_,_,links⟩ := meets
    refine ⟨inArea,?_⟩
    intro name member
    have linked := (added.links line.uidName name).mpr (Or.inr (Or.inl ⟨rfl,member⟩))
    rcases (links line.uidName name).mp linked with ⟨u,v,joined,_⟩ | ⟨_,listed⟩ | ⟨own,listed⟩
    · rcases joined with forward | backward
      · exact nomatch forward
      · exact nomatch backward
    · exact listed
    · exact own ▸ listed
  · have there : line.uidName ∈ same.names := by
      rw [added.names]
      exact Or.inr (Set.mem_insert ..)
    rw [meets] at there
    obtain ⟨v,inside,_⟩ := there
    exact nomatch inside

private theorem mem_neighbourNames {text : List Char} (given : line.neighbourText = some text) {id : List Char} :
    String.ofList id ∈ line.neighbourNames ↔ id ∈ neighboursFrom [] text ∧ id ≠ [] := by
  simp [MatchedLine.neighbourNames,MatchedLine.neighbourList,given,String.ofList_inj]

private theorem mem_listedIds {text : List Char} (given : line.neighbourText = some text) {id : List Char} :
    String.ofList id ∈ line.listedIds ↔ Listed text id := by
  simp [MatchedLine.listedIds,given,String.ofList_inj]

theorem AddsListed.words (adds : AddsListed allocator line) {text : List Char} (given : line.neighbourText = some text) :
    WordsListed text := by
  obtain ⟨inner,shape,_⟩ := MatchedLine.neighbourText_class given
  refine wordsListed_of_neighbours (by rw [shape,List.getLast?_concat]) ?_
  intro neighbour member nonempty
  apply (mem_listedIds given).mp
  exact adds.first.2 ((mem_neighbourNames given).mpr ⟨member,nonempty⟩)

/-- Neighbours whose words are listed are the listed ids. -/
theorem neighbourNames_eq (words : ∀ text, line.neighbourText = some text → WordsListed text) :
    line.neighbourNames = line.listedIds := by
  ext name
  obtain ⟨id,rfl⟩ : ∃ id, String.ofList id = name := ⟨name.toList,String.ofList_toList⟩
  cases listed : line.neighbourText with
  | none => simp [MatchedLine.neighbourNames,MatchedLine.neighbourList,MatchedLine.listedIds,listed]
  | some text => exact (mem_neighbourNames listed).trans ((words text listed).mem_iff.trans (mem_listedIds listed).symm)

/-- Just the lines of the area without second blanks and other text between blanks are added as they should be. -/
theorem addsListed_iff (allocator : Allocator) (line : MatchedLine) : AddsListed allocator line ↔
    line.radius.val = '0' ∧ ∀ text, line.neighbourText = some text → WordsListed text := by
  constructor
  · intro adds
    exact ⟨adds.first.1,fun text given => adds.words given⟩
  · rintro ⟨inArea,words⟩ earlier before read
    have named := named_of_lines .empty read
    obtain ⟨after,done,added⟩ := readLine_adds allocator named line
    rw [neighbourNames_eq words] at added
    refine ⟨after,done,?_⟩
    rw [if_pos inArea]
    exact ⟨added.named.onePerName,added.names,added.links⟩

end

private theorem nonemptyText {allowed : Char → Bool} {c : Char} {rest : List Char} (all : (c :: rest).all allowed = true) :
    c :: rest ≠ [] ∧ ∀ own ∈ c :: rest, allowed own = true := ⟨List.cons_ne_nil c rest,List.all_eq_true.mp all⟩

/-- A line `1 @a (0) -> <...> =b rN`. -/
def lineWith (neighbours : NonemptyText isNeighbour) (radius : {c : Char // c.isDigit = true}) : MatchedLine :=
  let blank : NonemptyText isBlank := ⟨[' '],nonemptyText rfl⟩
  let none : Text isBlank := ⟨[],nofun⟩
  ⟨0,⟨['1'],nonemptyText rfl⟩,blank,⟨['a'],nonemptyText rfl⟩,blank,0,none,0,none,⟨['0'],nonemptyText rfl⟩,blank,[],none,
    ⟨[' '],List.all_eq_true.mp rfl⟩,some neighbours,none,Option.none,blank,⟨['b'],nonemptyText rfl⟩,blank,radius,none⟩

/-- Neither a node outside of the area nor two neighbours with two blanks between them. -/
theorem outside_added_spaced_misread : ¬AddsListed ascending (lineWith ⟨['2'],nonemptyText rfl⟩ ⟨'1',rfl⟩) ∧
    ¬AddsListed ascending (lineWith ⟨['2','>',' ',' ','<','3'],nonemptyText rfl⟩ ⟨'0',rfl⟩) := by
  constructor
  · intro adds
    exact nomatch adds.first.1
  · intro adds
    have split : (['<','2','>',' ',' ','<','3','>'] : List Char).splitOnP isBlank = [['<','2','>'],[],['<','3','>']] := rfl
    have words := adds.words rfl []
    exact (words (split ▸ List.mem_cons_of_mem _ List.mem_cons_self)).1 rfl

end Ncfcc.Utils.Rocketfuel
