import Ncfcc.Library.Iteration
import Ncfcc.Utils.Topology.RocketfuelWeightsReader

/-! Links named twice. A line is a duplicate of one that names its nodes the other way round, so that a line that
is repeated as it stands makes a second link. -/
namespace Ncfcc.Utils
open Ncfcc.Library AnnotatedTopologyReader

/-- Of the links made from the lines, those between two nodes are the one of the first line that names them. -/
def OnePerPair (link : List Char → Option Link) (lines : List (List Char)) (created : List Link) : Prop :=
  ∀ pair, ((lines.filter fun line => Joins lineEnds pair line).take 1).mapM link = some (created.filter fun link => Joins linkEnds pair link)

section
variable {link : List Char → Option Link} {items : List (List Char)} {created : List Link}

/-- A link is between the nodes that its line names. -/
theorem mapM_filter_joins (ends : ∀ line made, link line = some made → linkEnds made = lineEnds line) (made : items.mapM link = some created)
    (pair : List Char × List Char) :
    (items.filter fun line => Joins lineEnds pair line).mapM link = some (created.filter fun link => Joins linkEnds pair link) := by
  rw [mapM_eq_some_iff] at made ⊢
  have filtered := congrArg (List.filter fun made : Option Link => made.any fun link => Joins linkEnds pair link) made
  rw [List.filter_map,List.filter_map] at filtered
  refine Eq.trans ?_ filtered
  congr 1
  apply List.filter_congr
  intro line inside
  have mapped : link line ∈ created.map some := made ▸ List.mem_map_of_mem inside
  obtain ⟨first,-,one⟩ := List.mem_map.mp mapped
  have same : Joins linkEnds pair first ↔ Joins lineEnds pair line := by
    unfold Joins
    rw [ends line first one.symm]
  rw [Function.comp,← one,Option.any_some]
  exact decide_eq_decide.mpr same.symm

/-- Links made from the lines that are no duplicates are those of the first lines if and only if no line is repeated. -/
theorem onePerPair_unprocessed_iff (ends : ∀ line made, link line = some made → linkEnds made = lineEnds line)
    (made : (unprocessed lineEnds [] items).mapM link = some created) : OnePerPair link items created ↔ Unrepeated lineEnds items := by
  apply Iff.intro
  · intro one
    apply unrepeated_of_length
    intro pair
    have first := congrArg List.length ((mapM_eq_some_iff ..).mp (one pair))
    have kept := congrArg List.length ((mapM_eq_some_iff ..).mp (mapM_filter_joins ends made pair))
    rw [List.length_map,List.length_map] at first kept
    rw [kept,← first]
    exact List.length_take_le 1 _
  · intro unrepeated pair
    rw [← take_of_unrepeated unrepeated]
    exact mapM_filter_joins ends made pair

end

/-! The annotated reader. -/
section
variable {known : List (List Char)} {processedLinks : List (List Char × List Char)}

def Known (known : List (List Char)) (ends : List Char × List Char) : Prop := ends.1 ∈ known ∧ ends.2 ∈ known

instance (ends : List Char × List Char) : Decidable (Known known ends) := inferInstanceAs (Decidable (_ ∧ _))

/-- Every line of the section needs its nodes, also a duplicate. -/
theorem readLinks_eq (links : List Link) (lines : List (List Char)) (processed : ∀ ends ∈ processedLinks, Known known ends) :
    readLinks known processedLinks links lines =
      if ∀ line ∈ linkLines lines, Known known (lineEnds line) then
        some (links ++ (unprocessed lineEnds processedLinks (linkLines lines)).map fun line => linkOf (words line))
      else none := by
  induction lines generalizing processedLinks links with
  | nil => simp [readLinks,linkLines,unprocessed]
  | cons line rest ih =>
    rw [readLinks]
    by_cases skipped : (line.isEmpty || isComment line) = true
    · have same : linkLines (line :: rest) = linkLines rest := List.filter_cons_of_neg (by simp [skipped])
      rw [if_pos skipped,same]
      exact ih links processed
    · have same : linkLines (line :: rest) = line :: linkLines rest := List.filter_cons_of_pos (by simpa using skipped)
      rw [if_neg skipped,same,unprocessed]
      dsimp only
      by_cases duplicate : (lineEnds line).swap ∈ processedLinks
      · have present : Known known (lineEnds line) := (processed _ duplicate).symm
        rw [if_pos (show ((linkOf (words line)).toName,(linkOf (words line)).fromName) ∈ processedLinks from duplicate),
          if_pos duplicate,ih links processed]
        simp only [List.forall_mem_cons,present,true_and]
      · rw [if_neg (show ((linkOf (words line)).toName,(linkOf (words line)).fromName) ∉ processedLinks from duplicate),
          if_neg duplicate]
        by_cases present : Known known (lineEnds line)
        · rw [if_pos (show (linkOf (words line)).fromName ∈ known ∧ (linkOf (words line)).toName ∈ known from present),
            List.map_cons]
          have present' : ∀ ends ∈ lineEnds line :: processedLinks, Known known ends := List.forall_mem_cons.mpr ⟨present,processed⟩
          refine (ih (links ++ [linkOf (words line)]) present').trans ?_
          simp only [List.forall_mem_cons,present,true_and,List.append_assoc,List.singleton_append]
        · rw [if_neg (show ¬((linkOf (words line)).fromName ∈ known ∧ (linkOf (words line)).toName ∈ known) from present),
            if_neg fun all => present (all line List.mem_cons_self)]

/-- The link of each pair is that of its first line if and only if the section names an unknown node, or repeats no line. -/
theorem readLinks_onePerPair_iff (known : List (List Char)) (lines : List (List Char)) :
    (∀ created, readLinks known [] [] lines = some created → OnePerPair (fun line => some (linkOf (words line))) (linkLines lines) created) ↔
      (∃ line ∈ linkLines lines, ¬Known known (lineEnds line)) ∨ Unrepeated lineEnds (linkLines lines) := by
  have result := readLinks_eq [] lines (by simp : ∀ ends ∈ ([] : List (List Char × List Char)), Known known ends)
  by_cases all : ∀ line ∈ linkLines lines, Known known (lineEnds line)
  · rw [if_pos all] at result
    have made : (unprocessed lineEnds [] (linkLines lines)).mapM (fun line => some (linkOf (words line))) =
        some ([] ++ (unprocessed lineEnds [] (linkLines lines)).map fun line => linkOf (words line)) := by
      rw [mapM_eq_some_iff,List.nil_append,List.map_map]
      rfl
    have ends : ∀ line made, some (linkOf (words line)) = some made → linkEnds made = lineEnds line := by
      rintro line made ⟨⟩
      rfl
    rw [← onePerPair_unprocessed_iff ends made,result]
    simp only [Option.some.injEq,forall_eq']
    apply Iff.intro
    · exact Or.inr
    · rintro (⟨line,inside,unknown⟩ | one)
      · exact absurd (all line inside) unknown
      · exact one
  · rw [if_neg all] at result
    rw [result]
    simp only [not_forall,exists_prop] at all
    exact ⟨fun _ => .inl all,fun _ created none => nomatch none⟩

end

/-! The reader of weights and latencies, for its first file. -/
namespace RocketfuelWeightsReader

/-- Some line that is no duplicate has a weight that is no number. -/
def Uncast (lexicalCast : List Char → Option UInt16) (inputType : InputType) (lines : List (List Char)) : Prop :=
  inputType = .weights ∧ ∃ before line after, lines = before ++ line :: after ∧ Accepted lineEnds before line ∧
    lexicalCast (attributeOf line) = none

def linkOfLine (lexicalCast : List Char → Option UInt16) (reader : RocketfuelWeightsReader) (line : List Char) : Option Link :=
  setAttributes lexicalCast reader line (newLink (lineEnds line))

private theorem linkOfLine_eq_none {lexicalCast : List Char → Option UInt16} {reader : RocketfuelWeightsReader} {line : List Char} :
    linkOfLine lexicalCast reader line = none ↔ reader.inputType = .weights ∧ lexicalCast (attributeOf line) = none := by
  unfold linkOfLine setAttributes
  cases reader.inputType <;> simp

private theorem read_onePerPair_iff (lexicalCast : List Char → Option UInt16) (reader : RocketfuelWeightsReader) (text : List Char) :
    (∀ result, read lexicalCast {reader with linksList := []} text = some result →
      OnePerPair (linkOfLine lexicalCast reader) (linkLines (lines text)) result.linksList) ↔
      Uncast lexicalCast reader.inputType (linkLines (lines text)) ∨ Unrepeated lineEnds (linkLines (lines text)) := by
  have result := read_new lexicalCast (rfl : {reader with linksList := []}.linksList = []) text
  have ends : ∀ line made, linkOfLine lexicalCast reader line = some made → linkEnds made = lineEnds line :=
    fun line made one => setAttributes_ends one
  have uncast : (unprocessed lineEnds [] (linkLines (lines text))).mapM (linkOfLine lexicalCast reader) = none ↔
      Uncast lexicalCast reader.inputType (linkLines (lines text)) := by
    rw [mapM_eq_none,Uncast]
    simp only [linkOfLine_eq_none,mem_unprocessed_iff]
    grind
  change (read lexicalCast {reader with linksList := []} text).map linksList =
    (unprocessed lineEnds [] (linkLines (lines text))).mapM (linkOfLine lexicalCast reader) at result
  rw [← uncast]
  cases made : (unprocessed lineEnds [] (linkLines (lines text))).mapM (linkOfLine lexicalCast reader) with
  | none =>
    rw [made,Option.map_eq_none_iff] at result
    rw [result]
    exact ⟨fun _ => .inl rfl,fun _ _ impossible => by cases impossible⟩
  | some created =>
    rw [made] at result
    obtain ⟨after,returned,rfl⟩ := Option.map_eq_some_iff.mp result
    rw [← onePerPair_unprocessed_iff ends made,returned]
    simp

/-- Both readers make at most one link between two nodes, that of the first line, exactly for sections that repeat no line. -/
theorem onePerPair_iff (known : List (List Char)) (lines : List (List Char)) (lexicalCast : List Char → Option UInt16)
    (reader : RocketfuelWeightsReader) (text : List Char) :
    ((∀ created, readLinks known [] [] lines = some created →
        OnePerPair (fun line => some (linkOf (words line))) (linkLines lines) created) ↔
      (∃ line ∈ linkLines lines, ¬Known known (lineEnds line)) ∨ Unrepeated lineEnds (linkLines lines)) ∧
    ((∀ result, read lexicalCast {reader with linksList := []} text = some result →
        OnePerPair (linkOfLine lexicalCast reader) (linkLines (Library.lines text)) result.linksList) ↔
      Uncast lexicalCast reader.inputType (linkLines (Library.lines text)) ∨ Unrepeated lineEnds (linkLines (Library.lines text))) := by
  apply And.intro
  · exact readLinks_onePerPair_iff known lines
  · exact read_onePerPair_iff lexicalCast reader text

/-- A line that stands twice. -/
theorem twice_linked :
    (¬∀ created, readLinks [['A'],['B']] [] [] ["A B".toList,"A B".toList] = some created →
      OnePerPair (fun line => some (linkOf (words line))) ["A B".toList,"A B".toList] created) ∧
    ¬∀ result, read (fun _ => none) ⟨.links,[],[],[],[]⟩ "A B\nA B".toList = some result →
      OnePerPair (linkOfLine (fun _ => none) ⟨.links,[],[],[],[]⟩) ["A B".toList,"A B".toList] result.linksList := by
  apply And.intro
  · intro one
    have single := one _ rfl (['A'],['B'])
    revert single
    decide
  · intro one
    have single := one _ rfl (['A'],['B'])
    revert single
    decide

end RocketfuelWeightsReader

end Ncfcc.Utils
