import Ncfcc.Library.Iteration
import Ncfcc.Utils.Topology.RocketfuelWeightsReader

/-! Weights and latencies of the same links. The first file makes the links, and the second is matched with
them line by line, whatever nodes its lines name. -/
namespace Ncfcc.Utils.RocketfuelWeightsReader
open Ncfcc.Library AnnotatedTopologyReader

def acceptedLines (text : List Char) : List (List Char) := unprocessed lineEnds [] (linkLines (lines text))

section
variable {lexicalCast : List Char → Option UInt16} {reader result : RocketfuelWeightsReader} {line text : List Char} {link after : Link}

def Carries (lexicalCast : List Char → Option UInt16) (inputType : InputType) (line : List Char) (link : Link) : Prop :=
  match inputType with
  | .links => True
  | .weights => ∃ metric, lexicalCast (attributeOf line) = some metric ∧ link.ospf = some (Nat.toDigits 10 metric.toNat)
  | .latencies => link.delay = some (attributeOf line ++ ['m','s'])

private theorem setAttributes_carries (set : setAttributes lexicalCast reader line link = some after) :
    Carries lexicalCast reader.inputType line after := by
  unfold setAttributes at set
  unfold Carries
  cases type : reader.inputType with
  | links => trivial
  | weights =>
    rw [type] at set
    obtain ⟨metric,cast,rfl⟩ := Option.map_eq_some_iff.mp set
    exact ⟨metric,cast,rfl⟩
  | latencies =>
    rw [type] at set
    cases set
    rfl

/-- A file of the other type changes nothing of that. -/
theorem Carries.setAttributes {inputType : InputType} {other : List Char} (carries : Carries lexicalCast inputType other link)
    (differs : inputType ≠ reader.inputType) (set : setAttributes lexicalCast reader line link = some after) :
    Carries lexicalCast inputType other after := by
  unfold RocketfuelWeightsReader.setAttributes at set
  cases type : reader.inputType with
  | links =>
    rw [type] at set
    cases set
    exact carries
  | weights =>
    rw [type] at set
    obtain ⟨metric,-,rfl⟩ := Option.map_eq_some_iff.mp set
    cases inputType with
    | links => trivial
    | weights => exact absurd type.symm differs
    | latencies => exact carries
  | latencies =>
    rw [type] at set
    cases set
    cases inputType with
    | links => trivial
    | weights => exact carries
    | latencies => exact absurd type.symm differs

private theorem read_first (empty : reader.linksList = []) (returned : read lexicalCast reader text = some result) :
    result.linksList.length = (acceptedLines text).length ∧ ∀ (i : Nat) line link, (acceptedLines text)[i]? = some line →
      result.linksList[i]? = some link → linkEnds link = lineEnds line ∧ Carries lexicalCast reader.inputType line link := by
  have created := read_new lexicalCast empty text
  rw [returned,Option.map_some] at created
  have made := (mapM_eq_some_iff ..).mp created.symm
  apply And.intro
  · simpa [acceptedLines] using (congrArg List.length made).symm
  · intro i line link here there
    have one := congrArg (·[i]?) made
    simp only [List.getElem?_map,there] at one
    rw [show (unprocessed lineEnds [] (linkLines (lines text)))[i]? = some line from here] at one
    have set : setAttributes lexicalCast reader line (newLink (lineEnds line)) = some link := Option.some.inj one
    exact ⟨setAttributes_ends set,setAttributes_carries set⟩

private theorem read_further (nonempty : reader.linksList ≠ []) (returned : read lexicalCast reader text = some result) :
    result.linksList.length = reader.linksList.length ∧ ∀ (i : Nat) line, (acceptedLines text)[i]? = some line →
      ∃ link after, reader.linksList[i]? = some link ∧ result.linksList[i]? = some after ∧
        setAttributes lexicalCast reader line link = some after := by
  have set := read_repeated lexicalCast nonempty text
  rw [returned,Option.map_some] at set
  apply And.intro
  · exact setLines_length set.symm
  · intro i line here
    exact setLines_getElem set.symm here

end

/-- The i-th link has the attributes of the i-th accepted lines of both files; these name its own nodes if both files name
the same pairs of nodes in the same order, each in one direction or the other. -/
theorem readFiles_carries (lexicalCast : List Char → Option UInt16) (reader : RocketfuelWeightsReader) (first second : InputType × List Char)
    (differ : first.1 ≠ second.1)
    (same_order : List.Forall₂ (fun line other => Joins lineEnds (lineEnds line) other) (acceptedLines first.2) (acceptedLines second.2))
    (result : RocketfuelWeightsReader) (returned : readFiles lexicalCast {reader with linksList := []} [first,second] = some result) :
    result.linksList.length = (acceptedLines first.2).length ∧
    ∀ (i : Nat) (link : Link), result.linksList[i]? = some link → ∃ line other, (acceptedLines first.2)[i]? = some line ∧
      (acceptedLines second.2)[i]? = some other ∧ linkEnds link = lineEnds line ∧ Joins lineEnds (linkEnds link) other ∧
      Carries lexicalCast first.1 line link ∧ Carries lexicalCast second.1 other link := by
  rw [readFiles,List.foldlM_cons] at returned
  obtain ⟨middle,one,rest⟩ := Option.bind_eq_some_iff.mp returned
  rw [List.foldlM_cons] at rest
  obtain ⟨last,two,same⟩ := Option.bind_eq_some_iff.mp rest
  cases same
  have one : read lexicalCast {reader with inputType := first.1, linksList := []} first.2 = some middle := one
  have two : read lexicalCast {middle with inputType := second.1} second.2 = some result := two
  obtain ⟨made,sets⟩ := read_first rfl one
  have count := same_order.length_eq
  by_cases empty : middle.linksList = []
  · -- there are no links, and the second file has no lines for any
    have nothing : (acceptedLines first.2).length = 0 := by rw [← made,empty]; rfl
    obtain ⟨still,-⟩ := read_first (by exact empty) two
    have none : result.linksList.length = 0 := still.trans (count.symm.trans nothing)
    refine ⟨none.trans nothing.symm,?_⟩
    intro i link here
    rw [List.eq_nil_of_length_eq_zero none] at here
    cases here
  · obtain ⟨kept,further⟩ := read_further (by exact empty) two
    refine ⟨kept.trans made,?_⟩
    intro i link here
    have inside : i < (acceptedLines first.2).length := by
      rw [← made,← kept]
      exact (List.getElem?_eq_some_iff.mp here).1
    have line := List.getElem?_eq_getElem inside
    have other := List.getElem?_eq_getElem (count ▸ inside : i < (acceptedLines second.2).length)
    obtain ⟨before,after,was,now,set⟩ := further i _ other
    cases now.symm.trans here
    obtain ⟨ends,carried⟩ := sets i _ before line was
    have ends' : linkEnds link = _ := (setAttributes_ends set).trans ends
    refine ⟨_,_,line,other,ends',?_,carried.setAttributes differ set,setAttributes_carries set⟩
    rw [ends']
    exact List.forall₂_iff_get.mp same_order |>.2 i inside _

def decimal (word : List Char) : Option UInt16 :=
  if !word.isEmpty && word.all Char.isDigit && digitsValue word < 2^16 then some (UInt16.ofNat (digitsValue word)) else none

def twoWeights : InputType × List Char := (.weights,['A',' ','B',' ','1','\n','C',' ','D',' ','2'])

theorem readFiles_carries_reversed : ∃ result, readFiles decimal ⟨.links,['1'],[],[],[]⟩
    [twoWeights,(.latencies,['B',' ','A',' ','5','\n','C',' ','D',' ','7'])] = some result ∧ result.linksList.length = 2 := by
  refine ⟨_,rfl,?_⟩
  exact (readFiles_carries decimal ⟨.links,['1'],[],[],[]⟩ twoWeights (.latencies,['B',' ','A',' ','5','\n','C',' ','D',' ','7'])
    (by decide) (.cons (by decide) (.cons (by decide) .nil)) _ rfl).1

/-- Latencies in another order go to the wrong links. -/
theorem latencies_shifted : ∃ result, readFiles decimal ⟨.links,['1'],[],[],[]⟩
    [twoWeights,(.latencies,['C',' ','D',' ','5','\n','A',' ','B',' ','7'])] = some result ∧ ∃ link ∈ result.linksList,
      ¬∃ line ∈ linkLines (lines ['C',' ','D',' ','5','\n','A',' ','B',' ','7']), Joins lineEnds (linkEnds link) line ∧
        Carries decimal .latencies line link := by
  refine ⟨_,rfl,⟨['A'],['B'],some ['1'],some ['1'],some ['5','m','s'],none,none⟩,List.mem_cons.mpr (.inl rfl),?_⟩
  rintro ⟨line,inside,joins,carries⟩
  have read_lines : linkLines (lines ['C',' ','D',' ','5','\n','A',' ','B',' ','7']) =
      [['C',' ','D',' ','5'],['A',' ','B',' ','7']] := by decide
  rw [read_lines] at inside
  simp only [List.mem_cons,List.not_mem_nil,or_false] at inside
  rcases inside with rfl | rfl
  · exact absurd joins (by decide)
  · have delays : some ['5','m','s'] = some (attributeOf ['A',' ','B',' ','7'] ++ ['m','s']) := carries
    revert delays
    decide

end Ncfcc.Utils.RocketfuelWeightsReader
