import Ncfcc.Library.Duplicates
import Ncfcc.Utils.Topology.AnnotatedTopologyReader

/-! The reader of Rocketfuel's weights and latencies. The first file makes the links, a further one sets
attributes of the links there are, one line after the other. -/
namespace Ncfcc.Utils
open Ncfcc.Library AnnotatedTopologyReader

namespace RocketfuelWeightsReader

/-- A file of positions is read by the annotated reader. -/
inductive InputType where
  | links
  | weights
  | latencies
  deriving DecidableEq

end RocketfuelWeightsReader

/-- The names are those of the nodes under the path of the reader. -/
structure RocketfuelWeightsReader where
  inputType : RocketfuelWeightsReader.InputType
  defaultBandwidth : List Char
  queue : List Char
  nodes : List (List Char)
  linksList : List Link

def linkLines (lines : List (List Char)) : List (List Char) := lines.filter fun line => !(line.isEmpty || isComment line)

def lineEnds (line : List Char) : List Char × List Char := ((words line).getD 0 [],(words line).getD 1 [])

def linkEnds (link : Link) : List Char × List Char := (link.fromName,link.toName)

namespace RocketfuelWeightsReader

-- names, and pairs of names, are compared character by character
local instance lawfulName : LawfulBEq (List Char) := inferInstance
local instance lawfulEnds : LawfulBEq (List Char × List Char) := inferInstance

/-- The nodes are created where they are not found. -/
def createNode (nodes : List (List Char)) (name : List Char) : List (List Char) := if name ∈ nodes then nodes else nodes ++ [name]

def newLink (ends : List Char × List Char) : Link := ⟨ends.1,ends.2,none,none,none,none,none⟩

/-- The third word, or one where it is missing. -/
def attributeOf (line : List Char) : List Char :=
  let word := (words line).getD 2 []
  if word.isEmpty then ['1'] else word

section
variable (lexicalCast : List Char → Option UInt16)

/-- None stands for the exception of a weight that is no number. -/
def setAttributes (reader : RocketfuelWeightsReader) (line : List Char) (link : Link) : Option Link :=
  match reader.inputType with
  | .links => some link
  | .weights => (lexicalCast (attributeOf line)).map fun metric => {link with ospf := some (Nat.toDigits 10 metric.toNat)}
  | .latencies => some {link with
      dataRate := some reader.defaultBandwidth
      delay := some (attributeOf line ++ ['m','s'])
      maxPackets := if reader.queue.isEmpty then link.maxPackets else some reader.queue}

/-- The variables of the loop: `before` are the links before `linkIterator`. -/
structure Progress where
  processedLinks : List (List Char × List Char)
  nodes : List (List Char)
  before : List Link
  linkIterator : List Link

/-- None also stands for the assertion that there is a link left. -/
def readLine (reader : RocketfuelWeightsReader) (repeatedRun : Bool) (progress : Progress) (line : List Char) : Option Progress :=
  if line.isEmpty || isComment line then some progress
  else if (lineEnds line).swap ∈ progress.processedLinks then some progress
  else
    let processedLinks := lineEnds line :: progress.processedLinks
    let nodes := createNode (createNode progress.nodes (lineEnds line).1) (lineEnds line).2
    if repeatedRun then
      match progress.linkIterator with
      | [] => none
      | link :: rest => (setAttributes lexicalCast reader line link).map fun link =>
          ⟨processedLinks,nodes,progress.before ++ [link],rest⟩
    else (setAttributes lexicalCast reader line (newLink (lineEnds line))).map fun link =>
      ⟨processedLinks,nodes,progress.before ++ [link],progress.linkIterator⟩

def read (reader : RocketfuelWeightsReader) (text : List Char) : Option RocketfuelWeightsReader :=
  let repeatedRun := !reader.linksList.isEmpty
  let start : Progress := if repeatedRun then ⟨[],reader.nodes,[],reader.linksList⟩ else ⟨[],reader.nodes,reader.linksList,[]⟩
  ((lines text).foldlM (readLine lexicalCast reader repeatedRun) start).map fun progress =>
    {reader with nodes := progress.nodes, linksList := progress.before ++ progress.linkIterator}

def readFiles (reader : RocketfuelWeightsReader) (files : List (InputType × List Char)) : Option RocketfuelWeightsReader :=
  files.foldlM (fun reader (inputType,text) => read lexicalCast {reader with inputType} text) reader

end

section
variable {lexicalCast : List Char → Option UInt16} {reader result : RocketfuelWeightsReader} {line : List Char} {link after : Link}

theorem setAttributes_ends (set : setAttributes lexicalCast reader line link = some after) : linkEnds after = linkEnds link := by
  unfold setAttributes at set
  split at set
  · cases set
    rfl
  · obtain ⟨metric,-,rfl⟩ := Option.map_eq_some_iff.mp set
    rfl
  · cases set
    rfl

def setLines (lexicalCast : List Char → Option UInt16) (reader : RocketfuelWeightsReader) :
    List (List Char) → List Link → Option (List Link)
  | [], links => some links
  | _ :: _, [] => none
  | line :: lines, link :: links =>
    (setAttributes lexicalCast reader line link).bind fun after => (setLines lexicalCast reader lines links).map (after :: ·)

theorem setLines_getElem {kept : List (List Char)} {links set : List Link} (whole : setLines lexicalCast reader kept links = some set)
    {i : Nat} (here : kept[i]? = some line) :
    ∃ link after, links[i]? = some link ∧ set[i]? = some after ∧ setAttributes lexicalCast reader line link = some after := by
  induction kept generalizing links set i with
  | nil => cases here
  | cons first kept ih =>
    cases links with
    | nil => cases whole
    | cons link links =>
      obtain ⟨after,one,rest⟩ := Option.bind_eq_some_iff.mp whole
      obtain ⟨others,others_eq,rfl⟩ := Option.map_eq_some_iff.mp rest
      cases i with
      | zero =>
        cases here
        exact ⟨link,after,rfl,rfl,one⟩
      | succ i => exact ih others_eq here

theorem setLines_length {kept : List (List Char)} {links set : List Link} (whole : setLines lexicalCast reader kept links = some set) :
    set.length = links.length := by
  induction kept generalizing links set with
  | nil =>
    cases whole
    rfl
  | cons first kept ih =>
    cases links with
    | nil => cases whole
    | cons link links =>
      obtain ⟨after,-,rest⟩ := Option.bind_eq_some_iff.mp whole
      obtain ⟨others,others_eq,rfl⟩ := Option.map_eq_some_iff.mp rest
      rw [List.length_cons,List.length_cons,ih others_eq]

/-- The first file makes the links of the lines that are no duplicates. -/
theorem foldlM_readLine_new (lexicalCast : List Char → Option UInt16) (reader : RocketfuelWeightsReader) (lines : List (List Char)) (progress : Progress) :
    ((lines.foldlM (readLine lexicalCast reader false) progress).map fun progress => progress.before ++ progress.linkIterator) =
      ((unprocessed lineEnds progress.processedLinks (linkLines lines)).mapM fun line =>
        setAttributes lexicalCast reader line (newLink (lineEnds line))).map fun created =>
          progress.before ++ (created ++ progress.linkIterator) := by
  induction lines generalizing progress with
  | nil => rfl
  | cons line lines ih =>
    rw [List.foldlM_cons,readLine,linkLines,List.filter_cons]
    by_cases skipped : (line.isEmpty || isComment line) = true
    · simp only [skipped,↓reduceIte,Bool.not_true,Bool.false_eq_true]
      exact ih progress
    · simp only [skipped,↓reduceIte,Bool.not_false,Bool.false_eq_true,unprocessed]
      by_cases duplicate : (lineEnds line).swap ∈ progress.processedLinks
      · simp only [duplicate,↓reduceIte]
        exact ih progress
      · simp only [duplicate,↓reduceIte,List.mapM_cons]
        cases setAttributes lexicalCast reader line (newLink (lineEnds line)) with
        | none => rfl
        | some link =>
          refine (ih _).trans ?_
          rw [linkLines]
          dsimp only
          cases (unprocessed lineEnds (lineEnds line :: progress.processedLinks)
            (lines.filter fun line => !(line.isEmpty || isComment line))).mapM
              fun line => setAttributes lexicalCast reader line (newLink (lineEnds line)) with
          | none => rfl
          | some created => exact congrArg some (by simp)

/-- A further file sets what the lines that are no duplicates say. -/
theorem foldlM_readLine_repeated (lexicalCast : List Char → Option UInt16) (reader : RocketfuelWeightsReader) (lines : List (List Char)) (progress : Progress) :
    ((lines.foldlM (readLine lexicalCast reader true) progress).map fun progress => progress.before ++ progress.linkIterator) =
      (setLines lexicalCast reader (unprocessed lineEnds progress.processedLinks (linkLines lines)) progress.linkIterator).map
        fun set => progress.before ++ set := by
  induction lines generalizing progress with
  | nil => rfl
  | cons line lines ih =>
    rw [List.foldlM_cons,readLine,linkLines,List.filter_cons]
    by_cases skipped : (line.isEmpty || isComment line) = true
    · simp only [skipped,↓reduceIte,Bool.not_true,Bool.false_eq_true]
      exact ih progress
    · simp only [skipped,↓reduceIte,Bool.not_false,Bool.false_eq_true,unprocessed]
      by_cases duplicate : (lineEnds line).swap ∈ progress.processedLinks
      · simp only [duplicate,↓reduceIte]
        exact ih progress
      · simp only [duplicate,↓reduceIte]
        cases progress.linkIterator with
        | nil => rfl
        | cons link rest =>
          rw [setLines]
          dsimp only
          cases setAttributes lexicalCast reader line link with
          | none => rfl
          | some after =>
            refine (ih _).trans ?_
            rw [linkLines]
            dsimp only
            cases setLines lexicalCast reader (unprocessed lineEnds (lineEnds line :: progress.processedLinks)
              (lines.filter fun line => !(line.isEmpty || isComment line))) rest with
            | none => rfl
            | some set => exact congrArg some (by simp)

theorem read_new (lexicalCast : List Char → Option UInt16) (empty : reader.linksList = []) (text : List Char) :
    ((read lexicalCast reader text).map linksList) = (unprocessed lineEnds [] (linkLines (lines text))).mapM fun line =>
      setAttributes lexicalCast reader line (newLink (lineEnds line)) := by
  have created := foldlM_readLine_new lexicalCast reader (lines text) ⟨[],reader.nodes,[],[]⟩
  rw [read,empty,Option.map_map]
  refine created.trans ?_
  simp

theorem read_repeated (lexicalCast : List Char → Option UInt16) (nonempty : reader.linksList ≠ []) (text : List Char) :
    ((read lexicalCast reader text).map linksList) =
      setLines lexicalCast reader (unprocessed lineEnds [] (linkLines (lines text))) reader.linksList := by
  have set := foldlM_readLine_repeated lexicalCast reader (lines text) ⟨[],reader.nodes,[],reader.linksList⟩
  rw [read,List.isEmpty_eq_false_iff.mpr nonempty,Option.map_map]
  refine set.trans ?_
  simp

end

end RocketfuelWeightsReader

end Ncfcc.Utils
