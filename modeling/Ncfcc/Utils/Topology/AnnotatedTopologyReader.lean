import Ncfcc.Library.TextInput

/-! The annotated topology reader. A file has a section of routers and a section of links; what
was read can be saved as a file again. Positions are doubles and are left out, but for the
text that is printed for them. -/
namespace Ncfcc.Utils.AnnotatedTopologyReader
open Ncfcc.Library

structure Node where
  name : List Char
  systemId : UInt32
  deriving DecidableEq

structure Link where
  fromName : List Char
  toName : List Char
  dataRate : Option (List Char)
  ospf : Option (List Char)
  delay : Option (List Char)
  maxPackets : Option (List Char)
  lossRate : Option (List Char)
  deriving DecidableEq

structure Topology where
  nodes : List Node
  links : List Link
  deriving DecidableEq

def names (nodes : List Node) : List (List Char) := nodes.map Node.name

/-! Reading. -/

def isComment (line : List Char) : Bool := line.head? = some '#'

def routerSection : List Char := "router".toList

def linkSection : List Char := "link".toList

/-- The lines after the one that starts the routers; none where the file ends before. -/
def seekRouter : List (List Char) → Option (List (List Char))
  | [] => none
  | line :: rest => if line = routerSection then (if rest.isEmpty then none else some rest) else seekRouter rest

def readSystemId (text : List Char) : UInt32 :=
  match extractDouble (text.dropWhile isSpace) with
  | none => 0
  | some text =>
    match extractDouble (text.dropWhile isSpace) with
    | none => 0
    | some text => extractUnsigned (text.dropWhile isSpace)

/-- None for a line without a name. -/
def readNode (line : List Char) : Option Node :=
  let (name,rest) := extractWord line
  let (city,rest) := extractWord rest
  if name.isEmpty then none else some ⟨name,if city.isEmpty then 0 else readSystemId rest⟩

/-- The nodes and the lines of the link section, if there is one. A name cannot be added twice. -/
def readNodes (nodes : List Node) : List (List Char) → Option (List Node × Option (List (List Char)))
  | [] => some (nodes,none)
  | line :: rest =>
    if isComment line then readNodes nodes rest
    else if line = linkSection then some (nodes,if rest.isEmpty then none else some rest)
    else
      match readNode line with
      | none => readNodes nodes rest
      | some node => if node.name ∈ names nodes then none else readNodes (nodes ++ [node]) rest

def setColumn (column : List Char) : Option (List Char) := if column.isEmpty then none else some column

def linkOf (columns : List (List Char)) : Link where
  fromName := columns.getD 0 []
  toName := columns.getD 1 []
  dataRate := some (columns.getD 2 [])
  ospf := some (columns.getD 3 [])
  delay := setColumn (columns.getD 4 [])
  maxPackets := setColumn (columns.getD 5 [])
  lossRate := setColumn (columns.getD 6 [])

/-- A link whose reverse was processed is left out; both ends have to be nodes, which is asserted. -/
def readLinks (known : List (List Char)) (processedLinks : List (List Char × List Char)) (links : List Link) :
    List (List Char) → Option (List Link)
  | [] => some links
  | line :: rest =>
    if line.isEmpty || isComment line then readLinks known processedLinks links rest
    else
      let link := linkOf (words line)
      if (link.toName,link.fromName) ∈ processedLinks then readLinks known processedLinks links rest
      else if link.fromName ∈ known ∧ link.toName ∈ known then
        readLinks known ((link.fromName,link.toName) :: processedLinks) (links ++ [link]) rest
      else none

def requiredPartitions (nodes : List Node) : UInt32 :=
  nodes.foldl (fun required node => max required (node.systemId + 1)) 1

section
variable {PointToPointHelper : Type} (applyLink : PointToPointHelper → Link → Option PointToPointHelper)
  (p2p : PointToPointHelper) (partitions : Option UInt32)

/-- If MPI is enabled, its size is the number of partitions. What a helper makes of a link is
a parameter. -/
def applySettings (topology : Topology) : Bool :=
  partitions.all (fun size => size = requiredPartitions topology.nodes) && (topology.links.foldlM applyLink p2p).isSome

/-- None stands for a fatal error or a failed assertion. -/
def read (text : List Char) : Option Topology :=
  (seekRouter (lines text)).bind fun rest =>
    (readNodes [] rest).bind fun (nodes,section?) =>
      match section? with
      | none => some ⟨nodes,[]⟩
      | some rest => (readLinks (names nodes) [] [] rest).bind fun links =>
          if applySettings applyLink p2p partitions ⟨nodes,links⟩ then some ⟨nodes,links⟩ else none

end

/-! Saving. -/

def savedHeader : List (List Char) :=
  ["# any empty lines and lines starting with '#' symbol is ignored","",
    "# The file should contain exactly two sections: router and link, each starting with the corresponding keyword","",
    "# router section defines topology nodes and their relative positions (e.g., to use in visualizer)"].map String.toList

def savedRouterComments : List (List Char) :=
  ["","# each line in this section represents one router and should have the following data",
    "# node  comment     yPos    xPos"].map String.toList

def savedLinkHeader : List (List Char) :=
  ["# link section defines point-to-point links between nodes and characteristics of these links",""].map String.toList

def savedLinkComments : List (List Char) :=
  ["","# Each line should be in the following format (only first two are required, the rest can be omitted)",
    "# srcNode   dstNode     bandwidth   metric  delay   queue","# bandwidth: link bandwidth",
    "# metric: routing metric","# delay:  link delay",
    "# queue:  MaxPackets for transmission queue on the link (both directions)",
    "# error:  comma-separated list, specifying class for ErrorModel and necessary attributes"].map String.toList

/-- The printed position is the negated y and the x. -/
def nodeLine (node : Node) (position : PrintedDouble × PrintedDouble) : List Char :=
  node.name ++ '\t' :: ['N','A'] ++ '\t' :: position.1.text ++ '\t' :: position.2.text

/-- None for the fatal error of a link without a data rate. -/
def linkLine (link : Link) : Option (List Char) :=
  link.dataRate.map fun dataRate =>
    link.fromName ++ '\t' :: (link.toName ++ '\t' :: (dataRate ++ '\t' :: (link.ospf.getD ['1'] ++ '\t' ::
      (link.delay.elim [] fun delay => delay ++ '\t' ::
        (link.maxPackets.elim [] fun maxPackets => maxPackets ++ '\t' ::
          (link.lossRate.elim [] fun lossRate => lossRate ++ ['\t']))))))

def nodeLines (nodes : List Node) (positions : Nat → PrintedDouble × PrintedDouble) : List (List Char) :=
  nodes.mapIdx fun index node => nodeLine node (positions index)

def savedLines (topology : Topology) (positions : Nat → PrintedDouble × PrintedDouble) : Option (List (List Char)) :=
  (topology.links.mapM linkLine).map fun linkLines =>
    savedHeader ++ routerSection :: (savedRouterComments ++ (nodeLines topology.nodes positions ++
      (savedLinkHeader ++ linkSection :: (savedLinkComments ++ linkLines))))

def saveTopology (topology : Topology) (positions : Nat → PrintedDouble × PrintedDouble) : Option (List Char) :=
  (savedLines topology positions).map fun written => written.flatMap fun line => line ++ ['\n']

end Ncfcc.Utils.AnnotatedTopologyReader
