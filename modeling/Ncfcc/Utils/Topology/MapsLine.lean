import Ncfcc.Library.CString
import Ncfcc.Library.MatchOffsets
import Ncfcc.Utils.Topology.RocketfuelMapReader

/-! The lines of a Rocketfuel map: `uid @loc [+] [bb] (num_neigh) [&ext] -> <nuid-1> <nuid-2> ...
{-euid} ... =name[!] rn`. The fields of a line are cut out of it where groups matched, and the
neighbours are cut out of their field. -/
namespace Ncfcc.Utils.Rocketfuel
open Ncfcc.Library

/-! The grammar. -/

abbrev Text (allowed : Char → Bool) := {text : List Char // ∀ c ∈ text, allowed c = true}

abbrev NonemptyText (allowed : Char → Bool) := {text : List Char // text ≠ [] ∧ ∀ c ∈ text, allowed c = true}

def isBlank (c : Char) : Bool := c = ' ' || c = '\t'

def isLocation (c : Char) : Bool := c.isAlphanum || c = '?' || c = ',' || c = '+'

def isNeighbour (c : Char) : Bool := c.isDigit || c = ' ' || c = '\t' || c = '<' || c = '>'

/-- A backslash is a character of its own in a bracket expression. -/
def isExtern (c : Char) : Bool := c.isDigit || c = '\\' || c = '{' || c = '}' || c = ' ' || c = '\t' || c = '-'

def isName (c : Char) : Bool := c.isAlphanum || c = '.' || c = '!' || c = '-'

/-- A line that matches. Neighbours and externs are repetitions of a group whose longest match is all of them;
other repeated groups match one after the other. -/
structure MatchedLine where
  dashes : Nat
  uid : NonemptyText Char.isDigit
  afterUid : NonemptyText isBlank
  loc : NonemptyText isLocation
  afterLoc : NonemptyText isBlank
  pluses : Nat
  afterPluses : Text isBlank
  bbs : Nat
  afterBbs : Text isBlank
  numNeigh : NonemptyText Char.isDigit
  afterNumNeigh : NonemptyText isBlank
  exts : List (NonemptyText Char.isDigit)
  afterExts : Text isBlank
  afterArrow : Text isBlank
  neighbours : Option (NonemptyText isNeighbour)
  afterNeighbours : Text isBlank
  externs : Option (NonemptyText isExtern)
  afterExterns : NonemptyText isBlank
  name : NonemptyText isName
  afterName : NonemptyText isBlank
  radius : {c : Char // c.isDigit = true}
  afterRadius : Text isBlank

namespace MatchedLine
variable (line : MatchedLine)

def uidText : List Char := List.replicate line.dashes '-' ++ line.uid.val

/-- What stands between the outermost angle brackets, with these. -/
def neighbourText : Option (List Char) := line.neighbours.map fun inner => '<' :: inner.val ++ ['>']

def externText : Option (List Char) := line.externs.map fun inner => '{' :: '-' :: inner.val ++ ['}']

def front : Pieces :=
  [(some 1,line.uidText),(none,line.afterUid.val),(some 2,'@' :: line.loc.val),(none,line.afterLoc.val)] ++
    List.replicate line.pluses (some 3,['+']) ++ [(none,line.afterPluses.val)] ++ List.replicate line.bbs (some 4,['b','b']) ++
    [(none,line.afterBbs.val ++ ['(']),(some 5,line.numNeigh.val),(none,')' :: line.afterNumNeigh.val)] ++
    line.exts.map (fun ext => (some 6,'&' :: ext.val)) ++ [(none,line.afterExts.val)]

def arrow : Pieces := [(none,['-','>'] ++ line.afterArrow.val)]

def back : Pieces :=
  [(none,line.afterNeighbours.val)] ++ line.externText.toList.map (some 8,·) ++ [(none,line.afterExterns.val ++ ['=']),
    (some 9,line.name.val),(none,line.afterName.val ++ ['r']),(some 10,[line.radius.val]),(none,line.afterRadius.val)]

def pieces : Pieces := line.front ++ line.arrow ++ line.neighbourText.toList.map (some 7,·) ++ line.back

/-- The offsets of a group, which `regexec` reports. -/
def regmatch (group : Nat) : Option (Nat × Nat) := line.pieces.offsets group 0

/-- The groups that `Read` looks at. -/
def groups : List Nat := List.range' 1 15

def cut : Option Buffer :=
  groups.foldlM (fun buffer i =>
    match line.regmatch i with
    | none => some buffer
    | some offset => buffer.write offset.2 terminator) (line.pieces.text ++ [terminator])

def argv (i : Nat) : Option Nat := (line.regmatch (i + 1)).map Prod.fst

end MatchedLine

/-! The fields. -/

/-- The loop over the neighbours. Each loses its first and its last character; the last one of an empty
field is the character in front of it. -/
def splitNeighbours : (fields : Nat) → Buffer → Nat → List String → Option (Buffer × List String)
  | 0, _, _, _ => none
  | fields + 1, buffer, nbr, neighList =>
    (buffer.strsep isBlank nbr).bind fun (separated,stringp) =>
      (separated.cString nbr).bind fun field =>
        match nbr + field.length with
        | 0 => none
        | last + 1 =>
          (separated.write last terminator).bind fun shortened =>
            (shortened.cString (nbr + 1)).bind fun nuid =>
              match stringp with
              | none => some (shortened,neighList ++ [String.ofList nuid])
              | some next => splitNeighbours fields shortened next (neighList ++ [String.ofList nuid])

/-- The neighbours, of which there are none if their group did not match. -/
def readNeighbours (argument : Option Nat) (buffer : Buffer) : Option (Buffer × List String) :=
  match argument with
  | none => some (buffer,[])
  | some neighbours => splitNeighbours buffer.length buffer neighbours []

/-- What `GenerateFromMapsFile` takes from a line. The location, the number of neighbours and the name are
read for the log or for nothing. -/
def fields (argv : Nat → Option Nat) (buffer : Buffer) : Option MapLine :=
  ((argv 0).bind buffer.cString).bind fun uid =>
    ((argv 1).bind buffer.cString).bind fun _ =>
      ((argv 4).bind buffer.cString).bind fun _ =>
        (readNeighbours (argv 6) buffer).bind fun (buffer,neighList) =>
          (match argv 8 with
            | none => some []
            | some name => buffer.cString name).bind fun _ =>
            ((argv 9).bind fun radius => buffer.cString (radius + 1)).map fun radius =>
              ⟨String.ofList uid,neighList,atoi radius⟩

/-- One round of the loop in `Read`; nothing where it is undefined. -/
def readLine (allocator : Allocator) (reading : Reading) (line : MatchedLine) : Option Reading :=
  (line.cut.bind (fields line.argv)).map (generateFromMapsFile allocator reading)

end Ncfcc.Utils.Rocketfuel
