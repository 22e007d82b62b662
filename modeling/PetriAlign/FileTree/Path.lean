import PetriAlign.Fault
import PetriAlign.Text.Search

/-!
# Paths

A path is read as the names between its slashes. One point names the directory that it stands in,
two points the directory above, and every other name an entry of the directory that it stands in.
-/

namespace PetriAlign

structure Path where
  /-- It starts with a slash. -/
  rooted : Bool
  /-- The names between the slashes, the last one first. No name is empty. -/
  names : List String
  /-- It ends in a slash. -/
  closed : Bool
  deriving DecidableEq, Repr

namespace Path

def ofText (text : String) : Path :=
  let cs := text.toList
  let names := ((Text.pieces '/' cs).filter (!·.isEmpty)).map String.ofList
  { rooted := cs.head? = some '/', names := names.reverse, closed := cs.getLast? = some '/' }

/-- Whether a name stands for a directory by where it stands. -/
def isPoints (name : String) : Bool := name = "." || name = ".."

def hasNul (text : String) : Bool := text.toList.contains '\x00'

/-- Reads a path that something is looked up by. It has less than 4096 bytes, and no zero among
them. -/
def read (text : String) : Except ReadFault Path :=
  if hasNul text then .error .nulInPath
  else if text = "" then .error .notFound
  else if 4096 ≤ text.utf8ByteSize then .error .nameTooLong
  else .ok (ofText text)

/-- The names that lead elsewhere, the last one first. -/
def steps (p : Path) : List String := p.names.filter (· ≠ ".")

/-- The path of what the last step starts from. -/
def parent (p : Path) : Path := { rooted := p.rooted, names := p.steps.tail, closed := false }

/-- The last name that leads elsewhere, if it leads to an entry. -/
def entryName? (p : Path) : Option String := p.steps.head?.filter (· ≠ "..")

/-- The end of the last name, after a point that is not its first character. -/
def extension? (p : Path) : Option String :=
  p.entryName?.bind fun name ↦
    match name.toList.reverse.span (· ≠ '.') with
    | (ending, _ :: _ :: _) => some (.ofList ending.reverse)
    | _ => none

end Path

end PetriAlign
