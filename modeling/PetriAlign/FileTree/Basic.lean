import PetriAlign.Document
import PetriAlign.FileTree.Path
import PetriAlign.Table

/-!
# Files and directories

A tree of files as a table of its entries. Paths start from the directory that everything lies in,
or from the root if they begin with a slash. That directory, the ones above it and the root are
there without being entries.
-/

namespace PetriAlign

inductive Entry
  | file (content : Bytes)
  | directory
  deriving DecidableEq, Repr

/-- A directory that is no entry. -/
inductive Start
  | root
  /-- So many levels above the directory that everything lies in. -/
  | above (levels : Nat)
  deriving DecidableEq, Repr

namespace Start

def aboveKey : Nat → String
  | 0 => "."
  | levels + 1 => aboveKey levels ++ "/.."

def key : Start → String
  | root => ""
  | above levels => aboveKey levels

def ofPath (p : Path) : Start := if p.rooted then root else above 0

end Start

/-- A place for an entry, by the names of the directories that it lies in. -/
structure Location where
  start : Start
  /-- The names on the way from the start, the last one first. -/
  names : List String := []
  deriving DecidableEq, Repr

namespace Location

def child (l : Location) (name : String) : Location := { l with names := name :: l.names }

/-- The directory that a location lies in. There is none above the root. -/
def up (l : Location) : Location :=
  match l.names, l.start with
  | _ :: names, _ => { l with names := names }
  | [], .above levels => ⟨.above (levels + 1), []⟩
  | [], .root => l

def follow (l : Location) (name : String) : Location :=
  if name = "." then l else if name = ".." then l.up else l.child name

/-- The names of a location in one text. -/
def key (l : Location) : String := l.names.foldr (fun name above ↦ above ++ "/" ++ name) l.start.key

end Location

/-- The entries by the keys of their locations. -/
abbrev FileTree := Table Entry

namespace FileTree

variable (t : FileTree)

def entry? (l : Location) : Option Entry :=
  if l.names = [] then some .directory else t.get? l.key

def put (l : Location) (e : Entry) : FileTree := t.insert l.key e

/-- Looks a name up in a directory. Names of more than 255 bytes cannot be looked up. -/
def find (l : Location) (name : String) : Except ReadFault (Option Entry) :=
  if 255 < name.utf8ByteSize then .error .nameTooLong else .ok (t.entry? (l.child name))

/-- Follows a name to a directory. -/
def enter (name : String) (l : Location) : Except ReadFault Location := do
  if Path.isPoints name then return l.follow name
  match ← t.find l name with
  | some .directory => return l.child name
  | some (.file _) => throw .notDirectory
  | none => throw .notFound

/-- Follows names, the last one first, to a directory. -/
def enterAll (start : Start) (names : List String) : Except ReadFault Location :=
  names.foldrM t.enter ⟨start, []⟩

/-- The directory that a path leads to. -/
def directoryAt (p : Path) : Except ReadFault Location := t.enterAll (.ofPath p) p.names

def isDirectory (path : String) : Bool := ((Path.read path).bind t.directoryAt).isOk

/-- What a path ends in. -/
inductive Target
  /-- Points, or nothing at all: a directory that is there. -/
  | present (l : Location)
  /-- A name in a directory, maybe with a slash after it. -/
  | named (directory : Location) (name : String) (closed : Bool)
  deriving DecidableEq, Repr

/-- Follows a path up to its last name. -/
def target (p : Path) : Except ReadFault Target :=
  match p.names with
  | [] => .ok (.present ⟨.ofPath p, []⟩)
  | last :: others =>
    (t.enterAll (.ofPath p) others).map fun l ↦
      if Path.isPoints last then .present (l.follow last) else .named l last p.closed

/-- A directory can be opened, but has nothing to read. -/
def openDirectory : Document := { bytes := [], fault := some .isDirectory }

/-- Opens an entry for reading. A slash can only follow a directory. -/
def openFile (path : String) : Except ReadFault Document := do
  match ← t.target (← Path.read path) with
  | .present _ => return openDirectory
  | .named l name closed =>
    match ← t.find l name with
    | some .directory => return openDirectory
    | some (.file content) => if closed then throw .notDirectory else return { bytes := content }
    | none => throw .notFound

/-- A path from inside a directory; directories end in a slash. -/
def listedName? (inside : List Char) (e : String × Entry) : Option String :=
  if inside.isPrefixOf e.1.toList then
    some (.ofList (e.1.toList.drop inside.length) ++ if e.2 = .directory then "/" else "")
  else none

/-- Everything below a directory, in the order of the bytes. -/
def list (path : String) : Except ReadFault (List String) := do
  let l ← t.directoryAt (← Path.read path)
  let inside := (l.key ++ "/").toList
  return (t.entries.filterMap (listedName? inside)).mergeSort fun a b ↦ a ≤ b

end FileTree

end PetriAlign
