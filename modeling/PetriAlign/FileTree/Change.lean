import PetriAlign.FileTree.Basic

/-!
# Changing files

Files are written in place, or replaced in one step after their content was staged beside them, so
a failure leaves no half-written file. Directories are made with those that they lie in.
-/

namespace PetriAlign.FileTree

variable (t : FileTree)

/-! ## Writing in place -/

/-- Where a path lets a file be written. -/
def writeTarget (path : String) : Except ReadFault Location := do
  match ← t.target (← Path.read path) with
  | .named l name false =>
    if (← t.find l name) = some .directory then throw .isDirectory
    return l.child name
  | _ => throw .isDirectory

def writeFile (path : String) (content : Bytes) : Except ReadFault FileTree :=
  (t.writeTarget path).map fun l ↦ t.put l (.file content)

/-! ## Replacing -/

/-- A file that is fully written beside the place that it is for. -/
structure Staged where
  path : String
  content : Bytes
  deriving DecidableEq, Repr

/-- Stages a file, for which its directory has to be there. -/
def stage (path : String) (content : Bytes) : Except ReadFault Staged :=
  (t.directoryAt (Path.ofText path).parent).map fun _ ↦ ⟨path, content⟩

/-- Where a path lets a staged file be moved. -/
def moveTarget (path : String) : Except ReadFault Location := do
  if Path.hasNul path then throw .invalidPath
  match ← t.target (← Path.read path) with
  | .present _ => throw .busy
  | .named l name closed =>
    let standing ← t.find l name
    if closed then throw .notDirectory
    if standing = some .directory then throw .isDirectory
    return l.child name

/-- Removes a file. -/
def remove (l : Location) : FileTree :=
  match t.entry? l with
  | some (.file _) => t.erase l.key
  | _ => t

/-- Moves staged files to where their paths lead, in order. If one cannot be moved, those moved
before it, which are in `done`, are removed, and what stood in their places is not brought back. -/
def persistAll (t : FileTree) (done : List Location) :
    List Staged → Except ReadFault Unit × FileTree
  | [] => (.ok (), t)
  | s :: rest =>
    match t.moveTarget s.path with
    | .ok l => persistAll (t.put l (.file s.content)) (done ++ [l]) rest
    | .error fault => (.error fault, done.foldl remove t)

/-- Replaces a group of files, each given by its path and its content. -/
def writeAll (files : List (String × Bytes)) : Except ReadFault Unit × FileTree :=
  match files.mapM fun file ↦ t.stage file.1 file.2 with
  | .error fault => (.error fault, t)
  | .ok staged => t.persistAll [] staged

/-- Replaces one file. -/
def replaceFile (path : String) (content : Bytes) : Except ReadFault FileTree := do
  let s ← t.stage path content
  return t.put (← t.moveTarget s.path) (.file s.content)

/-! ## Directories -/

/-- Makes a directory, for which the one that it lies in has to be there. -/
def makeDirectory (p : Path) : Except ReadFault FileTree := do
  match ← t.target p with
  | .present _ => throw .alreadyExists
  | .named l name _ =>
    if (← t.find l name).isSome then throw .alreadyExists
    return t.put (l.child name) .directory

/-- Makes a directory where none may be yet. If what it lies in is missing, that is made with
`makeAbove`, whose changes stay. -/
def ensureDirectory (p : Path) (makeAbove : FileTree → Except ReadFault Unit × FileTree) :
    Except ReadFault Unit × FileTree :=
  let attempt (t : FileTree) : Except ReadFault Unit × FileTree :=
    match t.makeDirectory p with
    | .ok t' => (.ok (), t')
    | .error fault => (if (t.directoryAt p).isOk then .ok () else .error fault, t)
  match attempt t with
  | (.error .notFound, t) =>
    match makeAbove t with
    | (.ok (), t) => attempt t
    | failed => failed
  | result => result

/-- Makes the directories along some names, the last one first, that are missing. -/
def ensureAlong (rooted : Bool) :
    List String → FileTree → Except ReadFault Unit × FileTree
  | [], t => (.ok (), t)
  | name :: above, t => t.ensureDirectory ⟨rooted, name :: above, false⟩ (ensureAlong rooted above)

/-- Makes the directories on a path that are missing. -/
def makeDirectories (path : String) : Except ReadFault Unit × FileTree :=
  if path = "" then (.ok (), t)
  else
    match Path.read path with
    | .error fault => (.error fault, t)
    | .ok p => t.ensureDirectory p (ensureAlong p.rooted p.parent.names)

end PetriAlign.FileTree
