import PetriAlign.Command.Run

/-!
# The program

Runs a command on real files. What the arguments name is read into a tree of files, the command is
run on that tree, and what it changed is written back.
-/

namespace PetriAlign.Program

/-- Adds the entry at a location, if there is one. The content of a file is read if it is `needed`,
and left empty otherwise. -/
def loadEntry (needed : Bool) (t : FileTree) (l : Location) : IO FileTree := do
  let path := (← IO.currentDir) / l.key
  if ← path.isDir then return t.put l .directory
  else if ← path.pathExists then
    if needed then
      try return t.put l (.file (← IO.FS.readBinFile path).toList)
      catch _ => return t
    else return t.put l (.file [])
  else return t

/-- The locations on a path, the last one first. -/
def locationsOn (path : String) : List Location :=
  let p := Path.ofText path
  let start : List Location := [⟨.ofPath p, []⟩]
  p.names.foldr (fun name ls ↦ (ls.head?.map (·.follow name)).toList ++ ls) start

/-- Adds what lies right in the directory at a path. -/
def loadInside (t : FileTree) (path : String) : IO FileTree := do
  match locationsOn path with
  | [] => return t
  | l :: _ =>
    let directory := (← IO.currentDir) / (l.key ++ "/")
    if ← directory.isDir then
      (← directory.readDir).toList.foldlM (fun t e ↦ loadEntry false t (l.child e.fileName)) t
    else return t

/-- The directory that a command writes several files to, and the paths that it reads or writes
as they are. -/
def pathsOf (i : Invocation) : Option String × List String :=
  let (outDir, paths) : Option String × List String :=
    match i.command with
    | .buildProduct model log outDir _ _ => (some outDir, [model, log, outDir])
    | .replay product trace _ dot _ => (none, [product, trace] ++ dot.toList)
    | .inspect model => (none, [model])
    | .stateGraph model out _ => (none, [model, out])
  (outDir, paths ++ i.config.toList)

def load (i : Invocation) : IO FileTree := do
  let (outDir, paths) := pathsOf i
  let t ← match outDir with
    | some path => loadInside ∅ path
    | none => pure ∅
  ((paths.flatMap locationsOn).filter (·.names ≠ [])).foldlM (loadEntry true) t

/-- Writes a file beside its target and moves it there. -/
def replaceFile (key : String) (content : Bytes) : IO Unit := do
  let directory := (key.toList.reverse.dropWhile (· ≠ '/')).reverse
  let staged := String.ofList directory ++ ".staged"
  IO.FS.writeBinFile staged ⟨content.toArray⟩
  IO.FS.rename staged key

/-- Makes the files what they are in `after`, where they differ from `before`. -/
def store (before after : FileTree) : IO Unit := do
  for (key, _) in before.entries do
    if !after.contains key then IO.FS.removeFile key
  for (key, entry) in after.entries do
    match entry with
    | .file content => if before.get? key ≠ some entry then replaceFile key content
    | .directory => pure ()

end PetriAlign.Program

open PetriAlign in
def main (arguments : List String) : IO UInt32 := do
  let before ← match Invocation.ofArguments arguments with
    | .ok i => Program.load i
    | .error _ => pure ∅
  let report := Invocation.runArguments before arguments
  Program.store before report.files
  (← IO.getStdout).putStr report.output
  (← IO.getStderr).putStr report.errors
  return report.code
