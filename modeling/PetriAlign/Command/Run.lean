import PetriAlign.Batch
import PetriAlign.Command.Basic

/-!
# Running commands

A run takes the files as they are and gives the files afterwards, what is printed, and an exit
code: 0, or 1 with the causes of the failure, or 2 for arguments that name no command.
-/

namespace PetriAlign

/-- What was attempted, and the causes why it failed, the innermost last. -/
structure Failure where
  attempt : String
  causes : List String
  deriving DecidableEq, Repr

namespace Failure

/-- A text whose further lines are set in. -/
def indented (margin text : String) : String :=
  ("\n" ++ margin).intercalate ((Text.pieces '\n' text.toList).map .ofList)

/-- A number, set to the right in five columns. -/
def column (n : Nat) : String :=
  let digits := Text.decimal n
  .ofList (List.replicate (5 - digits.length) ' ' ++ digits)

/-- A single cause stands alone; several are numbered from zero. -/
def causeLines : List String → List String
  | [cause] => ["    " ++ indented "    " cause]
  | causes => causes.zipIdx.map fun (cause, i) ↦ column i ++ ": " ++ indented "       " cause

def text (f : Failure) : String :=
  let causes := if f.causes.isEmpty then [] else "" :: "Caused by:" :: causeLines f.causes
  "\n".intercalate (("Error: " ++ f.attempt) :: causes) ++ "\n"

def of (attempt : String) (e : Error) : Failure := ⟨attempt, e.causes⟩

end Failure

/-- What a run leaves behind. -/
structure Report where
  code : UInt32
  output : String
  errors : String
  files : FileTree

namespace Command

/-- How far a command came: what it printed, its failure if there was one, and the files. -/
structure Finished where
  output : String := ""
  failure : Option Failure := none
  files : FileTree

def Finished.failed (files : FileTree) (f : Failure) : Finished :=
  { failure := some f, files := files }

def runBuildProduct (t : FileTree) (config : Config) (model log outDir : String) : Finished :=
  match Batch.buildProducts t model log outDir config with
  | (.error e, t) => .failed t (.of ("failed to build products for " ++ model) e)
  | (.ok outcomes, t) =>
    match (outcomes.filter (!·.result.isOk)).length with
    | 0 => { files := t }
    | n => .failed t ⟨Text.showNat n ++ " traces failed", []⟩

/-- Writes the drawing of a replayed net. Pictures need a renderer, which is not there. -/
def writeDrawing (t : FileTree) (net : Net) (fired : FiredCounts) (path : String) :
    Except ReadFault FileTree :=
  if (Path.ofText path).extension? = some "svg" then .error .notFound
  else t.writeFile path (Utf8.encode (net.dot (some fired)))

def runReplay (t : FileTree) (config : Config) (product trace : String) (dot : Option String)
    (json : Bool) : Finished :=
  match Batch.replay t product trace config with
  | .error e => .failed t (.of ("failed to replay " ++ trace) e)
  | .ok (net, outcome) =>
    let output :=
      if json then (Alignment.toJson outcome.alignment).indentedText ++ "\n"
      else Alignment.text outcome.alignment
    match dot with
    | none => { output := output, files := t }
    | some path =>
      match writeDrawing t net outcome.fired path with
      | .ok t => { output := output, files := t }
      | .error fault =>
        { output := output, failure := some ⟨"failed to write " ++ path, [fault.message]⟩
          files := t }

def runInspect (t : FileTree) (model : String) : Finished :=
  match Batch.inspect t model with
  | .error e => .failed t (.of ("failed to read " ++ model) e)
  | .ok statistics => { output := statistics.text ++ "\n", files := t }

def runStateGraph (t : FileTree) (config : Config) (model out : String) : Finished :=
  match Batch.writeStateGraph t model out config with
  | .error e => .failed t (.of ("failed to write marking graph of " ++ model) e)
  | .ok (_, t) => { files := t }

/-- Runs a command; its options go over the settings. -/
def run (t : FileTree) (config : Config) : Command → Finished
  | .buildProduct model log outDir dot sequential =>
    let config :=
      { config with
        writeDot := config.writeDot || dot, parallel := config.parallel && !sequential }
    runBuildProduct t config model log outDir
  | .replay product trace legacy dot json =>
    let config := if legacy then { config with replayMode := .signature } else config
    runReplay t config product trace dot json
  | .inspect model => runInspect t model
  | .stateGraph model out limit =>
    runStateGraph t { config with stateLimit := limit.getD config.stateLimit } model out

end Command

namespace Invocation

def readConfig (t : FileTree) (path : Option String) : Except Failure Config :=
  match path with
  | none => .ok {}
  | some path => (Batch.readConfig t path).mapError (.of ("failed to read config " ++ path))

def run (t : FileTree) (i : Invocation) : Report :=
  let finished : Command.Finished := match readConfig t i.config with
    | .error f => .failed t f
    | .ok config => i.command.run t config
  match finished.failure with
  | none => ⟨0, finished.output, "", finished.files⟩
  | some f => ⟨1, finished.output, f.text, finished.files⟩

/-- How the program is called. -/
def usage : String :=
  "\n".intercalate
    ["Usage: petri-align [-v] [-c FILE] COMMAND", "", "Commands:",
      "  build-product MODEL LOG OUTDIR [--dot] [--sequential]",
      "  replay PRODUCT TRACE [--legacy] [--dot FILE] [--json]", "  inspect MODEL",
      "  marking-graph MODEL OUT [--limit N]", ""]

/-- Runs the program on its arguments. -/
def runArguments (t : FileTree) (arguments : List String) : Report :=
  match ofArguments arguments with
  | .ok i => i.run t
  | .error .help => ⟨0, usage, "", t⟩
  | .error .invalid => ⟨2, "", usage, t⟩

end Invocation

end PetriAlign
