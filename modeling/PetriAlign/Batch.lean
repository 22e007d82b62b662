import PetriAlign.Dot.Drawing
import PetriAlign.EventLog.Xes
import PetriAlign.FileTree.Change
import PetriAlign.Gzip.Member
import PetriAlign.Json.Records
import PetriAlign.Pnml.Reader
import PetriAlign.Pnml.Writer
import PetriAlign.Snapshot.Reader

/-!
# Work on files

Reading models, logs, traces and settings from files, and writing what is made of them. The
products of a log are written trace by trace: either all files of a trace are written or an error
is reported for it, and no trace has to do with another one.
-/

namespace PetriAlign

/-- Opens a file and reads it. -/
def FileTree.readWith {α : Type} (t : FileTree) (path : String)
    (read : Document → Except ParseError α) : Except Error α := do
  let d ← (t.openFile path).mapError .read
  (read d).mapError .parse

namespace Batch

variable (t : FileTree)

def readNet (path : String) : Except Error Net := t.readWith path Pnml.read

/-- Reads a net with a final marking and makes it a model. -/
def readModel (path : String) (config : Config) : Except Error Net := do
  let net ← t.readWith path Pnml.readAccepting
  return net.classify config.silentMarker

def lowerAscii (c : Char) : Char := if 'A' ≤ c ∧ c ≤ 'Z' then Char.ofNat (c.toNat + 32) else c

inductive LogFormat
  | csv
  | xes
  | compressedXes
  deriving DecidableEq, Repr

/-- The format of a log, by the end of its path in whatever case. -/
def LogFormat.ofPath? (path : String) : Option LogFormat :=
  let ends (suffix : String) : Bool := suffix.toList.isSuffixOf (path.toList.map lowerAscii)
  if ends ".csv" then some .csv
  else if ends ".xes.gz" then some .compressedXes
  else if ends ".xes" then some .xes
  else none

def LogFormat.read (format : LogFormat) (d : Document) : Except ParseError (List LabelTrace) :=
  match format with
  | csv => (Csv.read d).mapError .csv
  | xes => Xes.read d
  | compressedXes => Xes.read (Gzip.decompress .file d)

def readLog (path : String) : Except Error (List LabelTrace) :=
  match LogFormat.ofPath? path with
  | some format => t.readWith path format.read
  | none => .error (.parse (.unknownLogFormat path))

def readTrace (path : String) : Except Error SnapshotTrace := do
  SnapshotTrace.read (← (t.openFile path).mapError .read)

def readConfig (path : String) : Except Error Config := t.readWith path Config.read

/-- The files of one trace. -/
structure TraceFiles where
  product : String
  constraint : String
  dot : Option String
  statistics : Statistics
  deriving DecidableEq, Repr

structure TraceOutcome where
  /-- The position of the trace in the log. -/
  index : Nat
  result : Except Error TraceFiles

/-- The path of a file in a directory. -/
def join (directory name : String) : String :=
  if directory.toList.getLast? = some '/' then directory ++ name else directory ++ "/" ++ name

/-- Where the files of a trace are written, and the size of its product. -/
def traceFiles (outDir : String) (config : Config) (index : Nat) (product : SyncProduct) :
    TraceFiles :=
  let i := Text.showNat index
  { product := join outDir ("syncmodel-" ++ i ++ ".pnml")
    constraint := join outDir ("invariant-" ++ i ++ ".txt")
    dot := if config.writeDot then some (join outDir ("syncmodel-" ++ i ++ ".dot")) else none
    statistics := product.net.statistics }

/-- The files of a trace with what is written to them, in the order in which they are written. -/
def contents (files : TraceFiles) (config : Config) (product : SyncProduct) :
    List (String × Bytes) :=
  [(files.product, Utf8.encode (Pnml.write product.net)),
    (files.constraint, Utf8.encode (product.constraint.render config.constraint))] ++
    (files.dot.map fun path ↦ (path, Utf8.encode (product.net.dot none))).toList

/-- Writes the files of the trace with number `index`. -/
def writeTrace (model : Net) (outDir : String) (config : Config) (t : FileTree)
    (trace : LabelTrace × Nat) : TraceOutcome × FileTree :=
  let product := model.product trace.1
  let files := traceFiles outDir config trace.2 product
  let (result, t) := t.writeAll (contents files config product)
  (⟨trace.2, (result.mapError .read).map fun _ ↦ files⟩, t)

/-- Writes the files of numbered traces, one trace after the other. -/
def writeTraces (model : Net) (outDir : String) (config : Config) :
    List (LabelTrace × Nat) → FileTree → List TraceOutcome × FileTree
  | [], t => ([], t)
  | trace :: rest, t =>
    let (outcome, t) := writeTrace model outDir config t trace
    let (outcomes, t) := writeTraces model outDir config rest t
    (outcome :: outcomes, t)

/-- Writes the products of a model and all traces of a log. Nothing is written if the directory
is not there or one of the two cannot be read. -/
def buildProducts (model log outDir : String) (config : Config) :
    Except Error (List TraceOutcome) × FileTree :=
  if !t.isDirectory outDir then
    (.error (.usage ("directory doesn't exist '" ++ outDir ++ "'")), t)
  else
    let inputs := do
      let net ← readModel t model config
      let traces ← readLog t log
      return (net, traces)
    match inputs with
    | .error e => (.error e, t)
    | .ok (net, traces) =>
      let (outcomes, t) := writeTraces net outDir config traces.zipIdx t
      (.ok outcomes, t)

/-- Replays a trace on a product, both from files. The net is returned as well. -/
def replay (product trace : String) (config : Config) : Except Error (Net × ReplayOutcome) := do
  let net ← readNet t product
  let trace ← readTrace t trace
  let outcome ← (net.replay trace config.replayMode).mapError .replay
  return (net, outcome)

def inspect (model : String) : Except Error Statistics :=
  (readNet t model).map Net.statistics

/-- Writes a net to a file. -/
def saveNet (net : Net) (path : String) : Except Error FileTree :=
  (t.replaceFile path (Utf8.encode (Pnml.write net))).mapError .read

/-- A net with a log place is a product, and any other net is made a model. -/
def asModel (net : Net) (config : Config) : Net :=
  if net.places.any (·.kind = .log) then net else net.classify config.silentMarker

/-- Writes the drawing of the state graph of a net. -/
def writeStateGraph (model out : String) (config : Config) :
    Except Error (StateGraph × FileTree) := do
  let net ← readNet t model
  let graph := (asModel net config).stateGraph config.stateLimit
  let t ← (t.replaceFile out (Utf8.encode graph.dot)).mapError .read
  return (graph, t)

end Batch

end PetriAlign
