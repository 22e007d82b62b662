import PetriAlign.Error
import PetriAlign.Snapshot.Basic
import PetriAlign.Text.Blank
import PetriAlign.Text.Search

/-!
# The text of snapshot traces

A line with the word `action` begins a step, and a line with the word `place` adds a count to the
step at hand; all other lines are passed over. Counts before the first action are those of the
initial step, which is always there.
-/

namespace PetriAlign.SnapshotTrace

/-- What a line says. -/
inductive Line
  | action (kind : TransitionKind)
  | record (place : String) (count : UInt64)
  | other
  deriving DecidableEq, Repr

/-- The kind that an action line names. If there are several, the last one in the order of
`TransitionKind.all` counts. -/
def lineKind? (line : List Char) : Option TransitionKind :=
  (TransitionKind.all.filter fun kind ↦ Text.occurs kind.tag.toList line).getLast?

/-- A place line ends in the place, any word, and the count. What follows a colon in the word of
the place does not belong to its id. -/
def readRecord (line : List Char) : Except LineFault Line :=
  match (Text.words line).reverse with
  | count :: _ :: place :: _ =>
    match Text.readCount? count with
    | some n => .ok (.record (.ofList (place.takeWhile (· ≠ ':'))) n)
    | none => .error (.badCount (.ofList count))
  | _ => .error (.shortRecord (.ofList line))

def readLine (line : List Char) : Except LineFault Line :=
  if Text.occurs "action".toList line then
    match lineKind? line with
    | some kind => .ok (.action kind)
    | none => .error (.noKind (.ofList line))
  else if Text.occurs "place".toList line then readRecord line
  else .ok .other

/-- The reader between two lines. The finished steps and the records of the step at hand are
reversed. -/
structure Draft where
  finished : List Step := []
  kind : StepKind := .initial
  records : List (String × UInt64) := []
  deriving DecidableEq, Repr

namespace Draft

/-- The step at hand. -/
def current (d : Draft) : Step := ⟨d.kind, d.records.reverse⟩

def push (d : Draft) : Line → Draft
  | .action kind => ⟨d.current :: d.finished, .move kind, []⟩
  | .record place count => { d with records := (place, count) :: d.records }
  | .other => d

def trace (d : Draft) : SnapshotTrace := ⟨(d.current :: d.finished).reverse⟩

end Draft

/-- Reads on from line `number`. -/
def readLines (number : Nat) (d : Draft) : List (List Char) → Except ParseError SnapshotTrace
  | [] => .ok d.trace
  | line :: rest =>
    match readLine line with
    | .error fault => .error (.line number fault)
    | .ok said => readLines (number + 1) (d.push said) rest

/-- Reads a text; lines are numbered from one. -/
def ofText (text : String) : Except ParseError SnapshotTrace :=
  readLines 1 {} (Text.lines text.toList)

/-- Reads on from line `number`, one line of bytes at a time. -/
def readByteLines (fault : Option ReadFault) (number : Nat) (d : Draft) :
    List Bytes → Except Error SnapshotTrace
  | [] =>
    match fault with
    | some f => .error (.read f)
    | none => .ok d.trace
  | bytes :: rest =>
    match Utf8.decodeChars bytes with
    | .error _ => .error (.read .notUtf8)
    | .ok line =>
      match readLine line with
      | .error fault => .error (.parse (.line number fault))
      | .ok said => readByteLines fault (number + 1) (d.push said) rest

/-- Reads a file. A line that is not UTF-8 is a fault once the reader comes to it. -/
def read (d : Document) : Except Error SnapshotTrace :=
  readByteLines d.fault 1 {} (Text.byteLines d.bytes)

end PetriAlign.SnapshotTrace
