import PetriAlign.Config
import PetriAlign.Json.Printer
import PetriAlign.Product

/-!
# JSON forms of nets, traces, alignments and settings

Records are written as objects with their fields in order, kinds as tags, pairs as arrays of two
and sets as arrays in order.
-/

namespace PetriAlign

open Json

namespace PlaceKind

def toJson (kind : PlaceKind) : Json := .ofText kind.tag

def ofJson? (j : Json) : Option PlaceKind := j.tag?.bind ofTag?

end PlaceKind

namespace TransitionKind

def toJson (kind : TransitionKind) : Json := .ofText kind.tag

def ofJson? (j : Json) : Option TransitionKind := j.tag?.bind ofTag?

end TransitionKind

namespace ReplayMode

def toJson (mode : ReplayMode) : Json := .ofText mode.tag

def ofJson? (j : Json) : Option ReplayMode := j.tag?.bind ofTag?

end ReplayMode

/-- A count with the id of its place. -/
def countJson (pair : String × UInt64) : Json := .pair (.ofText pair.1) (.ofCount pair.2)

def readCountJson? (j : Json) : Option (String × UInt64) := j.pair? text? count?

namespace Place

def fieldNames : List String := ["id", "name", "initial_marking", "final_marking", "kind"]

def toJson (p : Place) : Json :=
  .record
    [("id", .ofText p.id), ("name", .ofText p.name), ("initial_marking", .ofCount p.initial),
      ("final_marking", .option .ofCount p.final), ("kind", p.kind.toJson)]

def ofJson? (j : Json) : Option Place := do
  let fields ← j.fields? fieldNames
  return {
    id := ← fields.required? 0 text?
    name := ← fields.required? 1 text?
    initial := ← fields.required? 2 count?
    final := ← fields.optional? 3 count?
    kind := ← fields.required? 4 PlaceKind.ofJson? }

end Place

namespace Transition

def fieldNames : List String := ["id", "name", "original_name", "kind"]

def toJson (t : Transition) : Json :=
  .record
    [("id", .ofText t.id), ("name", .ofText t.name), ("original_name", .ofText t.label),
      ("kind", t.kind.toJson)]

def ofJson? (j : Json) : Option Transition := do
  let fields ← j.fields? fieldNames
  return {
    id := ← fields.required? 0 text?
    name := ← fields.required? 1 text?
    label := ← fields.required? 2 text?
    kind := ← fields.required? 3 TransitionKind.ofJson? }

end Transition

namespace Arc

def fieldNames : List String := ["id", "source", "target"]

def toJson (a : Arc) : Json :=
  .record [("id", .ofText a.id), ("source", .ofText a.source), ("target", .ofText a.target)]

def ofJson? (j : Json) : Option Arc := do
  let fields ← j.fields? fieldNames
  return {
    id := ← fields.required? 0 text?
    source := ← fields.required? 1 text?
    target := ← fields.required? 2 text? }

end Arc

namespace Net

def fieldNames : List String :=
  ["id", "name", "places", "transitions", "arcs", "final_marking", "invisible_transitions"]

/-- The fields that are never left out. -/
def members (net : Net) : List (String × Json) :=
  [("id", .ofText net.id), ("name", .ofText net.name),
    ("places", .list Place.toJson net.places),
    ("transitions", .list Transition.toJson net.transitions),
    ("arcs", .list Arc.toJson net.arcs), ("final_marking", .list countJson net.final)]

def toJson (net : Net) : Json :=
  .record (net.members ++ [("invisible_transitions", .list .ofText net.invisible.keys)])

/-- Without a set of invisible transitions there are none. -/
def ofJson? (j : Json) : Option Net := do
  let fields ← j.fields? fieldNames
  return {
    id := ← fields.required? 0 text?
    name := ← fields.required? 1 text?
    places := ← fields.required? 2 (list? Place.ofJson?)
    transitions := ← fields.required? 3 (list? Transition.ofJson?)
    arcs := ← fields.required? 4 (list? Arc.ofJson?)
    final := ← fields.required? 5 (list? readCountJson?)
    invisible := .ofIds (← fields.withDefault? 6 [] (list? text?)) }

end Net

namespace StepKind

def toJson : StepKind → Json
  | initial => .ofText "Initial"
  | move kind => .record [("Move", kind.toJson)]

def ofJson? (j : Json) : Option StepKind :=
  match j.single? with
  | some ("Move", kind) => (TransitionKind.ofJson? kind).map move
  | _ => if j.tag? = some "Initial" then some initial else none

end StepKind

namespace Step

def fieldNames : List String := ["kind", "places"]

def toJson (s : Step) : Json :=
  .record [("kind", s.kind.toJson), ("places", .list countJson s.records)]

def ofJson? (j : Json) : Option Step := do
  let fields ← j.fields? fieldNames
  return {
    kind := ← fields.required? 0 StepKind.ofJson?
    records := ← fields.required? 1 (list? readCountJson?) }

end Step

namespace SnapshotTrace

def toJson (t : SnapshotTrace) : Json := .record [("steps", .list Step.toJson t.steps)]

def ofJson? (j : Json) : Option SnapshotTrace := do
  let fields ← j.fields? ["steps"]
  return ⟨← fields.required? 0 (list? Step.ofJson?)⟩

end SnapshotTrace

namespace Move

def fieldNames : List String := ["log", "model", "transition_id"]

def toJson (m : Move) : Json :=
  .record
    [("log", .ofText m.log), ("model", .ofText m.model), ("transition_id", .ofText m.transition)]

def ofJson? (j : Json) : Option Move := do
  let fields ← j.fields? fieldNames
  return {
    log := ← fields.required? 0 text?
    model := ← fields.required? 1 text?
    transition := ← fields.required? 2 text? }

end Move

namespace Alignment

def toJson (a : Alignment) : Json := .record [("pairs", .list Move.toJson a)]

def ofJson? (j : Json) : Option Alignment := do
  (← j.fields? ["pairs"]).required? 0 (list? Move.ofJson?)

end Alignment

namespace ConstraintStyle

def fieldNames : List String := ["omit_zero_targets", "negate"]

def toJson (s : ConstraintStyle) : Json :=
  .record [("omit_zero_targets", .bool s.omitZero), ("negate", .bool s.negate)]

def ofJson? (j : Json) : Option ConstraintStyle := do
  let fields ← j.fields? fieldNames
  return {
    omitZero := ← fields.withDefault? 0 false flag?
    negate := ← fields.withDefault? 1 false flag? }

end ConstraintStyle

namespace Constraint

def toJson (c : Constraint) : Json := .record [("terms", .list countJson c.terms)]

def ofJson? (j : Json) : Option Constraint := do
  let fields ← j.fields? ["terms"]
  return ⟨← fields.required? 0 (list? readCountJson?)⟩

end Constraint

namespace SyncProduct

def toJson (p : SyncProduct) : Json :=
  .record [("net", p.net.toJson), ("constraint", p.constraint.toJson)]

def ofJson? (j : Json) : Option SyncProduct := do
  let fields ← j.fields? ["net", "constraint"]
  return {
    net := ← fields.required? 0 Net.ofJson?
    constraint := ← fields.required? 1 Constraint.ofJson? }

end SyncProduct

namespace Config

def fieldNames : List String :=
  ["silent_marker", "constraint", "write_dot", "replay_mode", "parallel", "marking_graph_limit"]

def toJson (c : Config) : Json :=
  .record
    [("silent_marker", .ofText c.silentMarker), ("constraint", c.constraint.toJson),
      ("write_dot", .bool c.writeDot), ("replay_mode", c.replayMode.toJson),
      ("parallel", .bool c.parallel), ("marking_graph_limit", .ofNat c.stateLimit)]

/-- Settings that are left out have their defaults. -/
def ofJson? (j : Json) : Option Config := do
  let fields ← j.fields? fieldNames
  let default : Config := {}
  return {
    silentMarker := ← fields.withDefault? 0 default.silentMarker text?
    constraint := ← fields.withDefault? 1 default.constraint ConstraintStyle.ofJson?
    writeDot := ← fields.withDefault? 2 default.writeDot flag?
    replayMode := ← fields.withDefault? 3 default.replayMode ReplayMode.ofJson?
    parallel := ← fields.withDefault? 4 default.parallel flag?
    stateLimit := ← fields.withDefault? 5 default.stateLimit (fun j ↦ j.count?.map (·.toNat)) }

/-- Reads a file of settings. -/
def read (d : Document) : Except ParseError Config := (Json.read ofJson? d).mapError .json

end Config

end PetriAlign
