import PetriAlign.Error
import PetriAlign.Xml.Attribute

/-!
# XES logs

A log is an element `log` with elements `trace` in it, which hold elements `event`. The label of an
event is the value of its first direct `string` child with the key `concept:name`; an event without
one has no part in its trace. Element names are compared without what stands before a colon. The
reader goes through the events of the document and keeps only the depth, the trace at hand and the
event at hand.
-/

namespace PetriAlign.Xes

open Xml (Event Tag)

/-- The key of the string that labels an event. -/
def labelKey : Bytes := Xml.bytesOf "concept:name"

/-- The name of an element after its first colon. -/
def localName (name : Bytes) : Bytes :=
  match name.dropWhile (· ≠ 0x3A) with
  | [] => name
  | _ :: rest => rest

/-- An event that is open at `depth`. -/
structure OpenEvent where
  depth : Nat
  label : Option String
  deriving DecidableEq, Repr

/-- The reader between two events of the document. Traces and labels are reversed. -/
structure State where
  depth : Nat := 0
  /-- Whether a log was found at the top. -/
  inLog : Bool := false
  trace : Option LabelTrace := none
  event : Option OpenEvent := none
  traces : List LabelTrace := []
  deriving DecidableEq, Repr

/-- The key and the value of a string, each from the last attribute of that name. A value that
stands for no text is an error. -/
def keyAndValue (attributes : List Xml.Attribute) :
    Except ParseError (Option Bytes × Option String) :=
  attributes.foldlM
    (fun (key, value) a ↦
      if a.name = Xml.bytesOf "key" then .ok (some a.raw, value)
      else if a.name = Xml.bytesOf "value" then
        match a.value with
        | .ok text => .ok (key, some text)
        | .error e => .error (.xml e)
      else .ok (key, value))
    (none, none)

/-- The label that a string gives to an event, if it has the key of labels. -/
def label? (tag : Tag) : Except ParseError (Option String) := do
  let (key, value) ← keyAndValue tag.attributes
  if key = some labelKey then
    match value with
    | some text => return some text
    | none => throw (.missingKey "string" "value")
  else return none

namespace State

/-- A string right inside an event that has no label yet may be its label. -/
def openString (s : State) (tag : Tag) (depth : Nat) : Except ParseError State :=
  match s.event with
  | some ⟨eventDepth, none⟩ =>
    if depth = eventDepth + 1 then
      (label? tag).map fun label ↦ { s with event := some ⟨eventDepth, label⟩ }
    else .ok s
  | _ => .ok s

/-- What a start tag does, where `depth` is that of its element. -/
def opened (s : State) (tag : Tag) (depth : Nat) : Except ParseError State :=
  let name := localName tag.name
  if name = Xml.bytesOf "log" ∧ depth = 1 then .ok { s with inLog := true }
  else if name = Xml.bytesOf "trace" ∧ s.inLog ∧ depth = 2 then .ok { s with trace := some [] }
  else if name = Xml.bytesOf "event" ∧ s.trace.isSome ∧ depth = 3 then
    .ok { s with event := some ⟨depth, none⟩ }
  else if name = Xml.bytesOf "string" then s.openString tag depth
  else .ok s

/-- Adds the label of the event at hand to the trace at hand. -/
def closeEvent (s : State) (label : Option String) : State :=
  match label, s.trace with
  | some label, some labels => { s with event := none, trace := some (label :: labels) }
  | _, _ => { s with event := none }

/-- Adds the trace at hand to the log. -/
def closeTrace (s : State) : State :=
  match s.trace with
  | some labels => { s with trace := none, traces := labels.reverse :: s.traces }
  | none => s

/-- What an end tag does, where `depth` is that of its element. -/
def closed (s : State) (depth : Nat) : State :=
  match s.event with
  | some ⟨eventDepth, label⟩ =>
    if eventDepth = depth then s.closeEvent label
    else if depth = 2 then s.closeTrace
    else s
  | none => if depth = 2 then s.closeTrace else s

def step (s : State) : Event → Except ParseError State
  | .opening tag =>
    let depth := s.depth + 1
    ({ s with depth := depth }).opened tag depth
  | .empty tag => (s.opened tag (s.depth + 1)).map (·.closed (s.depth + 1))
  | .closing _ =>
    let s' := s.closed s.depth
    .ok { s' with depth := s.depth - 1 }
  | .text _ => .ok s

end State

/-- The traces in a sequence of events; an error in the markup comes after what was read before. -/
def ofStream (stream : Xml.Stream) : Except ParseError (List LabelTrace) := do
  let s ← stream.events.foldlM State.step {}
  match stream.stop with
  | some e => throw (.xml e)
  | none => if s.inLog then return s.traces.reverse else throw .noLogElement

def read (d : Document) : Except ParseError (List LabelTrace) := ofStream (Xml.stream d)

end PetriAlign.Xes
