import PetriAlign.Error
import PetriAlign.Net.Basic
import PetriAlign.Text.Blank
import PetriAlign.Xml.Attribute

/-!
# Reading PNML

A net is read in one pass over the events of its document. `Position` says which element the
reader is in, as far as it matters; elements with other names change nothing. What was read is
resolved at the end, when all nodes are known (`Draft.resolve`): every arc has weight one and joins
a place and a transition, and the final marking names declared places.
-/

namespace PetriAlign.Pnml

open Xml (Event Tag)

/-- Where the reader is. -/
inductive Position
  | outside
  | document
  | net
  | netName
  | place
  | placeName
  | initialMarking
  | finalMarking
  | placeKind
  | transition
  | transitionName
  | transitionLabel
  | transitionKind
  | finalMarkings
  | marking
  | markingPlace
  | arc
  | inscription
  deriving DecidableEq, Repr

/-- An arc with the text of its inscription, if it has one. -/
structure DraftArc where
  arc : Arc
  weight : Option String
  deriving DecidableEq, Repr

/-- What has been read so far. Lists are reversed, so that the declaration at hand is the first. -/
structure Draft where
  position : Position := .outside
  /-- Whether the document is a PNML document. -/
  isPnml : Bool := false
  id : String := ""
  name : String := ""
  places : List Place := []
  transitions : List Transition := []
  arcs : List DraftArc := []
  final : List (String × UInt64) := []
  invisible : IdSet := ∅
  /-- The number of final markings that were begun. -/
  markings : Nat := 0
  /-- The place that the final marking at hand is about. -/
  markedPlace : Option String := none
  deriving DecidableEq, Repr

/-- Changes the declaration at hand, if there is one. -/
def modifyHead {α : Type} (f : α → α) : List α → List α
  | [] => []
  | x :: xs => f x :: xs

/-- The value of an attribute that an element has to have. -/
def required (tag : Tag) (element key : String) : Except ParseError String :=
  match tag.value? key with
  | some value => .ok value
  | none => .error (.missingKey element key)

def readCount (place written : String) : Except ParseError UInt64 :=
  match Text.readCount? (Text.strip Text.isBlank written.toList) with
  | some count => .ok count
  | none => .error (.badCount place written)

def readPlaceKind (written : String) : Except ParseError PlaceKind :=
  match PlaceKind.ofTag? (Text.trim written) with
  | some kind => .ok kind
  | none => .error (.unknownKind (Text.trim written))

def readTransitionKind (written : String) : Except ParseError TransitionKind :=
  match TransitionKind.ofTag? (Text.trim written) with
  | some kind => .ok kind
  | none => .error (.unknownKind (Text.trim written))

namespace Draft

def goTo (d : Draft) (position : Position) : Draft := { d with position := position }

/-- Moves on only from a certain position. -/
def goFrom (d : Draft) (old new : Position) : Draft :=
  if d.position = old then d.goTo new else d

def openPlace (d : Draft) (tag : Tag) : Except ParseError Draft := do
  if d.position = .marking then
    let place ← required tag "place" "idref"
    return { d with markedPlace := some place, position := .markingPlace }
  else
    let id ← required tag "place" "id"
    return { d with places := ⟨id, id, 0, none, .model⟩ :: d.places, position := .place }

def openTransition (d : Draft) (tag : Tag) : Except ParseError Draft := do
  let id ← required tag "transition" "id"
  return { d with transitions := ⟨id, "", "", .model⟩ :: d.transitions, position := .transition }

/-- An arc without an id is named after its ends. -/
def openArc (d : Draft) (tag : Tag) : Except ParseError Draft := do
  let source ← required tag "arc" "source"
  let target ← required tag "arc" "target"
  let id := (tag.value? "id").getD (source ++ target)
  return { d with arcs := ⟨⟨id, source, target⟩, none⟩ :: d.arcs, position := .arc }

/-- A transition is silent if a tool says so. -/
def openToolSpecific (d : Draft) (tag : Tag) : Draft :=
  match d.transitions with
  | t :: _ =>
    if d.position = .transition ∧ tag.value? "activity" = some "$invisible$" then
      { d with invisible := d.invisible.insert t.id () }
    else d
  | [] => d

def openName (d : Draft) : Draft :=
  match d.position with
  | .net => d.goTo .netName
  | .place => d.goTo .placeName
  | .transition => d.goTo .transitionName
  | _ => d

def openKind (d : Draft) : Draft :=
  match d.position with
  | .place => d.goTo .placeKind
  | .transition => d.goTo .transitionKind
  | _ => d

def openMarking (d : Draft) : Draft :=
  if d.position = .finalMarkings then
    { d with markings := d.markings + 1, position := .marking }
  else d

/-- What a start tag does. -/
def opened (d : Draft) (tag : Tag) : Except ParseError Draft :=
  let isNamed (name : String) : Bool := tag.name = Xml.bytesOf name
  if isNamed "pnml" then .ok { d with isPnml := true, position := .document }
  else if isNamed "net" then
    .ok { d with id := (tag.value? "id").getD "", position := .net }
  else if isNamed "page" then .ok (d.goTo .net)
  else if isNamed "place" then d.openPlace tag
  else if isNamed "transition" then d.openTransition tag
  else if isNamed "arc" then d.openArc tag
  else if isNamed "inscription" then .ok (d.goFrom .arc .inscription)
  else if isNamed "toolspecific" then .ok (d.openToolSpecific tag)
  else if isNamed "initialMarking" then .ok (d.goFrom .place .initialMarking)
  else if isNamed "finalMarking" then .ok (d.goFrom .place .finalMarking)
  else if isNamed "type" then .ok d.openKind
  else if isNamed "origname" then .ok (d.goFrom .transition .transitionLabel)
  else if isNamed "finalmarkings" then .ok (d.goTo .finalMarkings)
  else if isNamed "marking" then .ok d.openMarking
  else if isNamed "name" then .ok d.openName
  else .ok d

def closePlace (d : Draft) : Draft :=
  if d.position = .markingPlace then { d with markedPlace := none, position := .marking }
  else d.goTo .net

def closeCount (d : Draft) : Draft :=
  match d.position with
  | .initialMarking | .finalMarking => d.goTo .place
  | _ => d

def closeKind (d : Draft) : Draft :=
  match d.position with
  | .placeKind => d.goTo .place
  | .transitionKind => d.goTo .transition
  | _ => d

def closeName (d : Draft) : Draft :=
  match d.position with
  | .netName => d.goTo .net
  | .placeName => d.goTo .place
  | .transitionName => d.goTo .transition
  | _ => d

/-- What an end tag does. -/
def closed (d : Draft) (name : Bytes) : Draft :=
  let isNamed (expected : String) : Bool := name = Xml.bytesOf expected
  if isNamed "place" then d.closePlace
  else if isNamed "transition" then d.goTo .net
  else if isNamed "arc" then d.goTo .net
  else if isNamed "initialMarking" then d.closeCount
  else if isNamed "finalMarking" then d.closeCount
  else if isNamed "type" then d.closeKind
  else if isNamed "origname" then d.goFrom .transitionLabel .transition
  else if isNamed "finalmarkings" then d.goTo .net
  else if isNamed "marking" then d.goFrom .marking .finalMarkings
  else if isNamed "inscription" then d.goFrom .inscription .arc
  else if isNamed "name" then d.closeName
  else d

/-- Changes the place at hand by what its text says. -/
def changePlace (d : Draft) (change : Place → Except ParseError Place) : Except ParseError Draft :=
  match d.places with
  | [] => .ok d
  | p :: rest => (change p).map fun p ↦ { d with places := p :: rest }

/-- Changes the transition at hand by what its text says. -/
def changeTransition (d : Draft) (change : Transition → Except ParseError Transition) :
    Except ParseError Draft :=
  match d.transitions with
  | [] => .ok d
  | t :: rest => (change t).map fun t ↦ { d with transitions := t :: rest }

/-- Only the first final marking counts. -/
def markPlace (d : Draft) (written : String) : Except ParseError Draft :=
  match d.markedPlace with
  | some place =>
    if d.markings = 1 then
      (readCount place written).map fun count ↦ { d with final := (place, count) :: d.final }
    else .ok d
  | none => .ok d

/-- What a text does. -/
def texted (d : Draft) (text : String) : Except ParseError Draft :=
  match d.position with
  | .netName => .ok { d with name := text }
  | .placeName => d.changePlace fun p ↦ .ok { p with name := text }
  | .initialMarking =>
    d.changePlace fun p ↦ (readCount p.id text).map fun n ↦ { p with initial := n }
  | .finalMarking =>
    d.changePlace fun p ↦ (readCount p.id text).map fun n ↦ { p with final := some n }
  | .placeKind => d.changePlace fun p ↦ (readPlaceKind text).map fun kind ↦ { p with kind := kind }
  | .transitionName => d.changeTransition fun t ↦ .ok { t with name := text }
  | .transitionLabel => d.changeTransition fun t ↦ .ok { t with label := text }
  | .transitionKind =>
    d.changeTransition fun t ↦ (readTransitionKind text).map fun kind ↦ { t with kind := kind }
  | .markingPlace => d.markPlace text
  | .inscription => .ok { d with arcs := modifyHead ({ · with weight := some text }) d.arcs }
  | _ => .ok d

def step (d : Draft) : Event → Except ParseError Draft
  | .opening tag => d.opened tag
  | .empty tag => (d.opened tag).map (·.closed tag.name)
  | .closing name => .ok (d.closed name)
  | .text raw => do d.texted (← (Xml.textOf raw).mapError .xml)

end Draft

/-- Why an arc between these nodes cannot be, if so: of two undeclared ends the source is named. -/
def Arc.fault? (placeIds transitionIds : List String) (arc : Arc) : Option ParseError :=
  let known (id : String) : Bool := id ∈ placeIds || id ∈ transitionIds
  if !known arc.source then some (.unknownEnd arc.id arc.source)
  else if !known arc.target then some (.unknownEnd arc.id arc.target)
  else if (arc.source ∈ placeIds && arc.target ∈ transitionIds) ||
      (arc.source ∈ transitionIds && arc.target ∈ placeIds) then none
  else some (.badArc arc.id)

/-- The arc, if its weight is one and it joins a place and a transition. -/
def DraftArc.resolve (placeIds transitionIds : List String) (a : DraftArc) :
    Except ParseError Arc :=
  match a.weight.filter (Text.trim · ≠ "1") with
  | some weight => .error (.badWeight a.arc.id weight)
  | none =>
    match Arc.fault? placeIds transitionIds a.arc with
    | some e => .error e
    | none => .ok a.arc

/-- Puts a count of the final marking on the first place with this id. -/
def setFinal (places : List Place) (mark : String × UInt64) : Except ParseError (List Place) :=
  match places with
  | [] => .error (.unknownFinalPlace mark.1)
  | p :: rest =>
    if p.id = mark.1 then .ok ({ p with final := some mark.2 } :: rest)
    else (setFinal rest mark).map (p :: ·)

/-- A transition without a label is labelled with its name. -/
def fillLabel (t : Transition) : Transition :=
  if t.label = "" then { t with label := t.name } else t

/-- The net without its nodes. -/
def Draft.header (d : Draft) : Net := { id := d.id, name := d.name, invisible := d.invisible }

/-- The net that was read, once the whole document is known. -/
def Draft.resolve (d : Draft) : Except ParseError Net := do
  if !d.isPnml then throw .noPnmlElement
  let places := d.places.reverse
  let transitions := d.transitions.reverse.map fillLabel
  let arcs ← d.arcs.reverse.mapM
    (DraftArc.resolve (places.map (·.id)) (transitions.map (·.id)))
  let final := d.final.reverse
  let places ← final.foldlM setFinal places
  return { d.header with places, transitions, arcs, final }

/-- The net of a sequence of events; an error in the markup comes after what was read before. -/
def ofStream (s : Xml.Stream) : Except ParseError Net := do
  let draft ← s.events.foldlM Draft.step {}
  match s.stop with
  | some e => throw (.xml e)
  | none => draft.resolve

def read (d : Document) : Except ParseError Net := ofStream (Xml.stream d)

/-- Reads a net that has to have a final marking. -/
def readAccepting (d : Document) : Except ParseError Net := do
  let net ← read d
  if net.final.isEmpty then throw .noFinalMarking
  return net

end PetriAlign.Pnml
