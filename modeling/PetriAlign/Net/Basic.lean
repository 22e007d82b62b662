import PetriAlign.Net.Kind
import PetriAlign.Table

/-!
# Petri nets

Places and transitions joined by unit arcs. Declarations keep their order, ids may repeat, and an
id that is looked up means its first declaration. The initial marking stands on the places; the
final marking stands on the places and, in document order, on the net.
-/

namespace PetriAlign

structure Place where
  id : String
  name : String
  initial : UInt64
  /-- The count that the final marking asks for, if the place is part of it. -/
  final : Option UInt64
  kind : PlaceKind
  deriving DecidableEq, Repr

structure Transition where
  id : String
  /-- The name on display: `τ` for silent moves, the tag of the kind in products. -/
  name : String
  /-- What alignments and drawings show. Relabelling keeps the name here when it replaces it. -/
  label : String
  kind : TransitionKind
  deriving DecidableEq, Repr

/-- An arc runs from a place to a transition or back; its ends tell which. -/
structure Arc where
  id : String
  source : String
  target : String
  deriving DecidableEq, Repr

structure Net where
  id : String := ""
  name : String := ""
  places : List Place := []
  transitions : List Transition := []
  arcs : List Arc := []
  /-- The final marking, in document order. -/
  final : List (String × UInt64) := []
  /-- The transitions that the document marks as silent. -/
  invisible : IdSet := ∅
  deriving DecidableEq, Repr, Inhabited

/-- The size of a net. -/
structure Statistics where
  places : Nat
  transitions : Nat
  arcs : Nat
  deriving DecidableEq, Repr

def Statistics.text (s : Statistics) : String := s!"{s.places},{s.transitions},{s.arcs}"

namespace Net

variable (net : Net)

def placeIds : List String := net.places.map (·.id)

def transitionIds : List String := net.transitions.map (·.id)

def addPlace (id : String) (initial : UInt64) (kind : PlaceKind) : Net :=
  { net with places := net.places ++ [⟨id, id, initial, none, kind⟩] }

def addTransition (id name : String) (kind : TransitionKind) : Net :=
  { net with transitions := net.transitions ++ [⟨id, name, name, kind⟩] }

def addArc (id source target : String) : Net :=
  { net with arcs := net.arcs ++ [⟨id, source, target⟩] }

def place? (id : String) : Option Place := net.places.find? (·.id = id)

def transition? (id : String) : Option Transition := net.transitions.find? (·.id = id)

/-- The sources of the arcs into a node, one entry for each arc. -/
def preset (id : String) : List String := (net.arcs.filter (·.target = id)).map (·.source)

/-- The targets of the arcs out of a node, one entry for each arc. -/
def postset (id : String) : List String := (net.arcs.filter (·.source = id)).map (·.target)

def statistics : Statistics := ⟨net.places.length, net.transitions.length, net.arcs.length⟩

end Net

end PetriAlign
