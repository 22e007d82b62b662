import PetriAlign.Net.Basic
import PetriAlign.Text.Search

/-!
# Model nets

Before a net can be the model side of a product, its silent transitions are told from the visible
ones. A transition is silent if its name contains a marker or the document says so.
-/

namespace PetriAlign

/-- The display name of silent transitions. -/
def silentName : String := "τ"

/-- The marker of silent transitions when nothing else is asked for. -/
def defaultMarker : String := "tau"

def Transition.isSilent (marker : String) (invisible : IdSet) (t : Transition) : Bool :=
  (marker ≠ "" && Text.occurs marker.toList t.name.toList) || invisible.contains t.id

/-- The transition as a model move, with the name it had. -/
def Transition.classify (marker : String) (invisible : IdSet) (t : Transition) : Transition :=
  if t.isSilent marker invisible then
    { t with label := t.name, name := silentName, kind := .tau }
  else { t with label := t.name, kind := .model }

/-- Every place lies on the model side, and every transition is a visible or a silent move. -/
def Net.classify (net : Net) (marker : String) : Net :=
  { net with
    places := net.places.map fun p ↦ { p with kind := .model }
    transitions := net.transitions.map (·.classify marker net.invisible) }

end PetriAlign
