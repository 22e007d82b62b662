import PetriAlign.Constraint
import PetriAlign.Net.Classify
import PetriAlign.Replay.Mode
import PetriAlign.StateGraph

/-!
# Settings
-/

namespace PetriAlign

/-- The settings that all operations share. -/
structure Config where
  /-- Transitions with this text in their names are silent. -/
  silentMarker : String := defaultMarker
  constraint : ConstraintStyle := {}
  /-- Also write a drawing of every product. -/
  writeDot : Bool := false
  replayMode : ReplayMode := .vector
  /-- Allow the traces of a log to be processed side by side. -/
  parallel : Bool := true
  /-- The limit on the states of a state graph. -/
  stateLimit : Nat := defaultStateLimit
  deriving DecidableEq, Repr, Inhabited

end PetriAlign
