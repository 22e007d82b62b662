import PetriAlign.Replay.Signature

/-!
# Modes of replay
-/

namespace PetriAlign

inductive ReplayMode
  | vector
  | signature
  deriving DecidableEq, Repr, Inhabited

namespace ReplayMode

def tag : ReplayMode → String
  | vector => "vector"
  | signature => "signature"

def ofTag? (tag : String) : Option ReplayMode := [vector, signature].find? (·.tag = tag)

end ReplayMode

/-- Replays a trace in the given mode. -/
def Net.replay (net : Net) (trace : SnapshotTrace) :
    ReplayMode → Except ReplayError ReplayOutcome
  | .vector => Replay.byVector net trace
  | .signature => Replay.bySignature net trace

end PetriAlign
