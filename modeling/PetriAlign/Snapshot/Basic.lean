import PetriAlign.Net.Kind

/-!
# Snapshot traces

An external search reports the run it found as snapshots: the marking at the start, then for each
move its kind and the counts after it. A snapshot lists all places or only those that changed.
-/

namespace PetriAlign

inductive StepKind
  | initial
  | move (kind : TransitionKind)
  deriving DecidableEq, Repr, Inhabited

def StepKind.tag : StepKind → String
  | initial => "INITIAL"
  | move kind => kind.tag

structure Step where
  kind : StepKind
  /-- The reported counts, in the order of the report. -/
  records : List (String × UInt64)
  deriving DecidableEq, Repr, Inhabited

structure SnapshotTrace where
  steps : List Step
  deriving DecidableEq, Repr, Inhabited

/-- The steps after the first one. -/
def SnapshotTrace.moves (t : SnapshotTrace) : List Step := t.steps.drop 1

end PetriAlign
