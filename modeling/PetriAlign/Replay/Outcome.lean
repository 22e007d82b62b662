import PetriAlign.Alignment
import PetriAlign.Error
import PetriAlign.Snapshot.Basic

/-!
# What a replay finds

A replay turns a snapshot trace into the moves behind its steps, and counts how often each
transition was fired. Both ways to replay share how they look at the steps of a trace.
-/

namespace PetriAlign

/-- How often each transition was fired. -/
abbrev FiredCounts := Table Nat

structure ReplayOutcome where
  alignment : Alignment := []
  fired : FiredCounts := ∅
  deriving DecidableEq, Repr

/-- Adds the move of a transition. -/
def ReplayOutcome.record (o : ReplayOutcome) (t : Transition) : ReplayOutcome :=
  { alignment := o.alignment ++ [.ofTransition t]
    fired := o.fired.insert t.id ((o.fired.get? t.id).getD 0 + 1) }

/-- The records of the initial step, with which every trace begins. -/
def SnapshotTrace.initialRecords (trace : SnapshotTrace) :
    Except ReplayError (List (String × UInt64)) :=
  match trace.steps with
  | ⟨.initial, records⟩ :: _ => .ok records
  | _ => .error .missingInitial

/-- The kind of move that a later step reports. -/
def Step.moveKind (step : Step) (number : Nat) : Except ReplayError TransitionKind :=
  match step.kind with
  | .move kind => .ok kind
  | .initial => .error (.unexpectedInitial number)

end PetriAlign
