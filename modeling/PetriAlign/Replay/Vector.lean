import PetriAlign.Net.PlaceIndex
import PetriAlign.Replay.Outcome

/-!
# Replay by complete markings

The strict policy: one token moves for each arc, and a transition explains a step only if firing it
turns the marking before the step into exactly the marking after it. Of several transitions the
one declared first is taken.
-/

namespace PetriAlign

/-- A transition with the numbers of its input and output places, one for each arc. -/
structure IndexedTransition where
  transition : Transition
  inputs : List Nat
  outputs : List Nat
  deriving DecidableEq, Repr

namespace MarkingVector

/-- The vector with one token less at `i`, if there is one. -/
def take? (v : MarkingVector) (i : Nat) : Option MarkingVector :=
  match v[i]? with
  | some n => if n = 0 then none else some (v.set i (n - 1))
  | none => none

/-- The vector with one token more at `i`, unless the largest count stands there. -/
def put? (v : MarkingVector) (i : Nat) : Option MarkingVector :=
  match v[i]? with
  | some n => if n = Marking.maxCount then none else some (v.set i (n + 1))
  | none => none

end MarkingVector

namespace IndexedTransition

/-- The vector after firing: first all inputs are taken, then all outputs are put. -/
def fire? (t : IndexedTransition) (v : MarkingVector) : Option MarkingVector := do
  t.outputs.foldlM MarkingVector.put? (← t.inputs.foldlM MarkingVector.take? v)

/-- Whether firing turns `current` into exactly `next`. -/
def explains (t : IndexedTransition) (current next : MarkingVector) : Bool :=
  t.fire? current = some next

end IndexedTransition

/-- The transition with its arcs as numbers. Arcs that lead elsewhere are left out. -/
def Net.indexTransition (net : Net) (index : PlaceIndex) (t : Transition) : IndexedTransition :=
  ⟨t, (net.preset t.id).filterMap index.position?, (net.postset t.id).filterMap index.position?⟩

/-- Puts the records of a step over the counts of a vector. -/
def PlaceIndex.overwrite (index : PlaceIndex) (step : Nat) (v : MarkingVector)
    (record : String × UInt64) : Except ReplayError MarkingVector :=
  match index.position? record.1 with
  | some i => .ok (v.set i record.2)
  | none => .error (.unknownPlace step record.1)

namespace Replay

/-- A replay of vectors between two steps. -/
structure VectorState where
  current : MarkingVector
  outcome : ReplayOutcome := {}

/-- Takes a step: of the transitions of its kind, the first one that explains it. -/
def vectorStep (index : PlaceIndex) (transitions : List IndexedTransition) (s : VectorState)
    (number : Nat) (step : Step) : Except ReplayError VectorState := do
  let kind ← step.moveKind number
  let next ← step.records.foldlM (index.overwrite number) s.current
  match transitions.find? fun t ↦ t.transition.kind = kind && t.explains s.current next with
  | some t => return ⟨next, s.outcome.record t.transition⟩
  | none => throw (.noMatch number kind)

/-- Takes the steps from `number` on. -/
def vectorSteps (index : PlaceIndex) (transitions : List IndexedTransition) (s : VectorState)
    (number : Nat) : List Step → Except ReplayError VectorState
  | [] => .ok s
  | step :: rest =>
    match vectorStep index transitions s number step with
    | .error e => .error e
    | .ok s => vectorSteps index transitions s (number + 1) rest

theorem vectorSteps_cons {index : PlaceIndex} {transitions : List IndexedTransition}
    (s : VectorState) (number : Nat) (step : Step) (rest : List Step) :
    vectorSteps index transitions s number (step :: rest) =
      (vectorStep index transitions s number step >>= fun s ↦
        vectorSteps index transitions s (number + 1) rest) := by
  rw [vectorSteps]
  cases vectorStep index transitions s number step <;> rfl

/-- Replays a trace by complete markings. It starts from the initial marking of the net, over
which the records of the initial step are put. -/
def byVector (net : Net) (trace : SnapshotTrace) : Except ReplayError ReplayOutcome := do
  let index := net.placeIndex
  let records ← trace.initialRecords
  let start ← records.foldlM (index.overwrite 0) (index.toVector net.initialMarking)
  let transitions := net.transitions.map (net.indexTransition index)
  let s ← vectorSteps index transitions ⟨start, {}⟩ 1 trace.moves
  return s.outcome

end Replay

end PetriAlign
