import PetriAlign.Net.Marking
import PetriAlign.Replay.Vector

/-!
# Replay by signatures

The older policy: a step is explained by the places whose counts it changes. A transition is looked
up by its kind and the places of its arcs; of several with one signature the one declared last is
taken. Neither the marking before a step nor the one after it is checked.
-/

namespace PetriAlign

/-- The places in the order of their bytes, with single blanks between them. -/
def signaturePart (places : List String) : String :=
  " ".intercalate (places.mergeSort fun a b ↦ a ≤ b)

def signature (kind : TransitionKind) (inputs outputs : List String) : String :=
  kind.tag ++ "-[" ++ signaturePart inputs ++ "]-[" ++ signaturePart outputs ++ "]"

def Net.signatureOf (net : Net) (t : Transition) : String :=
  signature t.kind (net.preset t.id) (net.postset t.id)

/-- The last transition with this signature. -/
def Net.bySignature? (net : Net) (key : String) : Option Transition :=
  net.transitions.reverse.find? fun t ↦ net.signatureOf t = key

namespace Replay

/-- A change of one count. -/
structure Change where
  place : String
  before : UInt64
  after : UInt64
  deriving DecidableEq, Repr

namespace Change

def delta (c : Change) : Nat := max c.before.toNat c.after.toNat - min c.before.toNat c.after.toNat

def text (c : Change) : String :=
  c.place ++ " " ++ Text.showCount c.before ++ " -> " ++ Text.showCount c.after

end Change

/-- The places that a step took tokens from and gave tokens to, once for each token. -/
structure Touched where
  marking : Marking
  inputs : List String := []
  outputs : List String := []

def Touched.add (s : Touched) (c : Change) : Touched :=
  let places := List.replicate c.delta c.place
  if c.after < c.before then { s with inputs := s.inputs ++ places }
  else { s with outputs := s.outputs ++ places }

def checkPlace (net : Net) (step : Nat) (place : String) : Except ReplayError Unit :=
  if (net.place? place).isSome then .ok () else .error (.unknownPlace step place)

/-- Adds a record of a step. No transition has more arcs than the net, so a larger change has no
signature. -/
def touch (net : Net) (step : Nat) (kind : TransitionKind) (s : Touched)
    (record : String × UInt64) : Except ReplayError Touched := do
  checkPlace net step record.1
  let change : Change := ⟨record.1, s.marking.count record.1, record.2⟩
  if net.arcs.length < change.delta then
    throw (.unknownSignature step (kind.tag ++ "-[" ++ change.text ++ "]"))
  else
    return { s.add change with marking := s.marking.insert record.1 record.2 }

/-- A replay of signatures between two steps. -/
structure SignatureState where
  marking : Marking
  outcome : ReplayOutcome := {}

/-- Takes a step by looking up the signature of what it changes. -/
def signatureStep (net : Net) (s : SignatureState) (number : Nat) (step : Step) :
    Except ReplayError SignatureState := do
  let kind ← step.moveKind number
  let touched ← step.records.foldlM (touch net number kind) ⟨s.marking, [], []⟩
  let key := signature kind touched.inputs touched.outputs
  match net.bySignature? key with
  | some t => return ⟨touched.marking, s.outcome.record t⟩
  | none => throw (.unknownSignature number key)

/-- Takes the steps from `number` on. -/
def signatureSteps (net : Net) (s : SignatureState) (number : Nat) :
    List Step → Except ReplayError SignatureState
  | [] => .ok s
  | step :: rest =>
    match signatureStep net s number step with
    | .error e => .error e
    | .ok s => signatureSteps net s (number + 1) rest

theorem signatureSteps_cons {net : Net} (s : SignatureState) (number : Nat) (step : Step)
    (rest : List Step) :
    signatureSteps net s number (step :: rest) =
      (signatureStep net s number step >>= fun s ↦ signatureSteps net s (number + 1) rest) := by
  rw [signatureSteps]
  cases signatureStep net s number step <;> rfl

/-- Puts a record of the initial step over a marking. -/
def initialRecord (net : Net) (m : Marking) (record : String × UInt64) :
    Except ReplayError Marking := do
  checkPlace net 0 record.1
  return m.insert record.1 record.2

/-- Replays a trace by signatures. -/
def bySignature (net : Net) (trace : SnapshotTrace) : Except ReplayError ReplayOutcome := do
  let records ← trace.initialRecords
  let start ← records.foldlM (initialRecord net) net.initialMarking
  let s ← signatureSteps net ⟨start, {}⟩ 1 trace.moves
  return s.outcome

end Replay

end PetriAlign
