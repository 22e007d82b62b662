import PetriAlign.Net.Basic

/-!
# Alignments

An alignment explains a trace by a run of the model, move by move. A move that advances only one
of the two has the skip symbol on the other side.
-/

namespace PetriAlign

/-- Stands for the side of a move that does not advance. -/
def skip : String := "»"

structure Move where
  log : String
  model : String
  /-- The transition of the product that stands for the move. -/
  transition : String
  deriving DecidableEq, Repr

namespace Move

/-- The move that a fired transition of a product stands for. -/
def ofTransition (t : Transition) : Move :=
  match t.kind with
  | .log => ⟨t.label, skip, t.id⟩
  | .model | .tau => ⟨skip, t.label, t.id⟩
  | .sync => ⟨t.label, t.label, t.id⟩

@[simp] theorem transition_ofTransition (t : Transition) : (ofTransition t).transition = t.id := by
  unfold ofTransition
  split <;> rfl

def isModelMove (m : Move) : Bool := m.log = skip

def isLogMove (m : Move) : Bool := m.model = skip

def text (m : Move) : String :=
  "(" ++ m.log ++ " | " ++ m.model ++ " : " ++ m.transition ++ ")"

end Move

/-- The moves in the order of the trace. -/
abbrev Alignment := List Move

/-- A line for each move. -/
def Alignment.text (a : Alignment) : String := String.join (a.map fun m ↦ m.text ++ "\n")

end PetriAlign
