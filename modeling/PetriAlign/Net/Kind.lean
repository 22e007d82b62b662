/-!
# Kinds of places and transitions

A place lies on the model side or on the log side of a product. A transition is a move of the
model, of the log, of both, or a silent move of the model. Kinds are written as tags.
-/

namespace PetriAlign

inductive PlaceKind
  | model
  | log
  deriving DecidableEq, Repr, Inhabited, Hashable

inductive TransitionKind
  | model
  | log
  | sync
  | tau
  deriving DecidableEq, Repr, Inhabited, Hashable

namespace PlaceKind

def tag : PlaceKind → String
  | model => "MODEL"
  | log => "LOG"

def ofTag? (tag : String) : Option PlaceKind := [model, log].find? (·.tag = tag)

@[simp] theorem ofTag?_tag (kind : PlaceKind) : ofTag? kind.tag = some kind := by
  cases kind <;> decide

end PlaceKind

namespace TransitionKind

/-- All kinds, in the order in which action lines are searched for them. -/
def all : List TransitionKind := [log, model, sync, tau]

def tag : TransitionKind → String
  | model => "MODEL"
  | log => "LOG"
  | sync => "SYNC"
  | tau => "TAU"

def ofTag? (tag : String) : Option TransitionKind := all.find? (·.tag = tag)

@[simp] theorem ofTag?_tag (kind : TransitionKind) : ofTag? kind.tag = some kind := by
  cases kind <;> decide

end TransitionKind

end PetriAlign
