import PetriAlign.Net.Marking
import PetriAlign.Text.Numeral

/-!
# Reachability constraints

A constraint is a conjunction of terms, each asking for an exact count on a place. It tells an
external search which markings of a product to look for.
-/

namespace PetriAlign

/-- How a constraint is written. -/
structure ConstraintStyle where
  /-- Leave out the terms that ask for zero. -/
  omitZero : Bool := false
  /-- Write the negation, as a search for a counterexample wants it. -/
  negate : Bool := false
  deriving DecidableEq, Repr, Inhabited

/-- The terms in order: a place and the count it has to have. -/
structure Constraint where
  terms : List (String × UInt64)
  deriving DecidableEq, Repr, Inhabited

namespace Constraint

def termText (term : String × UInt64) : String := term.1 ++ "==" ++ Text.showCount term.2

/-- The terms that are written. -/
def kept (c : Constraint) (style : ConstraintStyle) : List (String × UInt64) :=
  c.terms.filter fun term ↦ !style.omitZero || term.2 ≠ 0

def render (c : Constraint) (style : ConstraintStyle) : String :=
  let body := " && ".intercalate ((c.kept style).map termText)
  if style.negate then "!(" ++ body ++ ")" else body

/-- Every term is written. -/
def text (c : Constraint) : String := c.render {}

end Constraint

end PetriAlign
