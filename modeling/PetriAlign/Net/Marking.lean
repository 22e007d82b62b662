import PetriAlign.Net.Basic

/-!
# Markings

A marking counts tokens on places. A place without an entry has none; an entry may also hold a
zero, which `get?` tells apart and `count` does not.
-/

namespace PetriAlign

abbrev Marking := Table UInt64

namespace Marking

def count (m : Marking) (place : String) : UInt64 := (m.get? place).getD 0

/-- Takes one token off a place that has an entry; an entry that reaches zero goes away. -/
def takeToken (m : Marking) (place : String) : Marking :=
  match m.get? place with
  | none => m
  | some n => if n ≤ 1 then m.erase place else m.insert place (n - 1)

/-- The largest count. -/
def maxCount : UInt64 := 0xFFFFFFFFFFFFFFFF

/-- Puts one token on a place, unless it holds the largest count. -/
def putToken? (m : Marking) (place : String) : Option Marking :=
  let n := m.count place
  if n = maxCount then none else some (m.insert place (n + 1))

end Marking

/-- The places with at least one token at the start. -/
def Net.initialMarking (net : Net) : Marking :=
  .ofList ((net.places.filter (0 < ·.initial)).map fun p ↦ (p.id, p.initial))

end PetriAlign
