import PetriAlign.Net.Marking

/-!
# Markings as vectors

Places are numbered in declaration order, and a marking becomes the vector of its counts. An id
that is declared more than once has the number of its last declaration; the other entries of the
vector stay zero.
-/

namespace PetriAlign

abbrev MarkingVector := List UInt64

structure PlaceIndex where
  /-- The ids of the places in declaration order. -/
  ids : List String
  deriving Repr

namespace PlaceIndex

/-- The number of the last occurrence of `id`. -/
def lastIndex? (id : String) : List String → Option Nat
  | [] => none
  | x :: xs =>
    match lastIndex? id xs with
    | some i => some (i + 1)
    | none => if x = id then some 0 else none

def position? (index : PlaceIndex) (id : String) : Option Nat := lastIndex? id index.ids

def size (index : PlaceIndex) : Nat := index.ids.length

/-- Places that the marking does not mention get no tokens, places without a number are left
out. -/
def toVector (index : PlaceIndex) (m : Marking) : MarkingVector :=
  m.entries.foldl
    (fun v e ↦ match index.position? e.1 with
      | some i => v.set i e.2
      | none => v)
    (List.replicate index.size 0)

end PlaceIndex

def Net.placeIndex (net : Net) : PlaceIndex := ⟨net.placeIds⟩

end PetriAlign
