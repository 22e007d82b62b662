import PetriAlign.Net.Marking

/-!
# Firing

The permissive policy of state space exploration. A transition is enabled when each of its input
places has a token. Firing moves one token for each distinct input and output place, however many
arcs join the pair.
-/

namespace PetriAlign

/-- The distinct elements of a list, each where it stands last. -/
def distinct (ids : List String) : List String :=
  ids.foldr (fun id rest ↦ if id ∈ rest then rest else id :: rest) []

namespace Net

variable (net : Net)

def canFire (transition : String) (m : Marking) : Bool :=
  (net.preset transition).all fun p ↦ 0 < m.count p

/-- The marking after firing, or none if an output place cannot hold another token. It does not
ask whether the transition is enabled. -/
def fire (transition : String) (m : Marking) : Option Marking :=
  (distinct (net.postset transition)).foldlM Marking.putToken?
    ((distinct (net.preset transition)).foldl Marking.takeToken m)

end Net

end PetriAlign
