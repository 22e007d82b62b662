import PetriAlign.Net.Firing
import PetriAlign.Text.Numeral
import Std.Data.HashMap

/-!
# State graphs

The reachable markings of a net, explored breadth first with the permissive firing policy. States
are numbered in the order in which they are found, and their numbers double as the queue: the
search expands one state after the other until there are no more. Edges are listed by source state
and then in the declaration order of their transitions. A search is incomplete if it had to leave
out a marking, because of the limit on states or because a place cannot hold another token.
-/

namespace PetriAlign

/-- The limit on states when nothing else is asked for. -/
def defaultStateLimit : Nat := 10000

structure StateEdge where
  source : Nat
  target : Nat
  transition : String
  /-- The label of the transition. -/
  label : String
  kind : TransitionKind
  deriving DecidableEq, Repr

structure StateGraph where
  /-- The marking of state `i` stands at position `i`; state 0 is the initial one. -/
  states : Array Marking
  edges : Array StateEdge
  complete : Bool

namespace StateGraph

/-- A search between two firings. -/
structure Search where
  states : Array Marking
  /-- The number of each state. -/
  numbers : Std.HashMap Marking Nat
  edges : Array StateEdge := #[]
  complete : Bool := true

namespace Search

def start (m : Marking) : Search := { states := #[m], numbers := (∅ : Std.HashMap _ _).insert m 0 }

def truncate (s : Search) : Search := { s with complete := false }

def addState (s : Search) (m : Marking) : Search :=
  { s with states := s.states.push m, numbers := s.numbers.insert m s.states.size }

def addEdge (s : Search) (source target : Nat) (t : Transition) : Search :=
  { s with edges := s.edges.push ⟨source, target, t.id, t.label, t.kind⟩ }

/-- Fires one transition in the marking of state `source`. -/
def visit (net : Net) (limit source : Nat) (m : Marking) (s : Search) (t : Transition) : Search :=
  if net.canFire t.id m then
    match net.fire t.id m with
    | none => s.truncate
    | some next =>
      match s.numbers[next]? with
      | some target => s.addEdge source target t
      | none =>
        let target := s.states.size
        if limit ≤ target then s.truncate else (s.addState next).addEdge source target t
  else s

/-- Expands the states from `source` on. -/
def run (net : Net) (limit : Nat) : Nat → Nat → Search → Search
  | 0, _, s => s
  | fuel + 1, source, s =>
    match s.states[source]? with
    | none => s
    | some m => run net limit fuel (source + 1) (net.transitions.foldl (visit net limit source m) s)

end Search

end StateGraph

/-- The state graph of a net with at most `limit` states, but at least the initial one. No more
states are expanded than there can be. -/
def Net.stateGraph (net : Net) (limit : Nat) : StateGraph :=
  let s := StateGraph.Search.run net limit (max limit 1) 0 (.start net.initialMarking)
  ⟨s.states, s.edges, s.complete⟩

/-- The marked places with their counts, where a count of one is left out. -/
def Marking.text (m : Marking) : String :=
  ", ".intercalate (m.entries.map fun e ↦
    if e.2 = 1 then e.1 else Text.showCount e.2 ++ "*" ++ e.1)

end PetriAlign
