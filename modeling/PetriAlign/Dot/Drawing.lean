import PetriAlign.Dot.Basic
import PetriAlign.Net.Basic
import PetriAlign.Replay.Outcome
import PetriAlign.StateGraph

/-!
# Drawings of nets and state graphs

Nodes are coloured by kind. In a net the log side and the model side stand in clusters, the
synchronous moves between them, and the transitions that a replay fired stand out with their arcs.
-/

namespace PetriAlign

open Dot

def TransitionKind.color : TransitionKind → String
  | log => "darkgoldenrod1"
  | model => "lightskyblue"
  | sync => "chartreuse"
  | tau => "grey"

def PlaceKind.color : PlaceKind → String
  | log => TransitionKind.log.color
  | model => TransitionKind.model.color

namespace Drawing

def firedFill : String := "firebrick1"

def firedArc : String := "firebrick"

/-- The attributes that all nodes of a net have. -/
def nodeAttributes (label shape fill : String) : Attributes :=
  [("label", .label label), ("shape", .plain shape), ("style", .quoted "filled,solid"),
    ("fillcolor", .plain fill), ("fontname", .quoted "Courier-Bold")]

/-- The id, and a dot for each token up to three. -/
def placeLabel (p : Place) : String :=
  if 0 < p.initial then
    p.id ++ "\n" ++ .ofList (List.replicate (min p.initial.toNat 3) '●')
  else p.id

/-- Places that the final marking wants tokens on have a double line. -/
def placeNode (p : Place) : Statement :=
  .node (.quoted p.id)
    (nodeAttributes (placeLabel p) (if 0 < p.final.getD 0 then "doublecircle" else "circle")
      p.kind.color)

variable (fired : String → Bool)

def transitionNode (t : Transition) : Statement :=
  .node (.quoted t.id)
    (nodeAttributes t.label "box" (if fired t.id then firedFill else t.kind.color))

/-- The colour of an arc is that of its transition. -/
def arcColor (net : Net) (a : Arc) : String :=
  match net.transitions.find? fun t ↦ t.id = a.source || t.id = a.target with
  | some t => if fired t.id then firedArc else t.kind.color
  | none => "black"

def arcEdge (net : Net) (a : Arc) : Statement :=
  .edge (.quoted a.source) (.quoted a.target)
    [("penwidth", .plain "2"), ("color", .plain (arcColor fired net a))]

/-- The nodes of one side: its places, then its transitions. -/
def sideNodes (net : Net) (side : PlaceKind) (kinds : List TransitionKind) : List Statement :=
  (net.places.filter (·.kind = side)).map placeNode ++
    (net.transitions.filter (·.kind ∈ kinds)).map (transitionNode fired)

def cluster (name : String) (nodes : List Statement) : Item :=
  .subgraph name (.setting "style" (.plain "invis") :: nodes)

def leftToRight : Item := .statement (.setting "rankdir" (.plain "LR"))

/-- The drawing of a net in which some transitions were fired. -/
def net (net : Net) : Graph :=
  let log := sideNodes fired net .log [.log]
  let model := sideNodes fired net .model [.model, .tau]
  let sync := (net.transitions.filter (·.kind = .sync)).map (transitionNode fired)
  let arcs := net.arcs.map (arcEdge fired net)
  { strict := true
    id := .label (if net.id = "" then "net" else net.id)
    items :=
      leftToRight :: (if log.isEmpty then [] else [cluster "cluster_log" log]) ++
        cluster "cluster_model" model :: (sync ++ arcs).map .statement }

def stateId (i : Nat) : Value := .quoted ("m" ++ Text.showNat i)

/-- The initial state has a double line. -/
def stateNode (state : Marking × Nat) : Statement :=
  .node (stateId state.2)
    [("label", .label state.1.text),
      ("shape", .plain (if state.2 = 0 then "doublecircle" else "ellipse"))]

def stateEdge (e : StateEdge) : Statement :=
  .edge (stateId e.source) (stateId e.target)
    [("label", .label e.label), ("color", .plain e.kind.color)]

/-- The drawing of a state graph. -/
def stateGraph (g : StateGraph) : Graph :=
  { strict := false
    id := .plain "marking_graph"
    items :=
      leftToRight ::
        (g.states.toList.zipIdx.map stateNode ++ g.edges.toList.map stateEdge).map .statement }

end Drawing

/-- The DOT text of a net; with counts of a replay, the fired transitions stand out. -/
def Net.dot (net : Net) (fired : Option FiredCounts) : String :=
  (Drawing.net (fun id ↦ fired.any (·.contains id)) net).render

/-- The DOT text of a state graph. -/
def StateGraph.dot (g : StateGraph) : String := (Drawing.stateGraph g).render

end PetriAlign
