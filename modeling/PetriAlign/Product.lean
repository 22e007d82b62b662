import PetriAlign.Constraint
import PetriAlign.EventLog.Csv

/-!
# Synchronous products

A trace is a net of its own: a chain of log places, with a log move for each label from one place
to the next. The product puts this chain beside the model and adds, for each label and each visible
model transition of that name, a synchronous move that does both at once. Its final marking is that
of the model with one token on the last log place and none on the others.
-/

namespace PetriAlign

namespace Product

def logPlaceId (i : Nat) : String := "logp" ++ Text.showNat i

def logMoveId (i : Nat) : String := "logt" ++ Text.showNat i

def syncMoveId (i k : Nat) : String := "logs" ++ Text.showNat i ++ "n" ++ Text.showNat k

/-- The id of the arc into the move at position `i`; synchronous moves have a number as well. -/
def inArcId (i : Nat) : String := "arcp" ++ Text.showNat i

def outArcId (i : Nat) : String := "arct" ++ Text.showNat i

def numbered (id : String) (k : Nat) : String := id ++ "n" ++ Text.showNat k

/-- The visible model transitions with this name, in declaration order. -/
def matching (model : Net) (label : String) : List Transition :=
  model.transitions.filter fun t ↦ t.kind = .model && t.name = label

/-- The `j`-th input arc of a synchronous move. -/
def inputArc (i k : Nat) (input : String × Nat) : Arc :=
  ⟨numbered (numbered ("arcin" ++ Text.showNat i) k) input.2, input.1, syncMoveId i k⟩

/-- The `j`-th output arc of a synchronous move. -/
def outputArc (i k : Nat) (output : String × Nat) : Arc :=
  ⟨numbered (numbered ("arcout" ++ Text.showNat i) k) output.2, syncMoveId i k, output.1⟩

/-- The arcs of the `k`-th synchronous move at position `i`: those of the model transition, and
the step on the chain. -/
def syncArcs (model : Net) (i : Nat) (move : Transition × Nat) : List Arc :=
  let k := move.2
  (model.preset move.1.id).zipIdx.map (inputArc i k) ++
    (model.postset move.1.id).zipIdx.map (outputArc i k) ++
    [⟨numbered (inArcId i) k, logPlaceId i, syncMoveId i k⟩,
      ⟨numbered (outArcId i) k, syncMoveId i k, logPlaceId (i + 1)⟩]

def logArcs (i : Nat) : List Arc :=
  [⟨inArcId i, logPlaceId i, logMoveId i⟩, ⟨outArcId i, logMoveId i, logPlaceId (i + 1)⟩]

/-- The log move and the synchronous moves for the label at position `i`. -/
def movesAt (model : Net) (position : String × Nat) : List Transition :=
  let (label, i) := position
  ⟨logMoveId i, label, label, .log⟩ ::
    (matching model label).zipIdx.map fun move ↦ ⟨syncMoveId i move.2, label, label, .sync⟩

def arcsAt (model : Net) (position : String × Nat) : List Arc :=
  let (label, i) := position
  logArcs i ++ (matching model label).zipIdx.flatMap (syncArcs model i)

/-- The log place after `i` labels; the token is on the first one. -/
def logPlace (i : Nat) : Place :=
  ⟨logPlaceId i, logPlaceId i, if i = 0 then 1 else 0, none, .log⟩

/-- The final marking of a chain of `n` labels. -/
def logFinal (n : Nat) : List (String × UInt64) :=
  (List.range n).map (fun i ↦ (logPlaceId i, 0)) ++ [(logPlaceId n, 1)]

/-- The count of the first pair with this id. -/
def finalCount? (final : List (String × UInt64)) (id : String) : Option UInt64 :=
  (final.find? (·.1 = id)).map (·.2)

/-- The transition under the tag of its kind. -/
def relabel (t : Transition) : Transition := { t with label := t.name, name := t.kind.tag }

/-- The product net of a model and a trace. -/
def net (model : Net) (trace : LabelTrace) : Net :=
  let final := model.final ++ logFinal trace.length
  { model with
    places := (model.places ++ (List.range (trace.length + 1)).map logPlace).map fun p ↦
      { p with final := finalCount? final p.id }
    transitions := (model.transitions ++ trace.zipIdx.flatMap (movesAt model)).map relabel
    arcs := model.arcs ++ trace.zipIdx.flatMap (arcsAt model)
    final := final }

end Product

structure SyncProduct where
  net : Net
  constraint : Constraint
  deriving DecidableEq, Repr

/-- The product of a model and a trace, with its final marking as a constraint. -/
def Net.product (model : Net) (trace : LabelTrace) : SyncProduct :=
  let net := Product.net model trace
  ⟨net, ⟨net.final⟩⟩

end PetriAlign
