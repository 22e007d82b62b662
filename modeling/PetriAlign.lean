import PetriAlign.Main
import PetriAlign.Proofs.Except
import PetriAlign.Proofs.Net.Counts
import PetriAlign.Proofs.Net.Takes
import PetriAlign.Proofs.Text.Numeral
import PetriAlign.Proofs.Replay.Vector
import PetriAlign.Proofs.Replay.Explanation
import PetriAlign.Proofs.Replay.Exactness
import PetriAlign.Proofs.Product.Moves
import PetriAlign.Proofs.Net.Firing
import PetriAlign.Proofs.Product.Arcs
import PetriAlign.Proofs.Product.Marking
import PetriAlign.Proofs.Product.Runs
import PetriAlign.Proofs.Product.Alignment
import PetriAlign.Proofs.Text.Strip
import PetriAlign.Proofs.Text.Utf8
import PetriAlign.Proofs.Xml.Entity
import PetriAlign.Proofs.Xml.Attribute
import PetriAlign.Proofs.Xml.Piece
import PetriAlign.Proofs.Xml.Markup
import PetriAlign.Proofs.Pnml.Elements
import PetriAlign.Proofs.Pnml.Draft
import PetriAlign.Proofs.Pnml.RoundTrip
import PetriAlign.Proofs.StateGraph.Search
import PetriAlign.Proofs.StateGraph.Exactness
import PetriAlign.Proofs.Replay.Signature
import PetriAlign.Proofs.Replay.Agreement
import PetriAlign.Proofs.Pnml.Resolved
import PetriAlign.Proofs.Product.Written
import PetriAlign.Proofs.Xml.Source
import PetriAlign.Proofs.Xml.Scan
import PetriAlign.Proofs.Xml.Stream
import PetriAlign.Proofs.EventLog.Xes
import PetriAlign.Proofs.Pnml.Grammar
import PetriAlign.Proofs.Pnml.Labels
import PetriAlign.Proofs.Pnml.Declarations
import PetriAlign.Proofs.Pnml.Meaning
import PetriAlign.Proofs.FileTree.Directories
import PetriAlign.Proofs.FileTree.Replace
import PetriAlign.Proofs.FileTree.Locality
import PetriAlign.Proofs.Batch.Failure
import PetriAlign.Proofs.Batch.Places
import PetriAlign.Proofs.Batch.Order
import PetriAlign.Proofs.Product.ConstraintText
import PetriAlign.Proofs.Product.ZeroTargets
import PetriAlign.Proofs.StateGraph.Limits
import PetriAlign.Proofs.Pnml.WellFormed
import PetriAlign.Proofs.Text.Search
import PetriAlign.Proofs.Text.Words
import PetriAlign.Proofs.Snapshot.Reader
import PetriAlign.Proofs.Snapshot.Written
import PetriAlign.Proofs.Replay.Policies
import PetriAlign.Proofs.Text.Tagged
import PetriAlign.Proofs.Product.Shape
import PetriAlign.Proofs.Product.Distinct
import PetriAlign.Proofs.Snapshot.Grammar
import PetriAlign.Proofs.Replay.FromText
import PetriAlign.Proofs.Replay.Accounting
import PetriAlign.Proofs.Replay.Listing
import PetriAlign.Proofs.Text.ByteLines
import PetriAlign.Proofs.Snapshot.Bytes
import PetriAlign.Proofs.Product.FinalMarking
import PetriAlign.Proofs.Batch.Model
import PetriAlign.Proofs.Batch.Reload
import PetriAlign.Proofs.Dot.Quoted
import PetriAlign.Proofs.Dot.Drawing
import PetriAlign.Proofs.Dot.Label
import PetriAlign.Proofs.EventLog.OpenedTraces
import PetriAlign.Proofs.EventLog.Csv
import PetriAlign.Proofs.Json.Scalar
import PetriAlign.Proofs.Json.Printed
import PetriAlign.Proofs.Json.Net
