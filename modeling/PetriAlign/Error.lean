import PetriAlign.EventLog.Csv
import PetriAlign.Json.Parser
import PetriAlign.Net.Kind
import PetriAlign.Xml.Error

/-!
# Errors

What can be wrong with an input, with a replay, with a file or with a request, each with its text.
`Error.causes` lists the texts from the outermost error to the innermost.
-/

namespace PetriAlign

/-- What is wrong with a line of a snapshot trace. -/
inductive LineFault
  /-- An action line without the tag of a kind. -/
  | noKind (line : String)
  /-- A place line of less than three words. -/
  | shortRecord (line : String)
  | badCount (word : String)
  deriving DecidableEq, Repr

def LineFault.message : LineFault → String
  | noKind line => s!"no move kind in action line `{line}`"
  | shortRecord line => s!"unable to parse place record `{line}`"
  | badCount word => s!"invalid token count `{word}`"

inductive ParseError
  | xml (error : Xml.Error)
  | csv (error : Csv.Error)
  | json (error : Json.Error)
  | noPnmlElement
  | noLogElement
  | missingKey (element key : String)
  | badCount (place written : String)
  | unknownKind (tag : String)
  | unknownEnd (arc node : String)
  /-- An arc between two places or two transitions. -/
  | badArc (arc : String)
  | badWeight (arc weight : String)
  | unknownFinalPlace (place : String)
  | noFinalMarking
  | unknownLogFormat (path : String)
  | line (number : Nat) (fault : LineFault)
  deriving DecidableEq, Repr

def ParseError.message : ParseError → String
  | xml error => "XML error: " ++ error.message
  | csv error => "CSV error: " ++ error.message
  | json error => "JSON error: " ++ error.message
  | noPnmlElement => "no <pnml> tag found"
  | noLogElement => "no top-level <log> tag found"
  | missingKey element key => s!"<{element}> is missing the `{key}` attribute"
  | badCount place written => s!"invalid token count `{written}` for place `{place}`"
  | unknownKind tag => s!"unknown kind tag `{tag}`"
  | unknownEnd arc node => s!"arc `{arc}` references unknown node `{node}`"
  | badArc arc => s!"arc `{arc}` must connect a place and a transition"
  | badWeight arc weight =>
    s!"arc `{arc}` has weight `{weight}`, only unit arcs are supported"
  | unknownFinalPlace place => s!"final marking references unknown place `{place}`"
  | noFinalMarking => "unable to parse final markings, is the PNML an accepting net?"
  | unknownLogFormat path =>
    s!"unknown file extension for log file `{path}` (expected .csv, .xes or .xes.gz)"
  | line number fault => s!"line {number}: " ++ fault.message

def ParseError.causes (e : ParseError) : List String :=
  e.message ::
    match e with
    | xml error => error.causes
    | csv error => [error.message]
    | json error => [error.message]
    | _ => []

/-- Why a net and a snapshot trace do not belong together. Step 0 is the initial one. -/
inductive ReplayError
  | missingInitial
  | unexpectedInitial (step : Nat)
  | noMatch (step : Nat) (kind : TransitionKind)
  | unknownPlace (step : Nat) (place : String)
  | unknownSignature (step : Nat) (signature : String)
  deriving DecidableEq, Repr

def ReplayError.message : ReplayError → String
  | missingInitial => "trace does not start with an INITIAL step"
  | unexpectedInitial step => s!"step {step}: unexpected INITIAL step"
  | noMatch step kind =>
    let tag := kind.tag
    s!"step {step}: no {tag} transition explains the marking change, "
      ++ "are the input files up to date?"
  | unknownPlace step place => s!"step {step}: unknown place `{place}`"
  | unknownSignature step signature =>
    s!"step {step}: unable to form transition from marking difference `{signature}`, "
      ++ "are the input files up to date?"

inductive Error
  | parse (error : ParseError)
  | replay (error : ReplayError)
  | read (fault : ReadFault)
  | usage (message : String)
  deriving DecidableEq, Repr

namespace Error

def message : Error → String
  | parse error => "parse error: " ++ error.message
  | replay error => "replay error: " ++ error.message
  | read fault => "IO error: " ++ fault.message
  | usage message => "usage error: " ++ message

def causes (e : Error) : List String :=
  e.message ::
    match e with
    | parse error => error.causes
    | replay error => [error.message]
    | read fault => [fault.message]
    | usage _ => []

end Error

end PetriAlign
