import PetriAlign.Command.Arguments

/-!
# Commands

The commands of the program, and how arguments name them.
-/

namespace PetriAlign

inductive Command
  /-- Write the products of a model and the traces of a log. -/
  | buildProduct (model log outDir : String) (dot sequential : Bool)
  /-- Turn the snapshots of a run of a product into an alignment. -/
  | replay (product trace : String) (legacy : Bool) (dot : Option String) (json : Bool)
  /-- Print the size of a net. -/
  | inspect (model : String)
  /-- Write the state graph of a net. -/
  | stateGraph (model out : String) (limit : Option Nat)
  deriving DecidableEq, Repr

/-- A command with the settings it is run under. -/
structure Invocation where
  command : Command
  /-- The file of settings. -/
  config : Option String
  deriving DecidableEq, Repr

namespace Command

/-- The options of all commands. -/
def globalOptions : List OptionSpec :=
  [{ long := "verbose", letter := some 'v' },
    { long := "config", letter := some 'c', value := some .path }]

/-- What the arguments of a command may be: its own options, and how many words. -/
structure Form where
  options : List OptionSpec
  words : Nat
  deriving DecidableEq, Repr

def form? : String → Option Form
  | "build-product" => some ⟨[{ long := "dot" }, { long := "sequential" }], 3⟩
  | "replay" =>
    some ⟨[{ long := "legacy" }, { long := "dot", value := some .path }, { long := "json" }], 2⟩
  | "inspect" => some ⟨[], 1⟩
  | "marking-graph" => some ⟨[{ long := "limit", value := some .count }], 2⟩
  | _ => none

def limit? (g : Given) : Option Nat :=
  (g.value? "limit").bind fun value ↦ (Text.readCount? value.toList).map (·.toNat)

/-- The command of this name with these words and options. -/
def ofGiven? (name : String) (g : Given) : Option Command :=
  match name, g.words.reverse with
  | "build-product", [model, log, outDir] =>
    some (.buildProduct model log outDir (g.flag "dot") (g.flag "sequential"))
  | "replay", [product, trace] =>
    some (.replay product trace (g.flag "legacy") (g.value? "dot") (g.flag "json"))
  | "inspect", [model] => some (.inspect model)
  | "marking-graph", [model, out] => some (.stateGraph model out (limit? g))
  | _, _ => none

/-- Whether there is help on what these arguments name: on everything, or on one command. -/
def hasHelp : List String → Bool
  | [] => true
  | [name] => name = "help" || (form? name).isSome
  | _ => false

end Command

/-- Reads the arguments of the program. Options that stand before the command belong to all
commands; one that also stands after it counts as given there. -/
def Invocation.ofArguments (arguments : List String) : Except Command.Refusal Invocation := do
  let opening ← Command.scanOpening Command.globalOptions {} none arguments
  match Command.form? opening.name with
  | none =>
    throw (if opening.name = "help" ∧ Command.hasHelp opening.rest then .help else .invalid)
  | some form =>
    let inner ←
      Command.scanArguments (Command.globalOptions ++ form.options) form.words {} opening.rest
    let outer ← opening.given.settle opening.pending
    match Command.ofGiven? opening.name inner with
    | some command => return ⟨command, (inner.value? "config").or (outer.value? "config")⟩
    | none => throw .invalid

end PetriAlign
