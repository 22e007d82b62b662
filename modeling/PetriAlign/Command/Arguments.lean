import PetriAlign.Text.Numeral
import PetriAlign.Text.Search

/-!
# Command line arguments

Options and words in any order. An option has a long name after two dashes and maybe a letter after
one; letters may be written together. The value of an option stands in the same argument after an
equals sign or, for letters, right after it, or else in the next argument. After two dashes alone
everything is a word. No option is given twice. What is read is checked before the next argument, so
the first thing that is wrong or asks for help decides.
-/

namespace PetriAlign.Command

/-- What the value of an option may be. -/
inductive ValueKind
  | path
  | count
  deriving DecidableEq, Repr

def ValueKind.accepts (kind : ValueKind) (value : String) : Bool :=
  match kind with
  | path => value ≠ ""
  | count => (Text.readCount? value.toList).isSome

structure OptionSpec where
  long : String
  letter : Option Char := none
  /-- The kind of its value, if it takes one. -/
  value : Option ValueKind := none
  deriving DecidableEq, Repr

/-- What was given so far, in reverse. -/
structure Given where
  options : List (OptionSpec × String) := []
  words : List String := []
  deriving DecidableEq, Repr

/-- Why arguments are not read. -/
inductive Refusal
  /-- They ask for help. -/
  | help
  | invalid
  deriving DecidableEq, Repr

namespace Given

def flag (g : Given) (long : String) : Bool := g.options.any (·.1.long = long)

def value? (g : Given) (long : String) : Option String :=
  (g.options.find? (·.1.long = long)).map (·.2)

def addOption (g : Given) (spec : OptionSpec) (value : String) : Except Refusal Given :=
  if g.flag spec.long || spec.value.any (!·.accepts value) then .error .invalid
  else .ok { g with options := (spec, value) :: g.options }

/-- Adds a word, which is a path, to `capacity` words at most. -/
def addWord (capacity : Nat) (g : Given) (word : String) : Except Refusal Given :=
  if capacity ≤ g.words.length ∨ !ValueKind.path.accepts word then .error .invalid
  else .ok { g with words := word :: g.words }

end Given

/-- Whether an argument is an option, as far as its first letters tell. -/
def looksLikeOption (argument : List Char) : Bool :=
  match argument with
  | '-' :: _ :: _ => true
  | _ => false

/-- An option that still needs a value may be left at the end of an argument. -/
abbrev Scanned := Except Refusal (Given × Option OptionSpec)

/-- Adds an option with the value in its argument, if there is one. -/
def addGiven (g : Given) (spec : OptionSpec) (value : Option String) : Scanned :=
  match spec.value, value with
  | none, none => (g.addOption spec "").map fun g ↦ (g, none)
  | none, some _ => .error .invalid
  | some _, some value => (g.addOption spec value).map fun g ↦ (g, none)
  | some _, none => .ok (g, some spec)

/-- Reads an option from after its two dashes on. -/
def scanLong (specs : List OptionSpec) (g : Given) (argument : List Char) : Scanned :=
  let name := String.ofList (argument.takeWhile (· ≠ '='))
  let value := match argument.dropWhile (· ≠ '=') with
    | [] => none
    | _ :: value => some (String.ofList value)
  match specs.find? (·.long = name) with
  | some spec => addGiven g spec value
  | none => .error (if name = "help" ∧ value = none then .help else .invalid)

/-- Reads letters from after their dash on. -/
def scanLetters (specs : List OptionSpec) (g : Given) : List Char → Scanned
  | [] => .ok (g, none)
  | c :: rest =>
    match specs.find? (·.letter = some c) with
    | none => .error (if c = 'h' then .help else .invalid)
    | some spec =>
      if spec.value.isSome then
        match rest with
        | [] => addGiven g spec none
        | '=' :: value => addGiven g spec (some (.ofList value))
        | value => addGiven g spec (some (.ofList value))
      else
        match g.addOption spec "" with
        | .error e => .error e
        | .ok g => scanLetters specs g rest

/-- Reads one argument that is an option. -/
def scanOption (specs : List OptionSpec) (g : Given) (argument : List Char) : Scanned :=
  match argument with
  | '-' :: '-' :: rest => scanLong specs g rest
  | _ :: rest => scanLetters specs g rest
  | [] => .error .invalid

/-- Reads the arguments of a command with `capacity` words at most. -/
def scanArguments (specs : List OptionSpec) (capacity : Nat) (g : Given) :
    List String → Except Refusal Given
  | [] => .ok g
  | argument :: rest =>
    if argument = "--" then rest.foldlM (Given.addWord capacity) g
    else if looksLikeOption argument.toList then
      match scanOption specs g argument.toList with
      | .error e => .error e
      | .ok (g, none) => scanArguments specs capacity g rest
      | .ok (g, some spec) =>
        match rest with
        | [] => .error .invalid
        | value :: rest =>
          if looksLikeOption value.toList then .error .invalid
          else
            match g.addOption spec value with
            | .error e => .error e
            | .ok g => scanArguments specs capacity g rest
    else
      match g.addWord capacity argument with
      | .error e => .error e
      | .ok g => scanArguments specs capacity g rest

/-- An option whose value is an argument of its own. -/
abbrev Pending := Option (OptionSpec × String)

def Given.settle (g : Given) (pending : Pending) : Except Refusal Given :=
  match pending with
  | none => .ok g
  | some (spec, value) => g.addOption spec value

/-- The arguments up to the name of a command, and those after it. An option whose value stands
right before the name is pending: it is only settled after the arguments of the command. -/
structure Opening where
  given : Given
  pending : Pending
  name : String
  rest : List String
  deriving DecidableEq, Repr

/-- Reads options up to the name of a command. -/
def scanOpening (specs : List OptionSpec) (g : Given) (pending : Pending) :
    List String → Except Refusal Opening
  | [] => .error .invalid
  | argument :: rest =>
    if looksLikeOption argument.toList then
      match g.settle pending with
      | .error e => .error e
      | .ok g =>
        match scanOption specs g argument.toList with
        | .error e => .error e
        | .ok (g, none) => scanOpening specs g none rest
        | .ok (g, some spec) =>
          match rest with
          | [] => .error .invalid
          | value :: rest =>
            if looksLikeOption value.toList then .error .invalid
            else scanOpening specs g (some (spec, value)) rest
    else .ok ⟨g, pending, argument, rest⟩

end PetriAlign.Command
