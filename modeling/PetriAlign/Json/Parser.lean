import PetriAlign.Document
import PetriAlign.Json.Basic

/-!
# Reading JSON

A document holds one value and white space around it. Strings and numbers are checked for their
written form only.
-/

namespace PetriAlign.Json

/-- What a document lacks at the place where reading stops. -/
inductive Lack
  | valueEnd
  | listEnd
  | objectEnd
  | stringEnd
  | value
  | word
  | number
  | escape
  | plainCharacter
  | key
  | colon
  | listSeparator
  | objectSeparator
  | elementAfterComma
  | end_
  deriving DecidableEq, Repr

def Lack.message : Lack → String
  | valueEnd => "EOF while parsing a value"
  | listEnd => "EOF while parsing a list"
  | objectEnd => "EOF while parsing an object"
  | stringEnd => "EOF while parsing a string"
  | value => "expected value"
  | word => "expected ident"
  | number => "invalid number"
  | escape => "invalid escape"
  | plainCharacter => "control character found while parsing a string"
  | key => "key must be a string"
  | colon => "expected `:`"
  | listSeparator => "expected `,` or `]`"
  | objectSeparator => "expected `,` or `\x7d`"
  | elementAfterComma => "trailing comma"
  | end_ => "trailing characters"

inductive Error
  /-- The document is no JSON from this line and column on. -/
  | malformed (what : Lack) (line column : Nat)
  /-- The document is JSON, but not of the kind that was asked for. -/
  | unexpected
  | read (fault : ReadFault)
  deriving DecidableEq, Repr

def Error.message : Error → String
  | malformed what line column => what.message ++ s!" at line {line} column {column}"
  | unexpected => "unexpected kind of value"
  | read fault => fault.message

/-- Where reading stops: `left` bytes are not read. -/
structure Stuck where
  what : Lack
  left : Nat

/-- The line and the column of the byte before which `left` bytes are not read. At the end of the
document the last byte counts. -/
def Stuck.error (bytes : Bytes) (s : Stuck) : Error :=
  let before := bytes.take (min bytes.length (bytes.length - s.left + 1))
  .malformed s.what (before.count 0x0A + 1) (before.reverse.takeWhile (· ≠ 0x0A)).length

abbrev Reading (α : Type) := Except Stuck (α × Bytes)

def stuck {α : Type} (what : Lack) (rest : Bytes) : Reading α := .error ⟨what, rest.length⟩

def isSpace (b : UInt8) : Bool := b = 0x20 || b = 0x0A || b = 0x0D || b = 0x09

def skipSpace (bytes : Bytes) : Bytes := bytes.dropWhile isSpace

def isDigit (b : UInt8) : Bool := 0x30 ≤ b && b ≤ 0x39

def isHex (b : UInt8) : Bool := (hexValue? b).isSome

/-- Reads the rest of a string, up to its closing quotation mark; `written` is reversed. -/
def stringFrom (written : Bytes) : Bytes → Reading Bytes
  | [] => stuck .stringEnd []
  | 0x22 :: rest => .ok (written.reverse, rest)
  | 0x5C :: 0x75 :: a :: b :: c :: d :: rest =>
    if isHex a && isHex b && isHex c && isHex d then
      stringFrom (d :: c :: b :: a :: 0x75 :: 0x5C :: written) rest
    else stuck .escape rest
  | 0x5C :: letter :: rest =>
    if (shortEscape? letter).isSome then stringFrom (letter :: 0x5C :: written) rest
    else stuck .escape rest
  | b :: rest =>
    if b = 0x5C then stuck .stringEnd rest
    else if b < 0x20 then stuck .plainCharacter rest
    else stringFrom (b :: written) rest

/-- One digit at least, and all that follow. -/
def digits (bytes : Bytes) : Reading Bytes :=
  match bytes.takeWhile isDigit with
  | [] => stuck .number bytes
  | found => .ok (found, bytes.dropWhile isDigit)

/-- Digits without a leading zero. -/
def whole (bytes : Bytes) : Except Stuck (Bytes × Bytes) := do
  let (found, rest) ← digits bytes
  if found.length > 1 ∧ found.head? = some 0x30 then stuck .number rest
  else return (found, rest)

/-- A point and digits, or nothing. -/
def fraction : Bytes → Except Stuck (Bytes × Bytes)
  | 0x2E :: rest => do
    let (found, rest) ← digits rest
    return (0x2E :: found, rest)
  | bytes => .ok ([], bytes)

/-- A power of ten, or nothing. -/
def exponent (bytes : Bytes) : Except Stuck (Bytes × Bytes) :=
  match bytes with
  | [] => .ok ([], [])
  | e :: rest =>
    if e = 0x65 ∨ e = 0x45 then
      match rest with
      | [] => stuck .number []
      | sign :: after =>
        if sign = 0x2B ∨ sign = 0x2D then do
          let (found, rest) ← digits after
          return (e :: sign :: found, rest)
        else do
          let (found, rest) ← digits rest
          return (e :: found, rest)
    else .ok ([], bytes)

def numberFrom (bytes : Bytes) : Except Stuck (Json × Bytes) := do
  let (sign, rest) : Bytes × Bytes := match bytes with
    | 0x2D :: rest => ([0x2D], rest)
    | _ => ([], bytes)
  let (whole, rest) ← whole rest
  let (fraction, rest) ← fraction rest
  let (exponent, rest) ← exponent rest
  return (.number (sign ++ whole ++ fraction ++ exponent), rest)

/-- Reads a word that has one meaning. -/
def word (expected : String) (value : Json) (bytes : Bytes) : Reading Json :=
  let expected := Utf8.encode expected
  if expected.isPrefixOf bytes then .ok (value, bytes.drop expected.length)
  else stuck .word bytes

/-- Reads a value that is no list and no object. -/
def scalar (bytes : Bytes) : Reading Json :=
  match bytes with
  | [] => stuck .valueEnd []
  | b :: rest =>
    if b = 0x22 then (stringFrom [] rest).map fun (written, rest) ↦ (.string written, rest)
    else if b = 0x2D ∨ isDigit b then numberFrom bytes
    else if b = 0x6E then word "null" .null bytes
    else if b = 0x74 then word "true" (.bool true) bytes
    else if b = 0x66 then word "false" (.bool false) bytes
    else stuck .value bytes

/-- Reads a key and the colon after it. -/
def key (bytes : Bytes) : Except Stuck (Bytes × Bytes) :=
  match bytes with
  | [] => stuck .objectEnd []
  | 0x22 :: rest => do
    let (written, rest) ← stringFrom [] rest
    match skipSpace rest with
    | [] => stuck .objectEnd []
    | 0x3A :: rest => return (written, rest)
    | rest => stuck .colon rest
  | _ => stuck .key bytes

mutual

/-- Reads a value; each list, object, element and member takes one unit of fuel. -/
def valueFrom : Nat → Bytes → Reading Json
  | 0, bytes => stuck .valueEnd bytes
  | fuel + 1, bytes =>
    match skipSpace bytes with
    | 0x5B :: rest =>
      match skipSpace rest with
      | 0x5D :: rest => .ok (.array [], rest)
      | rest => (elementsFrom fuel [] rest).map fun (elements, rest) ↦ (.array elements, rest)
    | 0x7B :: rest =>
      match skipSpace rest with
      | 0x7D :: rest => .ok (.object [], rest)
      | rest => (membersFrom fuel [] rest).map fun (members, rest) ↦ (.object members, rest)
    | rest => scalar rest

/-- Reads the elements of a list up to its bracket; those in `read` are reversed. -/
def elementsFrom : Nat → List Json → Bytes → Reading (List Json)
  | 0, _, bytes => stuck .listEnd bytes
  | fuel + 1, read, bytes =>
    if (skipSpace bytes).isEmpty then stuck .listEnd []
    else
      match valueFrom fuel bytes with
      | .error e => .error e
      | .ok (element, rest) =>
        match skipSpace rest with
        | [] => stuck .listEnd []
        | 0x5D :: rest => .ok ((element :: read).reverse, rest)
        | 0x2C :: rest =>
          if (skipSpace rest).head? = some 0x5D then stuck .elementAfterComma (skipSpace rest)
          else elementsFrom fuel (element :: read) rest
        | rest => stuck .listSeparator rest

/-- Reads the members of an object up to its brace; those in `read` are reversed. -/
def membersFrom : Nat → List (Bytes × Json) → Bytes → Reading (List (Bytes × Json))
  | 0, _, bytes => stuck .objectEnd bytes
  | fuel + 1, read, bytes =>
    match key (skipSpace bytes) with
    | .error e => .error e
    | .ok (name, rest) =>
      match valueFrom fuel rest with
      | .error e => .error e
      | .ok (value, rest) =>
        match skipSpace rest with
        | [] => stuck .objectEnd []
        | 0x7D :: rest => .ok (((name, value) :: read).reverse, rest)
        | 0x2C :: rest =>
          if (skipSpace rest).head? = some 0x7D then stuck .elementAfterComma (skipSpace rest)
          else membersFrom fuel ((name, value) :: read) rest
        | rest => stuck .objectSeparator rest

end

/-- The value of a document. Each unit of fuel goes to a bracket, or to an element or a member of
at least one byte, so two units for each byte are enough. -/
def parse (bytes : Bytes) : Except Error Json :=
  match valueFrom (2 * bytes.length + 2) bytes with
  | .error s => .error (s.error bytes)
  | .ok (value, rest) =>
    match skipSpace rest with
    | [] => .ok value
    | rest => .error (Stuck.error bytes ⟨.end_, rest.length⟩)

/-- Reads a document that holds a value of a known kind. -/
def read {α : Type} (ofJson? : Json → Option α) (d : Document) : Except Error α := do
  let bytes ← d.whole.mapError .read
  let value ← parse bytes
  match ofJson? value with
  | some x => return x
  | none => throw .unexpected

end PetriAlign.Json
