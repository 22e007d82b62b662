import PetriAlign.Fault
import PetriAlign.Text.Utf8

/-!
# What can be wrong with an XML document

Each error has one text, and a list of causes: its own text, then the texts of what lies under it.
-/

namespace PetriAlign.Xml

/-- Markup that is not closed, or that begins like none. -/
inductive Malformed
  | tag
  | unknownMarkup
  | instruction
  | comment
  | doctype
  | cdata
  deriving DecidableEq, Repr

def Malformed.message : Malformed → String
  | tag => "tag not closed: `>` not found before end of input"
  | unknownMarkup => "unknown or missed symbol in markup"
  | instruction =>
    "processing instruction or xml declaration not closed: `?>` not found before end of input"
  | comment => "comment not closed: `-->` not found before end of input"
  | doctype => "DOCTYPE not closed: `>` not found before end of input"
  | cdata => "CDATA not closed: `]]>` not found before end of input"

/-- Closed markup that is out of place. -/
inductive IllFormed
  /-- An end tag that closes another element than the open one. -/
  | mismatchedEnd (expected found : String)
  /-- An end tag where no element is open. -/
  | unmatchedEnd (found : String)
  | unnamedDoctype
  deriving DecidableEq, Repr

def IllFormed.message : IllFormed → String
  | mismatchedEnd expected found => s!"expected `</{expected}>`, but `</{found}>` was found"
  | unmatchedEnd found => s!"close tag `</{found}>` does not match any open tag"
  | unnamedDoctype => "`<!DOCTYPE>` declaration does not contain a name of a document type"

/-- A character reference that names no character. -/
inductive ReferenceError
  | zero
  | noCodePoint (code : Nat)
  | sign
  | empty
  | invalidDigit
  | overflow
  deriving DecidableEq, Repr

def ReferenceError.message : ReferenceError → String
  | zero => "0x0 character is not permitted in XML"
  | noCodePoint code => s!"`{code}` is not a valid codepoint"
  | sign => "unexpected number sign"
  | empty => "cannot parse integer from empty string"
  | invalidDigit => "invalid digit found in string"
  | overflow => "number too large to fit in target type"

/-- Whether the number itself could not be read. -/
def ReferenceError.isNumeral : ReferenceError → Bool
  | empty | invalidDigit | overflow => true
  | _ => false

inductive EntityError
  /-- The bytes `first` to `last` of the text name no known entity. -/
  | unrecognized (first last : Nat) (name : String)
  /-- The text has `last` bytes, and the reference at byte `first` does not end. -/
  | unterminated (first last : Nat)
  | reference (error : ReferenceError)
  deriving DecidableEq, Repr

def EntityError.message : EntityError → String
  | unrecognized first last name => s!"at {first}..{last}: unrecognized entity `{name}`"
  | unterminated first last =>
    s!"Error while escaping character at range {first}..{last}: Cannot find ';' after '&'"
  | reference error => "invalid character reference: " ++ error.message

inductive Error
  | malformed (what : Malformed)
  | illFormed (what : IllFormed)
  | encoding (fault : Utf8.Fault)
  | entity (error : EntityError)
  | read (fault : ReadFault)
  deriving DecidableEq, Repr

namespace Error

def message : Error → String
  | malformed what => "syntax error: " ++ what.message
  | illFormed what => "ill-formed document: " ++ what.message
  | encoding fault => "cannot decode input using UTF-8: " ++ fault.message
  | entity error => error.message
  | read fault => "I/O error: " ++ fault.message

def causes (e : Error) : List String :=
  e.message ::
    match e with
    | malformed what => [what.message]
    | illFormed what => [what.message]
    | encoding fault => [e.message, fault.message]
    | entity (.reference error) =>
      e.message :: error.message :: if error.isNumeral then [error.message] else []
    | entity _ => [e.message]
    | read fault => [fault.message]

end Error

end PetriAlign.Xml
