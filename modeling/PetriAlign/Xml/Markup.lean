import PetriAlign.Text.Utf8
import PetriAlign.Xml.Entity

/-!
# Writing XML

A document is a tree of elements. Each element begins on a line of its own, two blanks further in
than what holds it, and so does the end tag of an element that was written with its content. An
element that holds text has both tags on the line of the text.
-/

namespace PetriAlign.Xml

inductive Markup
  /-- An element around others, even if there are none. -/
  | element (name : String) (attributes : List (String × String)) (content : List Markup)
  | text (name content : String)
  /-- An element without content, written as one tag. -/
  | empty (name : String) (attributes : List (String × String))
  deriving Repr, Inhabited

namespace Markup

def renderAttribute (a : String × String) : List Char :=
  ' ' :: a.1.toList ++ '=' :: '\x22' :: escape a.2 ++ ['\x22']

/-- The name and the attributes of a tag. -/
def renderTag (name : String) (attributes : List (String × String)) : List Char :=
  name.toList ++ attributes.flatMap renderAttribute

def renderEnd (name : String) : List Char := '<' :: '/' :: name.toList ++ ['>']

/-- A new line, indented by `depth` steps. -/
def newLine (depth : Nat) : List Char := '\n' :: List.replicate (2 * depth) ' '

mutual

/-- An element with the line break before it. -/
def render (depth : Nat) : Markup → List Char
  | element name attributes content =>
    newLine depth ++ '<' :: renderTag name attributes ++ '>' :: renderAll (depth + 1) content ++
      newLine depth ++ renderEnd name
  | text name content =>
    newLine depth ++ '<' :: name.toList ++ '>' :: escape content ++ renderEnd name
  | empty name attributes => newLine depth ++ '<' :: renderTag name attributes ++ ['/', '>']

def renderAll (depth : Nat) : List Markup → List Char
  | [] => []
  | m :: rest => m.render depth ++ renderAll depth rest

end

/-- The document with this root element. -/
def document (root : Markup) : List Char :=
  "<?xml version=\"1.0\" encoding=\"UTF-8\"?>".toList ++ root.render 0

end Markup

end PetriAlign.Xml
