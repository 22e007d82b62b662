/-!
# DOT

Directed graphs in the DOT language, one statement to a line. A quoted string ends at the first
quotation mark that no backslash precedes; `escape` writes a text so that it has none.
-/

namespace PetriAlign.Dot

/-- The written form of a character in a label. -/
def escapeChar (c : Char) : List Char :=
  if c = '\\' then ['\\', '\\'] else if c = '\x22' then ['\\', '\x22'] else [c]

def escape (s : String) : String := .ofList (s.toList.flatMap escapeChar)

inductive Value
  | plain (written : String)
  /-- A string in quotation marks, written as it is. -/
  | quoted (written : String)
  deriving DecidableEq, Repr

namespace Value

/-- The quoted string that reads as this text. -/
def label (text : String) : Value := quoted (escape text)

def render : Value → String
  | plain written => written
  | quoted written => "\"" ++ written ++ "\""

end Value

abbrev Attributes := List (String × Value)

def renderAttribute (a : String × Value) : String := a.1 ++ "=" ++ a.2.render

def renderAttributes (as : Attributes) : String :=
  "[" ++ " ".intercalate (as.map renderAttribute) ++ "]"

inductive Statement
  | setting (name : String) (value : Value)
  | node (id : Value) (attributes : Attributes)
  | edge (source target : Value) (attributes : Attributes)
  deriving DecidableEq, Repr

def Statement.render : Statement → String
  | setting name value => renderAttribute (name, value)
  | node id attributes => id.render ++ renderAttributes attributes
  | edge source target attributes =>
    source.render ++ " -> " ++ target.render ++ " " ++ renderAttributes attributes

inductive Item
  | statement (s : Statement)
  | subgraph (name : String) (statements : List Statement)
  deriving DecidableEq, Repr

def Item.lines : Item → List String
  | statement s => ["  " ++ s.render]
  | subgraph name statements =>
    ("  subgraph " ++ name ++ " \x7b") :: statements.map ("    " ++ ·.render) ++ ["  \x7d"]

structure Graph where
  /-- Whether parallel edges are one. -/
  strict : Bool
  id : Value
  items : List Item
  deriving DecidableEq, Repr

def Graph.header (g : Graph) : String :=
  (if g.strict then "strict " else "") ++ "digraph " ++ g.id.render ++ " \x7b"

def Graph.render (g : Graph) : String :=
  "\n".intercalate (g.header :: g.items.flatMap Item.lines ++ ["\x7d"])

end PetriAlign.Dot
