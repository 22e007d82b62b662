import PetriAlign.Json.Basic

/-!
# Writing JSON

The compact form has no white space. The indented form puts each element and each member on a line
of its own, two blanks further in than what holds it.
-/

namespace PetriAlign.Json

mutual

def print : Json → Bytes
  | null => Utf8.encode "null"
  | bool value => Utf8.encode (if value then "true" else "false")
  | number written => written
  | string written => 0x22 :: written ++ [0x22]
  | array elements => 0x5B :: printElements elements ++ [0x5D]
  | object members => 0x7B :: printMembers members ++ [0x7D]

def printElements : List Json → Bytes
  | [] => []
  | [element] => element.print
  | element :: rest => element.print ++ 0x2C :: printElements rest

def printMembers : List (Bytes × Json) → Bytes
  | [] => []
  | [(key, value)] => 0x22 :: key ++ 0x22 :: 0x3A :: value.print
  | (key, value) :: rest =>
    0x22 :: key ++ 0x22 :: 0x3A :: value.print ++ 0x2C :: printMembers rest

end

/-- A new line, indented by `depth` steps. -/
def newLine (depth : Nat) : Bytes := 0x0A :: List.replicate (2 * depth) 0x20

mutual

def printIndented (depth : Nat) : Json → Bytes
  | array (element :: rest) =>
    0x5B :: indentedElements (depth + 1) (element :: rest) ++ newLine depth ++ [0x5D]
  | object (member :: rest) =>
    0x7B :: indentedMembers (depth + 1) (member :: rest) ++ newLine depth ++ [0x7D]
  | value => value.print

def indentedElements (depth : Nat) : List Json → Bytes
  | [] => []
  | [element] => newLine depth ++ element.printIndented depth
  | element :: rest =>
    newLine depth ++ element.printIndented depth ++ 0x2C :: indentedElements depth rest

def indentedMembers (depth : Nat) : List (Bytes × Json) → Bytes
  | [] => []
  | [(key, value)] =>
    newLine depth ++ 0x22 :: key ++ 0x22 :: 0x3A :: 0x20 :: value.printIndented depth
  | (key, value) :: rest =>
    newLine depth ++ 0x22 :: key ++ 0x22 :: 0x3A :: 0x20 :: value.printIndented depth ++
      0x2C :: indentedMembers depth rest

end

/-- The compact text of a value. -/
def text (j : Json) : String := Utf8.decodeLossy j.print

/-- The indented text of a value. -/
def indentedText (j : Json) : String := Utf8.decodeLossy (j.printIndented 0)

end PetriAlign.Json
