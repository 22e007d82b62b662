/-!
# Lines and search

Splitting at a terminator, cutting at the first occurrence of a pattern, and testing whether a
pattern occurs, for sequences of characters and of bytes alike.
-/

namespace PetriAlign.Text

variable {α : Type} [DecidableEq α]

/-- Whether `pattern` stands somewhere in the sequence. -/
def occurs (pattern : List α) : List α → Bool
  | [] => pattern.isEmpty
  | x :: xs => pattern.isPrefixOf (x :: xs) || occurs pattern xs

/-- What stands before and after the first occurrence of `pattern`; `before` is reversed. -/
def cutFrom (pattern : List α) (before : List α) : List α → Option (List α × List α)
  | [] => if pattern.isEmpty then some (before.reverse, []) else none
  | x :: xs =>
    if pattern.isPrefixOf (x :: xs) then some (before.reverse, (x :: xs).drop pattern.length)
    else cutFrom pattern (x :: before) xs

def cut (pattern : List α) (xs : List α) : Option (List α × List α) := cutFrom pattern [] xs

/-- Takes one trailing `mark` off a reversed line. -/
def dropMark (mark : α) : List α → List α
  | [] => []
  | x :: xs => if x = mark then xs else x :: xs

/-- Lines end at `feed`, and one `mark` right before it belongs to the end. What follows the last
`feed` is a line only if it is not empty. -/
def linesFrom (feed mark : α) (line : List α) : List α → List (List α)
  | [] => if line.isEmpty then [] else [line.reverse]
  | x :: xs =>
    if x = feed then (dropMark mark line).reverse :: linesFrom feed mark [] xs
    else linesFrom feed mark (x :: line) xs

def lines (cs : List Char) : List (List Char) := linesFrom '\n' '\r' [] cs

def byteLines (bytes : List UInt8) : List (List UInt8) := linesFrom 10 13 [] bytes

/-- The pieces between the occurrences of `separator`: one more piece than occurrences. -/
def pieces (separator : α) : List α → List (List α)
  | [] => [[]]
  | x :: xs =>
    if x = separator then [] :: pieces separator xs
    else
      match pieces separator xs with
      | [] => [[x]]
      | piece :: others => (x :: piece) :: others

end PetriAlign.Text
