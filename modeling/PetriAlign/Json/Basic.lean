import PetriAlign.Text.Numeral
import PetriAlign.Text.Utf8

/-!
# JSON values

A value keeps its strings and numbers as they are written. They are read where they are used, so a
member that nobody asks for may hold a string that stands for no text, or a number of any size.
-/

namespace PetriAlign

inductive Json
  | null
  | bool (value : Bool)
  | number (written : Bytes)
  /-- A string, as it is written between its quotation marks. -/
  | string (written : Bytes)
  | array (elements : List Json)
  /-- An object with its members in order; its keys are written like strings. -/
  | object (members : List (Bytes × Json))
  deriving Repr, Inhabited

namespace Json

/-- The digit of a number below sixteen. -/
def hexDigit (d : Nat) : UInt8 := .ofNat (if d < 10 then 48 + d else 87 + d)

def hexValue? (b : UInt8) : Option Nat :=
  let n := b.toNat
  if 48 ≤ n && n ≤ 57 then some (n - 48)
  else if 97 ≤ n && n ≤ 102 then some (n - 87)
  else if 65 ≤ n && n ≤ 70 then some (n - 55)
  else none

/-- The byte that a one-letter escape stands for. -/
def shortEscape? (letter : UInt8) : Option UInt8 :=
  if letter = 0x22 ∨ letter = 0x5C ∨ letter = 0x2F then some letter
  else if letter = 0x62 then some 0x08
  else if letter = 0x66 then some 0x0C
  else if letter = 0x6E then some 0x0A
  else if letter = 0x72 then some 0x0D
  else if letter = 0x74 then some 0x09
  else none

/-- The written form of a character: quotation marks, backslashes and control characters are
escaped, with one letter where there is one. -/
def escapeChar (c : Char) : Bytes :=
  if c = '\x22' then [0x5C, 0x22]
  else if c = '\\' then [0x5C, 0x5C]
  else if c = '\x08' then [0x5C, 0x62]
  else if c = '\x0C' then [0x5C, 0x66]
  else if c = '\n' then [0x5C, 0x6E]
  else if c = '\r' then [0x5C, 0x72]
  else if c = '\t' then [0x5C, 0x74]
  else if c.toNat < 0x20 then
    [0x5C, 0x75, 0x30, 0x30, hexDigit (c.toNat / 16), hexDigit (c.toNat % 16)]
  else Utf8.encodeChar c

def escape (s : String) : Bytes := s.toList.flatMap escapeChar

/-- The number that four hexadecimal digits write. -/
def unit? (a b c d : UInt8) : Option Nat := do
  return ((← hexValue? a) * 16 + (← hexValue? b)) * 256 + (← hexValue? c) * 16 + (← hexValue? d)

/-- The code point of a high and a low surrogate. -/
def joinSurrogates? (high low : Nat) : Option Nat :=
  if 0xDC00 ≤ low ∧ low < 0xE000 then some (0x10000 + (high - 0xD800) * 1024 + (low - 0xDC00))
  else none

/-- The bytes of the text that a string is written for; `read` is reversed. Surrogates have to
come in pairs. -/
def unescapeFrom (read : Bytes) : Bytes → Option Bytes
  | [] => some read.reverse
  | 0x5C :: 0x75 :: a :: b :: c :: d :: rest =>
    match unit? a b c d with
    | none => none
    | some unit =>
      if unit < 0xD800 ∨ 0xE000 ≤ unit then
        unescapeFrom ((Utf8.encodeChar (Char.ofNat unit)).reverse ++ read) rest
      else if unit < 0xDC00 then
        match rest with
        | 0x5C :: 0x75 :: a :: b :: c :: d :: rest =>
          match (unit? a b c d).bind (joinSurrogates? unit) with
          | none => none
          | some code => unescapeFrom ((Utf8.encodeChar (Char.ofNat code)).reverse ++ read) rest
        | _ => none
      else none
  | 0x5C :: letter :: rest =>
    match shortEscape? letter with
    | none => none
    | some b => unescapeFrom (b :: read) rest
  | b :: rest => unescapeFrom (b :: read) rest

/-- The text of a written string. -/
def unescape? (written : Bytes) : Option String :=
  (unescapeFrom [] written).bind fun bytes ↦ (Utf8.decode bytes).toOption

def ofText (s : String) : Json := .string (escape s)

def ofNat (n : Nat) : Json := .number (Utf8.encodeChars (Text.decimal n))

def ofCount (n : UInt64) : Json := ofNat n.toNat

/-- An object with these members. -/
def record (members : List (String × Json)) : Json :=
  .object (members.map fun m ↦ (escape m.1, m.2))

/-- A pair is an array of two elements. -/
def pair (first second : Json) : Json := .array [first, second]

def list {α : Type} (toJson : α → Json) (xs : List α) : Json := .array (xs.map toJson)

def option {α : Type} (toJson : α → Json) : Option α → Json
  | none => .null
  | some x => toJson x

def text? : Json → Option String
  | string written => unescape? written
  | _ => none

def flag? : Json → Option Bool
  | bool value => some value
  | _ => none

/-- A count is written with digits alone. -/
def count? : Json → Option UInt64
  | number written => (Text.natural? (written.map fun b ↦ Char.ofNat b.toNat)).bind Text.count?
  | _ => none

def list? {α : Type} (read : Json → Option α) : Json → Option (List α)
  | array elements => elements.mapM read
  | _ => none

def pair? {α β : Type} (first : Json → Option α) (second : Json → Option β) :
    Json → Option (α × β)
  | array [a, b] => do return (← first a, ← second b)
  | _ => none

def option? {α : Type} (read : Json → Option α) : Json → Option (Option α)
  | null => some none
  | j => (read j).map some

/-- The key and the value of an object with one member. -/
def single? : Json → Option (String × Json)
  | object [(key, value)] => (unescape? key).map fun k ↦ (k, value)
  | _ => none

/-- A tag is a string, or an object whose one member has the tag as its key and no value. -/
def tag? (j : Json) : Option String :=
  match j.single? with
  | some (key, null) => some key
  | _ => j.text?

/-- The values of named fields, in the order in which the fields were asked for. -/
structure Fields where
  /-- Whether the values stand in an array, where nothing may be left out but at its end. -/
  positional : Bool
  values : List (Option Json)

/-- The value of the member with this key, if there is at most one. -/
def member? (members : List (String × Json)) (name : String) : Option (Option Json) :=
  match members.filter (·.1 = name) with
  | [] => some none
  | [(_, value)] => some (some value)
  | _ => none

/-- A record is an object, where unknown keys are passed over and known ones are not repeated, or
an array of its fields in order. -/
def fields? (names : List String) : Json → Option Fields
  | array elements =>
    if elements.length ≤ names.length then
      some ⟨true, elements.map some ++ List.replicate (names.length - elements.length) none⟩
    else none
  | object members => do
    let read ← members.mapM fun m ↦ (unescape? m.1).map fun key ↦ (key, m.2)
    return ⟨false, ← names.mapM (member? read)⟩
  | _ => none

namespace Fields

def value? (fields : Fields) (i : Nat) : Option Json := fields.values[i]?.join

def required? {α : Type} (fields : Fields) (i : Nat) (read : Json → Option α) : Option α :=
  (fields.value? i).bind read

/-- A field that may be missing in an object, but not in an array. -/
def optional? {α : Type} (fields : Fields) (i : Nat) (read : Json → Option α) :
    Option (Option α) :=
  match fields.value? i with
  | some j => option? read j
  | none => if fields.positional then none else some none

def withDefault? {α : Type} (fields : Fields) (i : Nat) (default : α) (read : Json → Option α) :
    Option α :=
  match fields.value? i with
  | some j => read j
  | none => some default

end Fields

end Json

end PetriAlign
