import PetriAlign.Text.Numeral
import PetriAlign.Xml.Error

/-!
# Entities

Text and attribute values stand for characters in two ways: themselves, or through the five
predefined entities and numeric references. `escape` writes the five characters that markup
claims as entities, and `unescape` reads every reference.
-/

namespace PetriAlign.Xml

/-- The written form of a character in text and in attribute values. -/
def escapeChar (c : Char) : List Char :=
  match c with
  | '<' => "&lt;".toList
  | '>' => "&gt;".toList
  | '&' => "&amp;".toList
  | '\x27' => "&apos;".toList
  | '\x22' => "&quot;".toList
  | _ => [c]

def escape (s : String) : List Char := s.toList.flatMap escapeChar

/-- The character that a predefined entity names. -/
def predefined? (name : List Char) : Option Char :=
  if name = "lt".toList then some '<'
  else if name = "gt".toList then some '>'
  else if name = "amp".toList then some '&'
  else if name = "apos".toList then some '\x27'
  else if name = "quot".toList then some '\x22'
  else none

/-- The value of a digit of the given base, up to sixteen. -/
def digitValue? (base : Nat) (c : Char) : Option Nat :=
  let value :=
    if '0' ≤ c && c ≤ '9' then some (c.toNat - 48)
    else if 'a' ≤ c && c ≤ 'f' then some (c.toNat - 87)
    else if 'A' ≤ c && c ≤ 'F' then some (c.toNat - 55)
    else none
  value.filter (· < base)

/-- The number that the digits write after `value`. Of a wrong digit and a number beyond 32 bits,
the one further left is reported. -/
def numeralFrom (base value : Nat) : List Char → Except ReferenceError Nat
  | [] => .ok value
  | c :: rest =>
    match digitValue? base c with
    | none => .error .invalidDigit
    | some d =>
      if value * base + d < UInt32.size then numeralFrom base (value * base + d) rest
      else .error .overflow

def numeral (base : Nat) : List Char → Except ReferenceError Nat
  | [] => .error .empty
  | '+' :: _ | '-' :: _ => .error .sign
  | cs => numeralFrom base 0 cs

/-- The character of the reference whose text after the number sign is given: hexadecimal after
an `x`, decimal otherwise. -/
def reference (cs : List Char) : Except ReferenceError Char := do
  let code ← match cs with
    | 'x' :: digits => numeral 16 digits
    | _ => numeral 10 cs
  if code = 0 then throw .zero
  else if code.isValidChar then return Char.ofNat code
  else throw (.noCodePoint code)

/-- The character that the text between an ampersand and its semicolon stands for; the text begins
at byte `first`. -/
def resolve (first : Nat) (name : List Char) : Except EntityError Char :=
  match name with
  | '#' :: digits => (reference digits).mapError .reference
  | _ =>
    match predefined? name with
    | some c => .ok c
    | none =>
      .error (.unrecognized first (first + (Utf8.encodeChars name).length) (.ofList name))

/-- The name before the next semicolon and what follows it, if no ampersand comes first. -/
def nameFrom (name : List Char) : List Char → Option (List Char × List Char)
  | [] => none
  | ';' :: rest => some (name.reverse, rest)
  | '&' :: _ => none
  | c :: rest => nameFrom (c :: name) rest

theorem length_lt_of_nameFrom {name cs found rest : List Char}
    (h : nameFrom name cs = some (found, rest)) : rest.length < cs.length := by
  induction cs generalizing name with
  | nil => simp [nameFrom] at h
  | cons c cs ih =>
    unfold nameFrom at h
    split at h
    · simp_all
    · simp_all
    · simp_all
    · rename_i heq
      obtain ⟨rfl, rfl⟩ := List.cons.inj heq
      have := ih h
      simp only [List.length_cons]
      omega

/-- Reads on from byte `index` of a text of `size` bytes; `read` is reversed. -/
def unescapeFrom (size index : Nat) (read : List Char) (cs : List Char) :
    Except EntityError (List Char) :=
  match cs with
  | [] => .ok read.reverse
  | c :: rest =>
    if c = '&' then
      match h : nameFrom [] rest with
      | none => .error (.unterminated index size)
      | some (name, after) => do
        let character ← resolve (index + 1) name
        unescapeFrom size (index + 2 + (Utf8.encodeChars name).length) (character :: read) after
    else unescapeFrom size (index + (Utf8.encodeChar c).length) (c :: read) rest
termination_by cs.length
decreasing_by
  · have := length_lt_of_nameFrom h
    simp only [List.length_cons]
    omega
  · simp

def unescape (cs : List Char) : Except EntityError (List Char) :=
  unescapeFrom (Utf8.encodeChars cs).length 0 [] cs

/-- The text that raw bytes stand for: first the encoding, then the entities. -/
def textOf (raw : Bytes) : Except Error String := do
  let cs ← (Utf8.decodeChars raw).mapError .encoding
  let text ← (unescape cs).mapError .entity
  return .ofList text

end PetriAlign.Xml
