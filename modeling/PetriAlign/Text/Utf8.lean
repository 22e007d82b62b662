/-!
# UTF-8

`encode` writes characters as bytes and `decode` reads them back, or says where the bytes stop
being UTF-8. A fault covers the longest run of bytes that begins some character but cannot be
completed, so a reader that replaces faults marks each such run once.
-/

namespace PetriAlign

abbrev Bytes := List UInt8

namespace Utf8

/-- The bytes of one character: a lead byte, then six bits in each continuation byte. -/
def encodeChar (c : Char) : Bytes :=
  let n := c.toNat
  if n < 0x80 then [.ofNat n]
  else if n < 0x800 then [.ofNat (0xC0 + n / 64), .ofNat (0x80 + n % 64)]
  else if n < 0x10000 then
    [.ofNat (0xE0 + n / 4096), .ofNat (0x80 + n / 64 % 64), .ofNat (0x80 + n % 64)]
  else
    [.ofNat (0xF0 + n / 262144), .ofNat (0x80 + n / 4096 % 64), .ofNat (0x80 + n / 64 % 64),
      .ofNat (0x80 + n % 64)]

def encodeChars (cs : List Char) : Bytes := cs.flatMap encodeChar

def encode (s : String) : Bytes := encodeChars s.toList

/-- A character that lacks `owed` continuation bytes; the next one lies in `low..high`. -/
structure Pending where
  code : Nat
  seen : Nat
  owed : Nat
  low : Nat := 0x80
  high : Nat := 0xBF

/-- What a lead byte above 7F begins, if anything. The bounds on the second byte shut out
overlong forms, surrogates and code points above 10FFFF. -/
def Pending.ofLead? (b : UInt8) : Option Pending :=
  let n := b.toNat
  if n < 0xC2 then none
  else if n < 0xE0 then some { code := n - 0xC0, seen := 1, owed := 1 }
  else if n < 0xF0 then
    some
      { code := n - 0xE0, seen := 1, owed := 2
        low := if n = 0xE0 then 0xA0 else 0x80
        high := if n = 0xED then 0x9F else 0xBF }
  else if n < 0xF5 then
    some
      { code := n - 0xF0, seen := 1, owed := 3
        low := if n = 0xF0 then 0x90 else 0x80
        high := if n = 0xF4 then 0x8F else 0xBF }
  else none

def Pending.admits (p : Pending) (b : UInt8) : Bool := p.low ≤ b.toNat && b.toNat ≤ p.high

def Pending.push (p : Pending) (b : UInt8) : Pending :=
  { code := p.code * 64 + (b.toNat - 0x80), seen := p.seen + 1, owed := p.owed - 1 }

/-- Where and how the bytes stop being UTF-8. -/
inductive Fault
  /-- `length` bytes from `index` on begin no character. -/
  | invalid (length index : Nat)
  /-- The input ends inside the character that begins at `index`. -/
  | incomplete (index : Nat)
  deriving DecidableEq, Repr

/-- The number of bytes before the fault. -/
def Fault.validLength : Fault → Nat
  | .invalid _ index => index
  | .incomplete index => index

def Fault.message : Fault → String
  | .invalid length index =>
    s!"invalid utf-8 sequence of {length} bytes from index {index}"
  | .incomplete index => s!"incomplete utf-8 byte sequence from index {index}"

/-- Reads on from byte `index`, with the characters so far in reverse and maybe one pending. -/
def decodeFrom (index : Nat) (read : List Char) : Option Pending → Bytes → Except Fault (List Char)
  | none, [] => .ok read.reverse
  | some p, [] => .error (.incomplete (index - p.seen))
  | none, b :: rest =>
    if b < 0x80 then decodeFrom (index + 1) (Char.ofNat b.toNat :: read) none rest
    else
      match Pending.ofLead? b with
      | none => .error (.invalid 1 index)
      | some p => decodeFrom (index + 1) read (some p) rest
  | some p, b :: rest =>
    if p.admits b then
      if p.owed = 1 then decodeFrom (index + 1) (Char.ofNat (p.push b).code :: read) none rest
      else decodeFrom (index + 1) read (some (p.push b)) rest
    else .error (.invalid p.seen (index - p.seen))

def decodeChars (bytes : Bytes) : Except Fault (List Char) := decodeFrom 0 [] none bytes

def decode (bytes : Bytes) : Except Fault String := (decodeChars bytes).map String.ofList

/-- The text of the bytes, or no text where they are not UTF-8. -/
def decodeOrEmpty (bytes : Bytes) : String := (decode bytes).toOption.getD ""

/-- Reads a byte that begins a character: the characters to add, and what is then pending. -/
def lossyLead (b : UInt8) : List Char × Option Pending :=
  if b < 0x80 then ([Char.ofNat b.toNat], none)
  else
    match Pending.ofLead? b with
    | none => (['\uFFFD'], none)
    | some p => ([], some p)

def decodeLossyFrom (read : List Char) : Option Pending → Bytes → List Char
  | none, [] => read.reverse
  | some _, [] => ('\uFFFD' :: read).reverse
  | none, b :: rest =>
    let (add, pending) := lossyLead b
    decodeLossyFrom (add ++ read) pending rest
  | some p, b :: rest =>
    if p.admits b then
      if p.owed = 1 then decodeLossyFrom (Char.ofNat (p.push b).code :: read) none rest
      else decodeLossyFrom read (some (p.push b)) rest
    else
      let (add, pending) := lossyLead b
      decodeLossyFrom (add ++ '\uFFFD' :: read) pending rest

/-- Reads any bytes, with U+FFFD in the place of each fault. -/
def decodeLossy (bytes : Bytes) : String := .ofList (decodeLossyFrom [] none bytes)

end Utf8

end PetriAlign
