/-!
# Decimal counts

Counts are unsigned 64-bit numbers, written in decimal. A written count may have one plus sign
and leading zeros; its digits are ASCII.
-/

namespace PetriAlign.Text

def digit? (c : Char) : Option Nat :=
  if '0' ≤ c && c ≤ '9' then some (c.toNat - 48) else none

/-- The number that the digits write after `value`. -/
def digitsFrom (value : Nat) : List Char → Option Nat
  | [] => some value
  | c :: rest => (digit? c).bind fun d ↦ digitsFrom (value * 10 + d) rest

/-- A decimal number of at least one digit. -/
def natural? : List Char → Option Nat
  | [] => none
  | cs => digitsFrom 0 cs

/-- A number as a 64-bit count, if it is below 2^64. -/
def count? (n : Nat) : Option UInt64 := if n < UInt64.size then some (.ofNat n) else none

def readCount? (cs : List Char) : Option UInt64 :=
  let digits := match cs with
    | '+' :: rest => rest
    | _ => cs
  (natural? digits).bind count?

def digitChar (d : Nat) : Char := Char.ofNat (48 + d)

/-- The decimal digits of a number, without leading zeros. -/
def decimal (n : Nat) : List Char :=
  if n < 10 then [digitChar n] else decimal (n / 10) ++ [digitChar (n % 10)]

/-- The decimal text of a number. -/
def showNat (n : Nat) : String := .ofList (decimal n)

def showCount (n : UInt64) : String := showNat n.toNat

end PetriAlign.Text
