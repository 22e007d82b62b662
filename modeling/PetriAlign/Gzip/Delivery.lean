/-!
# Handing decoded data on

Decoding stops where the window for decoded bytes is full, and where the piece of compressed bytes
at hand is used up. What was decoded by then is handed on to requests of limited size. A request
ends once it is full or no compressed byte is at hand. One that meets corrupt data fails, and what
it was given is lost.
-/

namespace PetriAlign.Gzip

/-- How many decoded bytes the window takes. -/
def windowSize : Nat := 32768

/-- How many compressed bytes a piece has. -/
def pieceSize : Nat := 8192

/-- How many decoded bytes a request asks for. -/
def requestSize : Nat := 8192

structure Delivery where
  /-- The bits of the piece at hand that are not read. -/
  piece : Nat
  /-- The bytes that were decoded when decoding last stopped. -/
  stopped : Nat := 0
  /-- The bytes that the present request still asks for. -/
  room : Nat := requestSize
  /-- The bytes that requests got which have ended. -/
  delivered : Nat := 0
  deriving DecidableEq, Repr

namespace Delivery

/-- Stops after `written` bytes. -/
def stop (d : Delivery) (written : Nat) : Delivery :=
  let fresh := written - d.stopped
  if d.room ≤ fresh ∨ d.piece < 8 then
    { d with stopped := written, room := requestSize, delivered := written }
  else { d with stopped := written, room := d.room - fresh }

/-- Makes room for a byte after `written` others. -/
def beforeByte (d : Delivery) (written : Nat) : Delivery :=
  if written % windowSize = 0 ∧ d.stopped < written then d.stop written else d

/-- Takes the first of the bits that are left, which begins a piece if none is at hand. -/
def beforeBit (d : Delivery) (written : Nat) (left : List Bool) : Delivery :=
  if d.piece = 0 then { d.stop written with piece := min (8 * pieceSize) left.length - 1 }
  else { d with piece := d.piece - 1 }

end Delivery

end PetriAlign.Gzip
