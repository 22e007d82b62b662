import PetriAlign.Fault
import PetriAlign.Text.Utf8

/-!
# Documents

The bytes a reader gets, and what stops it after them: the end of the input, or a fault.
-/

namespace PetriAlign

structure Document where
  bytes : Bytes
  /-- What stands where the input would end. -/
  fault : Option ReadFault := none
  deriving DecidableEq, Repr

namespace Document

def ofText (text : String) : Document := { bytes := Utf8.encode text }

/-- The bytes of a file, if all of them can be read. -/
def whole (d : Document) : Except ReadFault Bytes :=
  match d.fault with
  | none => .ok d.bytes
  | some fault => .error fault

end Document

end PetriAlign
