import PetriAlign.Xml.Entity
import PetriAlign.Xml.Event

/-!
# Attributes

The part of a tag after its name is read one attribute at a time, and a faulty attribute does not
hide those after it. A reader may stop at the first fault (`Tag.attribute?`) or pass over all
faults (`Tag.attributes`), in which case a repeated name is a fault as well.
-/

namespace PetriAlign.Xml

structure Attribute where
  name : Bytes
  /-- The bytes between the quotation marks. -/
  raw : Bytes
  deriving DecidableEq, Repr

namespace Attribute

def value (a : Attribute) : Except Error String := textOf a.raw

/-- The value, or the bytes themselves where they stand for no text. -/
def valueOrRaw (a : Attribute) : String :=
  match a.value with
  | .ok text => text
  | .error _ => Utf8.decodeLossy a.raw

end Attribute

/-- One attempt to read an attribute. -/
structure Attempt where
  /-- The attribute, unless there is a fault. -/
  result : Option Attribute
  /-- The name, once an equals sign has followed it. -/
  named : Option Bytes
  /-- Where the next attempt begins. -/
  rest : Bytes

def Attempt.fault (rest : Bytes) : Attempt := ⟨none, none, rest⟩

/-- Reads the value from after the equals sign. After a value without quotation marks the next
attempt begins at white space, and after one that does not end there is nothing left. -/
def valueAttempt (name after : Bytes) : Attempt :=
  match after.dropWhile isSpace with
  | [] => ⟨none, some name, []⟩
  | mark :: rest =>
    if mark = 0x22 ∨ mark = 0x27 then
      match rest.dropWhile (· ≠ mark) with
      | [] => ⟨none, some name, []⟩
      | _ :: following => ⟨some ⟨name, rest.takeWhile (· ≠ mark)⟩, some name, following⟩
    else ⟨none, some name, rest.dropWhile (!isSpace ·)⟩

/-- Reads from the equals sign on. A name in `seen` is a fault, after which the next attempt
begins at white space, wherever that is. -/
def namedAttempt (seen : List Bytes) (name after : Bytes) : Attempt :=
  if name ∈ seen then .fault (after.dropWhile (!isSpace ·)) else valueAttempt name after

/-- Reads from the first byte of a name on. The name ends at white space or an equals sign, but
has at least one byte. -/
def attempt (seen : List Bytes) (first : UInt8) (bytes : Bytes) : Attempt :=
  let ends (b : UInt8) : Bool := b = 0x3D || isSpace b
  let name := first :: bytes.takeWhile (!ends ·)
  match (bytes.dropWhile (!ends ·)).dropWhile isSpace with
  | [] => .fault []
  | b :: rest => if b = 0x3D then namedAttempt seen name rest else .fault (b :: rest)

theorem length_valueAttempt_rest (name after : Bytes) :
    (valueAttempt name after).rest.length ≤ after.length := by
  unfold valueAttempt
  have h := length_dropWhile_le isSpace after
  split
  · simp
  · rename_i mark rest heq
    rw [heq, List.length_cons] at h
    split
    · split
      · simp
      · rename_i head following heq
        have h' := length_dropWhile_le (fun b ↦ decide (b ≠ mark)) rest
        rw [heq, List.length_cons] at h'
        simp only
        omega
    · have h' := length_dropWhile_le (fun b ↦ !isSpace b) rest
      simp only
      omega

theorem length_attempt_rest (seen : List Bytes) (first : UInt8) (bytes : Bytes) :
    (attempt seen first bytes).rest.length ≤ bytes.length := by
  unfold attempt
  dsimp only
  split
  · simp [Attempt.fault]
  · rename_i b rest heq
    have h := Nat.le_trans (length_dropWhile_le isSpace _)
      (length_dropWhile_le (fun b : UInt8 ↦ !(decide (b = 0x3D) || isSpace b)) bytes)
    rw [heq, List.length_cons] at h
    split
    · unfold namedAttempt
      split
      · have h' := length_dropWhile_le (fun b ↦ !isSpace b) rest
        simp only [Attempt.fault]
        omega
      · have h' := length_valueAttempt_rest (first :: bytes.takeWhile fun b ↦
          !(decide (b = 0x3D) || isSpace b)) rest
        omega
    · simpa [Attempt.fault] using h

/-- All attempts in order. With `strict`, a name counts as seen once it was read. -/
def attempts (strict : Bool) (seen : List Bytes) (bytes : Bytes) : List (Option Attribute) :=
  match _h : bytes.dropWhile isSpace with
  | [] => []
  | first :: rest =>
    let a := attempt seen first rest
    a.result :: attempts strict (if strict then a.named.toList ++ seen else seen) a.rest
termination_by bytes.length
decreasing_by
  have hle := length_dropWhile_le isSpace bytes
  have hrest := length_attempt_rest seen first rest
  rw [_h, List.length_cons] at hle
  omega

namespace Tag

/-- The attributes without fault, at most one of each name. -/
def attributes (tag : Tag) : List Attribute :=
  (attempts true [] tag.attributePart).filterMap id

/-- The first attribute of this name, if no fault comes before it. -/
def attribute? (tag : Tag) (name : String) : Option Attribute :=
  ((attempts false [] tag.attributePart).takeWhile Option.isSome).filterMap id
    |>.find? (·.name = bytesOf name)

/-- The value of the first attribute of this name. -/
def value? (tag : Tag) (name : String) : Option String :=
  (tag.attribute? name).map Attribute.valueOrRaw

end Tag

end PetriAlign.Xml
