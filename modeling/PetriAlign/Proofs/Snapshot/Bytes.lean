import PetriAlign.Proofs.Except
import PetriAlign.Proofs.Text.ByteLines
import PetriAlign.Snapshot.Reader

/-!
# Snapshots from a file and from a text

A file is decoded line by line while it is read, and a text is decoded before its first line is
read. Both come to the same trace or the same error. In a file that is no text, what is wrong with
a line before the first one that is not UTF-8 is reported first.
-/

namespace PetriAlign.SnapshotTrace

open Utf8

variable {number : Nat} {d : Draft}

/-- Lines that are decoded as they come are read as the lines they are decoded to. -/
theorem readByteLines_map (lines : List (List Char)) :
    readByteLines none number d (lines.map encodeChars) =
      (readLines number d lines).mapError .parse := by
  induction lines generalizing number d with
  | nil => rfl
  | cons line lines ih =>
    rw [List.map_cons, readByteLines, decodeChars_encodeChars, readLines]
    dsimp only
    cases readLine line with
    | error fault => rfl
    | ok said => exact ih

/-- A line that is not decoded is the end, unless the reader stops before it. -/
theorem readByteLines_map_append (lines : List (List Char)) {bad : Bytes} (h : ¬ IsUtf8 bad)
    (more : List Bytes) :
    readByteLines none number d (lines.map encodeChars ++ bad :: more) =
      match readLines number d lines with
      | .error e => .error (.parse e)
      | .ok _ => .error (.read .notUtf8) := by
  induction lines generalizing number d with
  | nil =>
    obtain ⟨fault, hfault⟩ := exists_fault_of_not_isUtf8 h
    rw [List.map_nil, List.nil_append, readByteLines, hfault, readLines]
  | cons line lines ih =>
    rw [List.map_cons, List.cons_append, readByteLines, decodeChars_encodeChars, readLines]
    dsimp only
    cases readLine line with
    | error fault => rfl
    | ok said => exact ih

theorem read_ofText (text : String) : read (.ofText text) = (ofText text).mapError .parse := by
  change readByteLines none 1 {} (Text.byteLines (encodeChars text.toList)) = _
  rw [Text.byteLines_encodeChars, readByteLines_map]
  rfl

theorem read_of_breaksAt {bytes line : Bytes} {before : List Bytes}
    (h : Text.BreaksAt bytes before line) {text : String}
    (htext : encode text = before.flatMap (· ++ [10])) :
    read { bytes } =
      match ofText text with
      | .error e => .error (.parse e)
      | .ok _ => .error (.read .notUtf8) := by
  obtain ⟨bad, more, hlines, hbad⟩ := h.byteLines_eq htext
  change readByteLines none 1 {} (Text.byteLines bytes) = _
  rw [hlines, readByteLines_map_append _ hbad]
  rfl

/-- A file is read as its text. If its bytes are no text, they break at a line, and the lines before
it are a text whose fault is reported; if that text has none, the file is not UTF-8. -/
theorem read_eq_ofText :
    (∀ bytes text, encode text = bytes → read { bytes } = (ofText text).mapError .parse) ∧
      ∀ bytes, ¬ IsUtf8 bytes → ∃ before line text,
        Text.BreaksAt bytes before line ∧ encode text = before.flatMap (· ++ [10]) ∧
          read { bytes } =
            match ofText text with
            | .error e => .error (.parse e)
            | .ok _ => .error (.read .notUtf8) := by
  constructor
  · rintro bytes text rfl
    exact read_ofText text
  · intro bytes h
    obtain ⟨before, line, hbreaks⟩ := Text.exists_breaksAt h
    obtain ⟨text, htext⟩ := hbreaks.exists_text
    exact ⟨before, line, text, hbreaks, htext, read_of_breaksAt hbreaks htext⟩

/-- Both ends of a line, a carriage return that ends none, and no end behind the last line. -/
def mixedText : String := "start:place = 1\r\nmid:place =\r2\nx:action = TAU\r"

/-- The third line is cut off inside a character. -/
def cutOff : Bytes := encode "start:place = 1\r\nx:action = TAU\r\n" ++ [0xC3, 10, 0x78]

theorem read_eq_ofText_mixed :
    (read { bytes := encode mixedText } = (ofText mixedText).mapError .parse ∧
      ofText mixedText = .ok ⟨[⟨.initial, [("start", 1), ("mid", 2)]⟩, ⟨.move .tau, []⟩]⟩) ∧
    (¬ IsUtf8 cutOff ∧ read { bytes := cutOff } = .error (.read .notUtf8) ∧
      ∃ before line text, Text.BreaksAt cutOff before line ∧
        encode text = before.flatMap (· ++ [10]) ∧
          read { bytes := cutOff } =
            match ofText text with
            | .error e => .error (.parse e)
            | .ok _ => .error (.read .notUtf8)) := by
  have hcutOff : ¬ IsUtf8 cutOff := by decide +kernel
  exact ⟨⟨read_eq_ofText.1 _ mixedText rfl, by decide +kernel⟩,
    hcutOff, by decide +kernel, read_eq_ofText.2 cutOff hcutOff⟩

/-- A line that cannot be read is reported before a later one that is not UTF-8. -/
example : read { bytes := encode "x:action = ROW\n" ++ [0xFF] } =
    .error (.parse (.line 1 (.noKind "x:action = ROW"))) := by
  decide +kernel

end PetriAlign.SnapshotTrace
