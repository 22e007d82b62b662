import Mathlib.Data.List.TakeWhile
import PetriAlign.Proofs.Except
import PetriAlign.Proofs.Text.Search
import PetriAlign.Proofs.Text.Words
import PetriAlign.Snapshot.Reader

/-!
# What a snapshot text adds up to

Reading is a fold over the lines. The records of a trace that is read are those of its lines, one
after the other, and their places have neither colons nor blanks.
-/

namespace PetriAlign.SnapshotTrace

/-- The records of all steps, in order. -/
def records (t : SnapshotTrace) : List (String × UInt64) := t.steps.flatMap (·.records)

/-! ## One line -/

section Line

variable {line : List Char}

/-- A record is the place before the colon of the third word from the end, with the last word as
its count. -/
theorem readRecord_eq_ok_iff {said : Line} :
    readRecord line = .ok said ↔ ∃ count sign place rest n,
      (Text.words line).reverse = count :: sign :: place :: rest ∧
        Text.readCount? count = some n ∧
        said = .record (.ofList (place.takeWhile (· ≠ ':'))) n := by
  unfold readRecord
  split
  · rename_i count sign place rest hwords
    cases hcount : Text.readCount? count with
    | none => simp [hwords, hcount]
    | some n => simp [hwords, hcount, eq_comm]
  · rename_i hwords
    simp only [reduceCtorEq, false_iff]
    rintro ⟨count, sign, place, rest, n, heq, -⟩
    exact hwords count sign place rest heq

theorem readLine_of_notAction (h : ¬ "action".toList <:+: line) :
    readLine line = if Text.occurs "place".toList line then readRecord line else .ok .other := by
  rw [readLine, if_neg (by rwa [Text.occurs_iff])]

/-- A line with neither word is passed over. -/
theorem readLine_idle (haction : ¬ "action".toList <:+: line)
    (hplace : ¬ "place".toList <:+: line) : readLine line = .ok .other := by
  rw [readLine_of_notAction haction, if_neg (by rwa [Text.occurs_iff])]

theorem readLine_place (haction : ¬ "action".toList <:+: line) (hplace : "place".toList <:+: line) :
    readLine line = readRecord line := by
  rw [readLine_of_notAction haction, if_pos (by rwa [Text.occurs_iff])]

def Line.record? : Line → Option (String × UInt64)
  | .record place count => some (place, count)
  | _ => none

/-- The record that a line adds, if it is read. -/
def recordOf? (line : List Char) : Option (String × UInt64) :=
  (readLine line).toOption.bind Line.record?

theorem recordOf?_eq_some_iff {record : String × UInt64} :
    recordOf? line = some record ↔ readLine line = .ok (.record record.1 record.2) := by
  unfold recordOf?
  cases readLine line with
  | error fault => simp [Except.toOption]
  | ok said => cases said <;> simp [Except.toOption, Line.record?, Prod.ext_iff]

theorem not_action_of_recordOf? {record : String × UInt64} (h : recordOf? line = some record) :
    ¬ "action".toList <:+: line := by
  intro haction
  rw [recordOf?_eq_some_iff, readLine, if_pos (Text.occurs_iff.2 haction)] at h
  cases hkind : lineKind? line <;> simp [hkind] at h

/-- The place of a record is a word, up to its first colon. -/
theorem plain_of_recordOf? {record : String × UInt64} (h : recordOf? line = some record) :
    ':' ∉ record.1.toList ∧ ∀ c ∈ record.1.toList, Text.isBlank c = false := by
  have hread := recordOf?_eq_some_iff.1 h
  rw [readLine_of_notAction (not_action_of_recordOf? h)] at hread
  split at hread
  · obtain ⟨count, sign, place, rest, n, hwords, -, heq⟩ := readRecord_eq_ok_iff.1 hread
    have hplace : place ∈ Text.words line := by
      rw [← List.mem_reverse, hwords]
      simp
    rw [(Line.record.inj heq).1, String.toList_ofList]
    constructor
    · intro hmem
      simpa using List.mem_takeWhile_imp hmem
    · intro c hc
      exact Text.notBlank_of_mem_words hplace c (List.takeWhile_subset _ hc)
  · cases hread

end Line

/-! ## All lines -/

/-- The draft with what the line says. -/
def Draft.read (d : Draft) (line : List Char) : Except LineFault Draft := (readLine line).map d.push

theorem Draft.read_eq_of_readLine {d : Draft} {line : List Char} {said : Line}
    (h : readLine line = .ok said) : d.read line = .ok (d.push said) := by
  rw [read, h]
  rfl

variable {number : Nat} {d d' : Draft} {lines : List (List Char)} {t : SnapshotTrace}

theorem readLines_eq_ok_iff :
    readLines number d lines = .ok t ↔ ∃ d', lines.foldlM Draft.read d = .ok d' ∧ d'.trace = t := by
  induction lines generalizing number d with
  | nil => simp [readLines, pure, Except.pure]
  | cons line lines ih =>
    rw [readLines, List.foldlM_cons, Draft.read]
    cases readLine line with
    | error fault => simp [Except.map, bind, Except.bind]
    | ok said => exact ih

theorem Draft.records_push (said : Line) :
    (d.push said).trace.records = d.trace.records ++ said.record?.toList := by
  cases said <;> simp [push, trace, current, SnapshotTrace.records, Line.record?]

/-- A line adds its record to the records and nothing else. -/
theorem Draft.records_read {line : List Char} (h : d.read line = .ok d') :
    d'.trace.records = d.trace.records ++ (recordOf? line).toList := by
  obtain ⟨said, hsaid, rfl⟩ := exists_of_map_eq_ok h
  rw [records_push, recordOf?, hsaid, Except.toOption, Option.bind_some]

theorem Draft.records_foldlM (h : lines.foldlM Draft.read d = .ok d') :
    d'.trace.records = d.trace.records ++ lines.filterMap recordOf? := by
  induction lines generalizing d with
  | nil =>
    obtain rfl := Except.ok.inj h
    simp
  | cons line lines ih =>
    rw [List.foldlM_cons, bind_eq_ok_iff] at h
    obtain ⟨next, hnext, hrest⟩ := h
    calc d'.trace.records
        = next.trace.records ++ lines.filterMap recordOf? := ih hrest
      _ = d.trace.records ++ (recordOf? line).toList ++ lines.filterMap recordOf? := by
        rw [records_read hnext]
      _ = d.trace.records ++ (line :: lines).filterMap recordOf? := by
        rw [List.append_assoc, List.filterMap_cons]
        cases recordOf? line <;> rfl

/-- The records of a text are those of its lines, in order. -/
theorem records_of_ofText {text : String} (h : ofText text = .ok t) :
    t.records = (Text.lines text.toList).filterMap recordOf? := by
  obtain ⟨d, hd, rfl⟩ := readLines_eq_ok_iff.1 h
  exact Draft.records_foldlM hd

end PetriAlign.SnapshotTrace
