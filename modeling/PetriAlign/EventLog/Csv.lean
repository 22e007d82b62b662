import PetriAlign.Document

/-!
# Logs as comma-separated values

Each record is a trace and each of its fields a label. Records may differ in length, and a record
whose first field is empty is no trace. A field may stand in quotation marks, where two marks write
one; a mark elsewhere is an ordinary character. Carriage returns and line feeds end records, and
empty lines are no records.
-/

namespace PetriAlign

/-- The activity labels of a case, in order. -/
abbrev LabelTrace := List String

namespace Csv

/-- Where the reader stands. -/
inductive Mode
  /-- Before a record. -/
  | between
  /-- Before the first byte of a field. -/
  | fresh
  /-- In a field, outside quotation marks. -/
  | plain
  /-- In a field, inside quotation marks. -/
  | quoted
  /-- After a quotation mark that ends the quoted part, or is the first of two. -/
  | mark
  deriving DecidableEq, Repr

/-- What a byte does to the field at hand. -/
inductive Action
  | skip (next : Mode)
  | keep (next : Mode)
  | endField
  | endRecord
  deriving DecidableEq, Repr

def endsLine (b : UInt8) : Bool := b = 0x0D || b = 0x0A

def isMark (b : UInt8) : Bool := b = 0x22

/-- What a byte does outside quotation marks. -/
def plainStep (b : UInt8) : Action :=
  if b = 0x2C then .endField else if endsLine b then .endRecord else .keep .plain

def Mode.step (mode : Mode) (b : UInt8) : Action :=
  match mode with
  | between =>
    if endsLine b then .skip between else if isMark b then .skip quoted else plainStep b
  | fresh => if isMark b then .skip quoted else plainStep b
  | plain => plainStep b
  | quoted => if isMark b then .skip mark else .keep quoted
  | mark => if isMark b then .keep quoted else plainStep b

structure Record where
  fields : List Bytes
  /-- The number of records before this one. -/
  index : Nat
  /-- The line feeds before this record. -/
  feeds : Nat
  /-- The bytes up to the end of the record before this one. -/
  start : Nat
  deriving DecidableEq, Repr

/-- The reader between two bytes. The field and the fields before it are reversed; `feeds` and
`offset` count what was read, `record` says where the record at hand begins. -/
structure State where
  mode : Mode := .between
  field : Bytes := []
  fields : List Bytes := []
  offset : Nat := 0
  feeds : Nat := 0
  record : Record := ⟨[], 0, 0, 0⟩

namespace State

/-- The record at hand, with the field at hand as its last one. -/
def finished (s : State) : Record :=
  { s.record with fields := (s.field.reverse :: s.fields).reverse }

/-- Counts a byte. -/
def count (s : State) (b : UInt8) : State :=
  { s with offset := s.offset + 1, feeds := if b = 0x0A then s.feeds + 1 else s.feeds }

/-- The state before the next record. -/
def nextRecord (s : State) : State :=
  { s with
    mode := .between, field := [], fields := []
    record := ⟨[], s.record.index + 1, s.feeds, s.offset⟩ }

end State

def recordsFrom (s : State) : Bytes → List Record
  | [] => if s.mode = .between then [] else [s.finished]
  | b :: rest =>
    let counted := s.count b
    match s.mode.step b with
    | .skip next => recordsFrom { counted with mode := next } rest
    | .keep next => recordsFrom { counted with mode := next, field := b :: s.field } rest
    | .endField =>
      recordsFrom
        { counted with mode := .fresh, field := [], fields := s.field.reverse :: s.fields } rest
    | .endRecord => s.finished :: recordsFrom counted.nextRecord rest

/-- The records after a byte order mark, which counts as bytes read. -/
def records : Bytes → List Record
  | 0xEF :: 0xBB :: 0xBF :: rest => recordsFrom { offset := 3 } rest
  | bytes => recordsFrom {} bytes

inductive Error
  /-- A field is not UTF-8. -/
  | encoding (record : Record) (field : Nat) (fault : Utf8.Fault)
  | read (fault : ReadFault)
  deriving DecidableEq, Repr

def Error.message : Error → String
  | encoding record field fault =>
    let line := record.feeds + 1
    s!"CSV parse error: record {record.index} (line {line}, field: {field}, byte: {record.start}): "
      ++ s!"invalid utf-8: invalid UTF-8 in field {field} near byte index {fault.validLength}"
  | read fault => fault.message

/-- The labels of a record, the first of which stands in field `index`. -/
def labelsFrom (record : Record) (index : Nat) : List Bytes → Except Error LabelTrace
  | [] => .ok []
  | field :: rest =>
    match Utf8.decode field with
    | .error fault => .error (.encoding record index fault)
    | .ok label => (labelsFrom record (index + 1) rest).map (label :: ·)

def Record.labels (record : Record) : Except Error LabelTrace :=
  labelsFrom record 0 record.fields

/-- Whether a record is a trace. -/
def isTrace (labels : LabelTrace) : Bool := labels.head?.any (· ≠ "")

/-- The traces of a log; every field of every record has to be UTF-8. -/
def read (d : Document) : Except Error (List LabelTrace) := do
  let labels ← (records d.bytes).mapM Record.labels
  match d.fault with
  | some fault => throw (.read fault)
  | none => return labels.filter isTrace

end Csv

end PetriAlign
