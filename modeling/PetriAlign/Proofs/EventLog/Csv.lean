import PetriAlign.EventLog.Csv
import PetriAlign.Proofs.Except
import PetriAlign.Proofs.Text.Utf8

/-!
# Logs written as comma-separated values

A cell is a text in quotation marks, with the marks in it doubled, or a plain text without commas
and line ends. Lines of cells are read as the texts of their cells, whatever their lengths, and the
traces among them are the lines whose first text is not empty. So a log that is written with all its
labels in quotation marks is read back, and lines without a first text between its traces change
nothing.
-/

namespace PetriAlign.Csv

open Utf8 (encode encodeChar encodeChars)

/-! ## Cells and lines -/

/-- A text that may stand without quotation marks around it. -/
def IsPlain (text : String) : Prop :=
  text.toList.head? ≠ some '\x22' ∧ ∀ c ∈ text.toList, c ≠ ',' ∧ c ≠ '\r' ∧ c ≠ '\n'

instance : DecidablePred IsPlain := fun text ↦
  -- Not by trying all characters, which are finitely many as well.
  have := List.decidableBAll (fun c ↦ c ≠ ',' ∧ c ≠ '\r' ∧ c ≠ '\n') text.toList
  inferInstanceAs (Decidable (_ ∧ _))

inductive Cell
  | quoted (text : String)
  | plain (text : { text : String // IsPlain text })

/-- A character inside quotation marks. -/
def doubled (c : Char) : List Char := if c = '\x22' then ['\x22', '\x22'] else [c]

namespace Cell

/-- The text that a cell stands for. -/
def text : Cell → String
  | quoted text => text
  | plain text => text.1

def chars : Cell → List Char
  | quoted text => '\x22' :: (text.toList.flatMap doubled ++ ['\x22'])
  | plain text => text.1.toList

end Cell

inductive LineEnd
  | lf
  | cr
  | crlf

def LineEnd.chars : LineEnd → List Char
  | lf => ['\n']
  | cr => ['\r']
  | crlf => ['\r', '\n']

structure Line where
  cells : List Cell
  ending : LineEnd

namespace Line

/-- A trace on a line, with all its labels in quotation marks. -/
def ofTrace (labels : LabelTrace) : Line := ⟨labels.map .quoted, .lf⟩

/-- A line that is empty or has an empty first cell. -/
def IsFiller (l : Line) : Prop := ∀ c ∈ l.cells.head?, c.text = ""

instance : DecidablePred IsFiller := fun l ↦
  inferInstanceAs (Decidable (∀ c ∈ l.cells.head?, c.text = ""))

variable (l : Line)

def labels : LabelTrace := l.cells.map Cell.text

/-- A line without its end. -/
def content : List Char := [','].intercalate (l.cells.map Cell.chars)

def chars : List Char := l.content ++ l.ending.chars

end Line

/-- The text of a log. -/
def textOf (lines : List Line) : String := .ofList (lines.flatMap Line.chars)

/-! ## Steps of the reader -/

/-- The fields of the records that are read from here on. -/
def fieldLists (mode : Mode) (field : Bytes) (fields : List Bytes) (bytes : Bytes) :
    List (List Bytes) :=
  (recordsFrom { mode := mode, field := field, fields := fields } bytes).map (·.fields)

theorem fields_finished_congr {s s' : State} (hfield : s.field = s'.field)
    (hfields : s.fields = s'.fields) : s.finished.fields = s'.finished.fields := by
  rw [State.finished, State.finished, hfield, hfields]

/-- What is counted has no influence on the fields. -/
theorem map_fields_congr {s s' : State} (hmode : s.mode = s'.mode) (hfield : s.field = s'.field)
    (hfields : s.fields = s'.fields) (bytes : Bytes) :
    (recordsFrom s bytes).map (·.fields) = (recordsFrom s' bytes).map (·.fields) := by
  induction bytes generalizing s s' with
  | nil =>
    rw [recordsFrom, recordsFrom, hmode]
    split
    case isTrue => rfl
    case isFalse => exact congrArg ([·]) (fields_finished_congr hfield hfields)
  | cons b rest ih =>
    rw [recordsFrom, recordsFrom, hmode]
    cases s'.mode.step b with
    | skip next => exact ih rfl hfield hfields
    | keep next => exact ih rfl (congrArg (b :: ·) hfield) hfields
    | endField => exact ih rfl rfl (congrArg₂ (·.reverse :: ·) hfield hfields)
    | endRecord =>
      exact congrArg₂ (· :: ·) (fields_finished_congr hfield hfields) (ih rfl rfl rfl)

theorem map_fields_recordsFrom (s : State) (bytes : Bytes) :
    (recordsFrom s bytes).map (·.fields) = fieldLists s.mode s.field s.fields bytes := by
  apply map_fields_congr
  · rfl
  · rfl
  · rfl

variable {mode next : Mode} {field : Bytes} {fields : List Bytes} {b : UInt8}

theorem fieldLists_skip (h : mode.step b = .skip next) (rest : Bytes) :
    fieldLists mode field fields (b :: rest) = fieldLists next field fields rest := by
  rw [fieldLists, recordsFrom, h]
  exact map_fields_recordsFrom _ rest

theorem fieldLists_keep (h : mode.step b = .keep next) (rest : Bytes) :
    fieldLists mode field fields (b :: rest) = fieldLists next (b :: field) fields rest := by
  rw [fieldLists, recordsFrom, h]
  exact map_fields_recordsFrom _ rest

theorem fieldLists_endField (h : mode.step b = .endField) (rest : Bytes) :
    fieldLists mode field fields (b :: rest) =
      fieldLists .fresh [] (field.reverse :: fields) rest := by
  rw [fieldLists, recordsFrom, h]
  exact map_fields_recordsFrom _ rest

theorem fieldLists_endRecord (h : mode.step b = .endRecord) (rest : Bytes) :
    fieldLists mode field fields (b :: rest) =
      (field.reverse :: fields).reverse :: fieldLists .between [] [] rest := by
  rw [fieldLists, recordsFrom, h]
  exact congrArg _ (map_fields_recordsFrom _ rest)

/-- A run of bytes that belong to the field. -/
theorem fieldLists_append {bs : Bytes} (h : ∀ b ∈ bs, mode.step b = .keep mode) (rest : Bytes) :
    fieldLists mode field fields (bs ++ rest) =
      fieldLists mode (bs.reverse ++ field) fields rest := by
  induction bs generalizing field with
  | nil => rfl
  | cons b bs ih =>
    rw [List.forall_mem_cons] at h
    rw [List.cons_append, fieldLists_keep h.1, ih h.2, List.reverse_cons, List.append_assoc]
    rfl

/-- Before a record and before a field all bytes but line ends mean the same. -/
theorem fieldLists_between (h : endsLine b = false) (rest : Bytes) :
    fieldLists .between [] [] (b :: rest) = fieldLists .fresh [] [] (b :: rest) := by
  have hstep : Mode.between.step b = Mode.fresh.step b := by
    rw [Mode.step, h]
    rfl
  rw [fieldLists, fieldLists, recordsFrom, recordsFrom, hstep]
  cases Mode.fresh.step b <;> rfl

/-! ## Reading cells -/

/-- No byte of a character is another character in ASCII. -/
theorem ne_of_mem_encodeChar {c d : Char} (hd : d.toNat < 0x80) (hne : c ≠ d)
    (hb : b ∈ encodeChar c) : b ≠ .ofNat d.toNat := by
  rintro rfl
  exact hne (Utf8.eq_of_mem_encodeChar hd hb)

theorem endsLine_eq_false (hreturn : b ≠ 0x0D) (hfeed : b ≠ 0x0A) : endsLine b = false := by
  rw [endsLine, decide_eq_false hreturn, decide_eq_false hfeed]
  rfl

namespace Mode

/-- A mode in which a comma ends the field and a line end the record. -/
def EndsField (mode : Mode) : Prop := ∀ b, isMark b = false → mode.step b = plainStep b

theorem endsField_plain : EndsField .plain := fun _ _ ↦ rfl

theorem endsField_fresh : EndsField .fresh := by
  intro b hb
  rw [step, hb]
  rfl

theorem endsField_mark : EndsField .mark := by
  intro b hb
  rw [step, hb]
  rfl

end Mode

/-- The end of a line ends the record. -/
theorem fieldLists_lineEnd (h : mode.EndsField) (ending : LineEnd) (rest : Bytes) :
    fieldLists mode field fields (encodeChars ending.chars ++ rest) =
      (field.reverse :: fields).reverse :: fieldLists .between [] [] rest := by
  cases ending with
  | lf => exact fieldLists_endRecord (h 0x0A rfl) rest
  | cr => exact fieldLists_endRecord (h 0x0D rfl) rest
  | crlf =>
    have hreturn : fieldLists mode field fields (0x0D :: 0x0A :: rest) = _ :=
      fieldLists_endRecord (h 0x0D rfl) (0x0A :: rest)
    have hfeed : Mode.between.step 0x0A = .skip .between := rfl
    rw [fieldLists_skip hfeed] at hreturn
    exact hreturn

/-- A line end between two records is no record. -/
theorem fieldLists_between_lineEnd (ending : LineEnd) (rest : Bytes) :
    fieldLists .between [] [] (encodeChars ending.chars ++ rest) =
      fieldLists .between [] [] rest := by
  cases ending with
  | lf => exact fieldLists_skip rfl rest
  | cr => exact fieldLists_skip rfl rest
  | crlf => exact (fieldLists_skip rfl (0x0A :: rest)).trans (fieldLists_skip rfl rest)

/-- A text in quotation marks is kept up to the last of them. -/
theorem fieldLists_doubled (cs : List Char) (rest : Bytes) :
    fieldLists .quoted field fields (encodeChars (cs.flatMap doubled) ++ rest) =
      fieldLists .quoted ((encodeChars cs).reverse ++ field) fields rest := by
  induction cs generalizing field with
  | nil => rfl
  | cons c cs ih =>
    rw [List.flatMap_cons, Utf8.encodeChars_append, List.append_assoc, Utf8.encodeChars_cons,
      List.reverse_append, List.append_assoc, ← ih]
    by_cases hc : c = '\x22'
    · -- Of two marks the reader keeps the second one.
      rw [doubled, if_pos hc, hc]
      have hfirst : Mode.quoted.step 0x22 = .skip .mark := rfl
      have hsecond : Mode.mark.step 0x22 = .keep .quoted := rfl
      exact (fieldLists_skip hfirst _).trans (fieldLists_keep hsecond _)
    · have hkeep : ∀ b ∈ encodeChar c, Mode.step .quoted b = .keep .quoted := by
        intro b hb
        have hmark : isMark b = false :=
          decide_eq_false (ne_of_mem_encodeChar (d := '\x22') (by decide) hc hb)
        rw [Mode.step, hmark]
        rfl
      rw [doubled, if_neg hc, Utf8.encodeChars_singleton]
      exact fieldLists_append hkeep _

/-- The bytes of a plain text belong to the field. -/
theorem plainStep_of_isPlain {text : String} (h : IsPlain text) :
    ∀ b ∈ encode text, plainStep b = .keep .plain := by
  intro b hb
  have hne {d : Char} (hascii : d.toNat < 0x80) (hd : d ∉ text.toList) : b ≠ .ofNat d.toNat := by
    rintro rfl
    exact hd ((Utf8.mem_encodeChars hascii).1 hb)
  have hcomma : b ≠ 0x2C := hne (d := ',') (by decide) fun hmem ↦ (h.2 _ hmem).1 rfl
  have hreturn : b ≠ 0x0D := hne (d := '\r') (by decide) fun hmem ↦ (h.2 _ hmem).2.1 rfl
  have hfeed : b ≠ 0x0A := hne (d := '\n') (by decide) fun hmem ↦ (h.2 _ hmem).2.2 rfl
  rw [plainStep, if_neg hcomma, endsLine_eq_false hreturn hfeed]
  rfl

theorem isMark_of_isPlain {text : String} (h : IsPlain text) {bs : Bytes}
    (hbytes : encode text = b :: bs) : isMark b = false := by
  cases htext : text.toList with
  | nil =>
    rw [encode, htext] at hbytes
    cases hbytes
  | cons c cs =>
    obtain ⟨d, ds, hd⟩ := List.exists_cons_of_ne_nil (Utf8.encodeChar_ne_nil c)
    rw [encode, htext, Utf8.encodeChars_cons, hd, List.cons_append, List.cons.injEq] at hbytes
    have hc : c ≠ '\x22' := by
      rintro rfl
      apply h.1
      rw [htext]
      rfl
    have hmem : b ∈ encodeChar c := by
      rw [hd, hbytes.1]
      exact List.mem_cons_self
    exact decide_eq_false (ne_of_mem_encodeChar (d := '\x22') (by decide) hc hmem)

/-- A cell is read as its text, and what follows it ends the field. -/
theorem exists_fieldLists_cell (c : Cell) (fields : List Bytes) (rest : Bytes) :
    ∃ next : Mode, next.EndsField ∧
      fieldLists .fresh [] fields (encodeChars c.chars ++ rest) =
        fieldLists next (encode c.text).reverse fields rest := by
  cases c with
  | quoted text =>
    have hbytes : encodeChars (Cell.quoted text).chars ++ rest =
        0x22 :: (encodeChars (text.toList.flatMap doubled) ++ 0x22 :: rest) := by
      rw [Cell.chars, Utf8.encodeChars_cons, Utf8.encodeChars_append, List.append_assoc,
        List.append_assoc]
      rfl
    have hopen : Mode.fresh.step 0x22 = .skip .quoted := rfl
    have hclose : Mode.quoted.step 0x22 = .skip .mark := rfl
    refine ⟨.mark, Mode.endsField_mark, ?_⟩
    rw [hbytes, fieldLists_skip hopen, fieldLists_doubled, List.append_nil, fieldLists_skip hclose]
    rfl
  | plain text =>
    obtain ⟨text, hplain⟩ := text
    have hstep := plainStep_of_isPlain hplain
    change ∃ next : Mode, _ ∧ fieldLists .fresh [] fields (encode text ++ rest) =
      fieldLists next (encode text).reverse fields rest
    cases hbytes : encode text with
    | nil => exact ⟨.fresh, Mode.endsField_fresh, rfl⟩
    | cons b bs =>
      rw [hbytes, List.forall_mem_cons] at hstep
      have hmark : isMark b = false := isMark_of_isPlain hplain hbytes
      refine ⟨.plain, Mode.endsField_plain, ?_⟩
      rw [List.cons_append, fieldLists_keep ((Mode.endsField_fresh b hmark).trans hstep.1),
        fieldLists_append hstep.2, List.reverse_cons]

/-! ## Reading lines -/

/-- Cells are read as their texts. -/
theorem fieldLists_cells (c : Cell) (cells : List Cell) (fields : List Bytes) (ending : LineEnd)
    (rest : Bytes) :
    fieldLists .fresh [] fields (encodeChars ([','].intercalate ((c :: cells).map Cell.chars)) ++
        (encodeChars ending.chars ++ rest)) =
      (fields.reverse ++ (c :: cells).map (encode ·.text)) :: fieldLists .between [] [] rest := by
  -- After a cell the reader is in one of three modes, in which commas and line ends mean the same.
  induction cells generalizing c fields with
  | nil =>
    obtain ⟨next, hends, hcell⟩ := exists_fieldLists_cell c fields
      (encodeChars ending.chars ++ rest)
    rw [List.map_singleton, List.intercalate_singleton, hcell, fieldLists_lineEnd hends,
      List.reverse_reverse, List.reverse_cons]
    rfl
  | cons d cells ih =>
    obtain ⟨next, hends, hcell⟩ := exists_fieldLists_cell c fields
      (0x2C :: (encodeChars ([','].intercalate ((d :: cells).map Cell.chars)) ++
        (encodeChars ending.chars ++ rest)))
    have hbytes : encodeChars ([','].intercalate ((c :: d :: cells).map Cell.chars)) =
        encodeChars c.chars ++
          0x2C :: encodeChars ([','].intercalate ((d :: cells).map Cell.chars)) := by
      rw [List.map_cons, List.map_cons, List.intercalate_cons_cons, Utf8.encodeChars_append,
        Utf8.encodeChars_append, List.append_assoc]
      rfl
    have hcomma : next.step 0x2C = .endField := hends 0x2C rfl
    rw [hbytes, List.append_assoc, List.cons_append, hcell, fieldLists_endField hcomma,
      List.reverse_reverse, ih, List.reverse_cons, List.append_assoc]
    rfl

namespace Cell

/-- A cell does not begin with a line end. -/
theorem not_lineEnd_head (c : Cell) : ∀ x ∈ c.chars.head?, x ≠ '\r' ∧ x ≠ '\n' := by
  intro x hx
  cases c with
  | quoted text =>
    obtain rfl : '\x22' = x := Option.some.inj hx
    decide
  | plain text => exact (text.2.2 x (List.mem_of_head? hx)).2

theorem text_of_chars_eq_nil {c : Cell} (h : c.chars = []) : c.text = "" := by
  cases c with
  | quoted text => cases h
  | plain text => exact String.toList_eq_nil_iff.1 h

end Cell

namespace Line

variable {l : Line}

theorem not_lineEnd_head (l : Line) : ∀ x ∈ l.content.head?, x ≠ '\r' ∧ x ≠ '\n' := by
  obtain ⟨cells, ending⟩ := l
  rw [content]
  match cells with
  | [] => exact nofun
  | [c] =>
    rw [List.map_singleton, List.intercalate_singleton]
    exact c.not_lineEnd_head
  | c :: d :: cells =>
    have hhead := c.not_lineEnd_head
    rw [List.map_cons, List.map_cons, List.intercalate_cons_cons]
    cases hchars : c.chars with
    | nil =>
      intro x hx
      obtain rfl : ',' = x := Option.some.inj hx
      decide
    | cons x xs =>
      rw [hchars] at hhead
      exact hhead

/-- A line without content is no trace. -/
theorem isTrace_of_content_eq_nil (h : l.content = []) : isTrace l.labels = false := by
  obtain ⟨cells, ending⟩ := l
  rw [content] at h
  rw [labels]
  match cells with
  | [] => rfl
  | [c] =>
    rw [List.map_singleton, List.intercalate_singleton] at h
    rw [List.map_singleton, Cell.text_of_chars_eq_nil h]
    rfl
  | c :: d :: cells =>
    rw [List.map_cons, List.map_cons, List.intercalate_cons_cons] at h
    simp at h

/-- The fields of the record of a line, if it has one. -/
def records (l : Line) : List (List Bytes) :=
  if l.content = [] then [] else [l.labels.map encode]

/-- The first byte of a line with content is no line end. -/
theorem exists_bytes_content (h : l.content ≠ []) :
    ∃ b bs, encodeChars l.content = b :: bs ∧ endsLine b = false := by
  have hhead := l.not_lineEnd_head
  obtain ⟨x, xs, hx⟩ := List.exists_cons_of_ne_nil h
  obtain ⟨b, bs, hb⟩ := List.exists_cons_of_ne_nil (Utf8.encodeChar_ne_nil x)
  rw [hx] at hhead
  obtain ⟨hreturn, hfeed⟩ := hhead x rfl
  have hmem : b ∈ encodeChar x := by
    rw [hb]
    exact List.mem_cons_self
  refine ⟨b, bs ++ encodeChars xs, ?_, ?_⟩
  · rw [hx, Utf8.encodeChars_cons, hb, List.cons_append]
  · apply endsLine_eq_false
    · exact ne_of_mem_encodeChar (d := '\r') (by decide) hreturn hmem
    · exact ne_of_mem_encodeChar (d := '\n') (by decide) hfeed hmem

/-- The record of a line is read, whatever follows it. -/
theorem fieldLists_chars (l : Line) (rest : Bytes) :
    fieldLists .between [] [] (encodeChars l.chars ++ rest) =
      l.records ++ fieldLists .between [] [] rest := by
  rw [chars, Utf8.encodeChars_append, List.append_assoc, records]
  split
  case isTrue hcontent =>
    rw [hcontent]
    exact fieldLists_between_lineEnd l.ending rest
  case isFalse hcontent =>
    obtain ⟨b, bs, hbytes, hb⟩ := exists_bytes_content hcontent
    obtain ⟨c, cells, hcells⟩ : ∃ c cells, l.cells = c :: cells := by
      apply List.exists_cons_of_ne_nil
      intro hnil
      rw [content, hnil] at hcontent
      exact hcontent rfl
    have hread := fieldLists_cells c cells [] l.ending rest
    rw [← hcells] at hread
    have hcontent_eq : [','].intercalate (l.cells.map Cell.chars) = l.content := rfl
    rw [hcontent_eq, hbytes, List.cons_append] at hread
    rw [hbytes, List.cons_append, fieldLists_between hb, hread, labels, List.map_map]
    rfl

theorem fieldLists_flatMap (lines : List Line) :
    fieldLists .between [] [] (encodeChars (lines.flatMap chars)) = lines.flatMap records := by
  induction lines with
  | nil => rfl
  | cons l lines ih =>
    rw [List.flatMap_cons, Utf8.encodeChars_append, fieldLists_chars, ih, List.flatMap_cons]

end Line

/-! ## Reading logs -/

theorem map_decodeOrEmpty (labels : LabelTrace) :
    (labels.map encode).map Utf8.decodeOrEmpty = labels := by
  have hdecode : Utf8.decodeOrEmpty ∘ encode = id := by
    funext text
    rw [Function.comp_apply, Utf8.decodeOrEmpty, Utf8.decode_encode]
    rfl
  rw [List.map_map, hdecode, List.map_id]

theorem labelsFrom_encode (record : Record) (index : Nat) (labels : LabelTrace) :
    labelsFrom record index (labels.map encode) = .ok labels := by
  induction labels generalizing index with
  | nil => rfl
  | cons label labels ih =>
    rw [List.map_cons, labelsFrom, Utf8.decode_encode]
    dsimp only
    rw [ih]
    rfl

/-- A text that begins with an ASCII character has no byte order mark. -/
theorem records_encodeChars {x : Char} {xs : List Char} (h : x.toNat < 0x80) :
    records (encodeChars (x :: xs)) = recordsFrom {} (encodeChars (x :: xs)) := by
  rw [Utf8.encodeChars_cons, Utf8.encodeChar_ascii h, List.singleton_append]
  have hne : UInt8.ofNat x.toNat ≠ 0xEF := by
    intro heq
    have hnat := congrArg UInt8.toNat heq
    rw [Utf8.toNat_ofNat (by omega)] at hnat
    have hmark : (0xEF : UInt8).toNat = 0xEF := rfl
    omega
  unfold records
  split
  case h_1 heq => exact absurd (List.cons.inj heq).1 hne
  case h_2 => rfl

/-- A line whose first cell is empty or in quotation marks, so that it begins in ASCII. -/
def Line.IsGuarded (l : Line) : Prop :=
  ∀ c ∈ l.cells.head?, c.chars = [] ∨ ∃ xs, c.chars = '\x22' :: xs

theorem Line.IsFiller.isGuarded {l : Line} (h : l.IsFiller) : l.IsGuarded := by
  intro c hc
  cases c with
  | quoted text => exact .inr ⟨_, rfl⟩
  | plain text => exact .inl (String.toList_eq_nil_iff.2 (h _ hc))

theorem Line.isGuarded_ofTrace (labels : LabelTrace) : (ofTrace labels).IsGuarded := by
  intro c hc
  obtain ⟨label, -, rfl⟩ := List.mem_map.1 (List.mem_of_head? hc)
  exact .inr ⟨_, rfl⟩

theorem Line.IsGuarded.exists_chars {l : Line} (h : l.IsGuarded) :
    ∃ x xs, l.chars = x :: xs ∧ x.toNat < 0x80 := by
  obtain ⟨cells, ending⟩ := l
  have hending : ∃ x xs, ending.chars = x :: xs ∧ x.toNat < 0x80 := by
    cases ending
    · exact ⟨'\n', [], rfl, by decide⟩
    · exact ⟨'\r', [], rfl, by decide⟩
    · exact ⟨'\r', ['\n'], rfl, by decide⟩
  rw [chars, content]
  match cells with
  | [] => exact hending
  | [c] =>
    rw [List.map_singleton, List.intercalate_singleton]
    rcases h c rfl with hchars | ⟨xs, hchars⟩
    · rw [hchars]
      exact hending
    · rw [hchars]
      exact ⟨_, _, rfl, by decide⟩
  | c :: d :: cells =>
    rw [List.map_cons, List.map_cons, List.intercalate_cons_cons]
    rcases h c rfl with hchars | ⟨xs, hchars⟩
    · rw [hchars]
      exact ⟨',', _, rfl, by decide⟩
    · rw [hchars]
      exact ⟨'\x22', _, rfl, by decide⟩

theorem map_fields_records {lines : List Line} (h : ∀ l ∈ lines, l.IsGuarded) :
    (records (encode (textOf lines))).map (·.fields) = lines.flatMap Line.records := by
  have hrecords : records (encode (textOf lines)) = recordsFrom {} (encode (textOf lines)) := by
    rw [encode, textOf, String.toList_ofList]
    cases lines with
    | nil => rfl
    | cons l lines =>
      obtain ⟨x, xs, hx, hascii⟩ := (h l List.mem_cons_self).exists_chars
      rw [List.flatMap_cons, hx, List.cons_append]
      exact records_encodeChars hascii
  rw [hrecords, map_fields_recordsFrom, encode, textOf, String.toList_ofList]
  exact Line.fieldLists_flatMap lines

/-- The lines without content are no traces either way. -/
theorem filter_isTrace_flatMap (lines : List Line) :
    ((lines.flatMap Line.records).map (·.map Utf8.decodeOrEmpty)).filter isTrace =
      (lines.map Line.labels).filter isTrace := by
  induction lines with
  | nil => rfl
  | cons l lines ih =>
    rw [List.flatMap_cons, List.map_append, List.filter_append, ih, Line.records, List.map_cons]
    split
    case isTrue hcontent =>
      rw [List.filter_cons_of_neg (by simp [Line.isTrace_of_content_eq_nil hcontent])]
      rfl
    case isFalse =>
      rw [List.map_singleton, map_decodeOrEmpty, ← List.filter_append]
      rfl

/-- The traces of a log are the lines with a first text. -/
theorem read_textOf {lines : List Line} (h : ∀ l ∈ lines, l.IsGuarded) :
    read (.ofText (textOf lines)) = .ok ((lines.map Line.labels).filter isTrace) := by
  have hfields := map_fields_records h
  have hlabels : ∀ r ∈ records (encode (textOf lines)),
      r.labels = .ok (r.fields.map Utf8.decodeOrEmpty) := by
    intro r hr
    have hmem : r.fields ∈ lines.flatMap Line.records := by
      rw [← hfields]
      exact List.mem_map_of_mem hr
    obtain ⟨l, -, hl⟩ := List.mem_flatMap.1 hmem
    rw [Line.records] at hl
    split at hl
    case isTrue => exact absurd hl List.not_mem_nil
    case isFalse =>
      rw [Record.labels, List.mem_singleton.1 hl, labelsFrom_encode, map_decodeOrEmpty]
  have hmap : (records (encode (textOf lines))).map (fun r ↦ r.fields.map Utf8.decodeOrEmpty) =
      (lines.flatMap Line.records).map (·.map Utf8.decodeOrEmpty) := by
    rw [← hfields, List.map_map]
    rfl
  change ((records (encode (textOf lines))).mapM Record.labels >>= _) = _
  rw [mapM_eq_ok hlabels, hmap]
  exact congrArg Except.ok (filter_isTrace_flatMap lines)

theorem Line.isTrace_labels (l : Line) : isTrace l.labels = decide (¬ l.IsFiller) := by
  obtain ⟨cells, ending⟩ := l
  cases cells with
  | nil => rfl
  | cons c cells =>
    have hfiller : Line.IsFiller ⟨c :: cells, ending⟩ ↔ c.text = "" := by
      constructor
      · exact fun h ↦ h c rfl
      · intro h d hd
        obtain rfl : c = d := Option.some.inj hd
        exact h
    exact decide_eq_decide.2 (not_congr hfiller).symm

theorem Line.labels_ofTrace (labels : LabelTrace) : (ofTrace labels).labels = labels := by
  rw [Line.labels, ofTrace, List.map_map]
  exact List.map_id labels

/-- Traces with a first text are read back when all their labels are written in quotation marks,
whatever fillers stand between them. -/
theorem read_of_traces {traces : List LabelTrace}
    (h : ∀ labels ∈ traces, ∃ first rest, labels = first :: rest ∧ first ≠ "") :
    read (.ofText (textOf (traces.map .ofTrace))) = .ok traces ∧
      ∀ lines : List Line, lines.filter (¬ ·.IsFiller) = traces.map .ofTrace →
        read (.ofText (textOf lines)) = .ok traces := by
  have hbetween (lines : List Line) (hlines : lines.filter (¬ ·.IsFiller) = traces.map .ofTrace) :
      read (.ofText (textOf lines)) = .ok traces := by
    have hguarded : ∀ l ∈ lines, l.IsGuarded := by
      intro l hl
      by_cases hfiller : l.IsFiller
      · exact hfiller.isGuarded
      · have hmem : l ∈ traces.map .ofTrace := by
          rw [← hlines]
          exact List.mem_filter.2 ⟨hl, decide_eq_true hfiller⟩
        obtain ⟨labels, -, rfl⟩ := List.mem_map.1 hmem
        exact Line.isGuarded_ofTrace labels
    have hkept : isTrace ∘ Line.labels = fun l ↦ decide (¬ l.IsFiller) :=
      funext Line.isTrace_labels
    have hback : Line.labels ∘ Line.ofTrace = id := funext Line.labels_ofTrace
    rw [read_textOf hguarded, List.filter_map, hkept, hlines, List.map_map, hback, List.map_id]
  refine ⟨hbetween _ ?_, hbetween⟩
  rw [List.filter_eq_self]
  intro l hl
  obtain ⟨labels, hlabels, rfl⟩ := List.mem_map.1 hl
  obtain ⟨first, rest, rfl, hfirst⟩ := h labels hlabels
  exact decide_eq_true fun hfiller ↦ hfirst (hfiller (.quoted first) rfl)

/-- Traces of different lengths, with all that has a meaning outside quotation marks. -/
def awkwardTraces : List LabelTrace :=
  [["a, \x22b\x22", "", " line\r\nbreak "], ["\x22"], ["ä", "\uFEFF", "x"]]

/-- The traces of `awkwardTraces` between lines that are no traces. -/
def awkwardLines : List Line :=
  [⟨[], .crlf⟩, .ofTrace ["a, \x22b\x22", "", " line\r\nbreak "],
    ⟨[.plain ⟨"", by decide⟩, .plain ⟨"5\x22 wide", by decide⟩, .quoted ",\n"], .lf⟩,
    .ofTrace ["\x22"], ⟨[.quoted ""], .cr⟩, .ofTrace ["ä", "\uFEFF", "x"],
    ⟨[.plain ⟨"", by decide⟩, .plain ⟨"", by decide⟩], .crlf⟩, ⟨[], .lf⟩]

theorem read_of_traces_awkward :
    (∀ labels ∈ awkwardTraces, ∃ first rest, labels = first :: rest ∧ first ≠ "") ∧
      awkwardLines.filter (¬ ·.IsFiller) = awkwardTraces.map .ofTrace ∧
      read (.ofText (textOf awkwardLines)) = .ok awkwardTraces := by
  have htraces : ∀ labels ∈ awkwardTraces, ∃ first rest, labels = first :: rest ∧ first ≠ "" := by
    simp [awkwardTraces]
  have hlines : awkwardLines.filter (¬ ·.IsFiller) = awkwardTraces.map .ofTrace := rfl
  exact ⟨htraces, hlines, (read_of_traces htraces).2 _ hlines⟩

end PetriAlign.Csv
