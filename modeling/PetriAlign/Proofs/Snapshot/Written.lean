import PetriAlign.Proofs.Snapshot.Reader
import PetriAlign.Proofs.Text.Numeral

/-!
# Traces that survive their text

A written trace is read back exactly if no id in it has a colon, a blank or the word `action`. What
follows a colon or comes before a blank is lost, and a line with `action` begins a step. Lines with
neither `action` nor `place` can stand anywhere among the lines of a trace.
-/

namespace PetriAlign

/-! ## The written text -/

namespace SnapshotTrace

def recordLine (record : String × UInt64) : String :=
  "    " ++ record.1 ++ ":place = " ++ Text.showCount record.2

def actionLine (kind : TransitionKind) : String := "    action:action = " ++ kind.tag

/-- Only moves are announced. -/
def kindLines : StepKind → List String
  | .initial => []
  | .move kind => [actionLine kind]

def stepLines (step : Step) : List String := kindLines step.kind ++ step.records.map recordLine

def lines (t : SnapshotTrace) : List String := t.steps.flatMap stepLines

/-- Every line is ended. -/
def unlines (lines : List String) : String := String.join (lines.map (· ++ "\n"))

/-- The first step is the initial one, and no other is. -/
structure StartsOnce (t : SnapshotTrace) : Prop where
  starts : t.steps.head?.map (·.kind) = some .initial
  moves : ∀ step ∈ t.moves, step.kind ≠ .initial

/-- An id that stays whole in a line and does not turn it into an action. -/
structure IsReadable (id : String) : Prop where
  colon : ':' ∉ id.toList
  blank : ∀ c ∈ id.toList, Text.isBlank c = false
  action : ¬ "action".toList <:+: id.toList

instance (id : String) : Decidable (IsReadable id) :=
  decidable_of_iff
    (':' ∉ id.toList ∧ id.toList.any Text.isBlank = false ∧ ¬ "action".toList <:+: id.toList)
    ⟨fun ⟨hcolon, hblank, haction⟩ ↦ ⟨hcolon, Text.any_isBlank_eq_false_iff.1 hblank, haction⟩,
      fun h ↦ ⟨h.colon, Text.any_isBlank_eq_false_iff.2 h.blank, h.action⟩⟩

/-- A line that says nothing. -/
structure IsIdle (line : String) : Prop where
  feed : '\n' ∉ line.toList
  action : ¬ "action".toList <:+: line.toList
  place : ¬ "place".toList <:+: line.toList

/-- Lines with idle lines put between, before and behind them. -/
inductive Padded : List String → List String → Prop
  | nil : Padded [] []
  | keep (line : String) {ls padded : List String} :
      Padded ls padded → Padded (line :: ls) (line :: padded)
  | idle {line : String} {ls padded : List String} (hidle : IsIdle line) :
      Padded ls padded → Padded ls (line :: padded)

/-! ## What stands in a line -/

variable {record : String × UInt64} {kind : TransitionKind}

theorem toList_recordLine (record : String × UInt64) :
    (recordLine record).toList = "   ".toList ++ ' ' :: (record.1.toList ++ ':' ::
      ("place =".toList ++ ' ' :: Text.decimal record.2.toNat)) := by
  simp [recordLine, Text.showCount]

/-- Beside the id, no word `action` stands in the line of a record. -/
theorem action_infix_recordLine_iff :
    "action".toList <:+: (recordLine record).toList ↔ "action".toList <:+: record.1.toList := by
  have hcount : ¬ "action".toList <:+: Text.decimal record.2.toNat := fun h ↦
    Text.notMem_decimal record.2.toNat (by decide) (h.subset (show 'a' ∈ "action".toList by decide))
  have hstart : ¬ "action".toList <:+: "   ".toList := by decide
  have hplace : ¬ "action".toList <:+: "place =".toList := by decide
  rw [toList_recordLine, Text.infix_append_cons_iff (by decide),
    Text.infix_append_cons_iff (by decide), Text.infix_append_cons_iff (by decide)]
  simp only [hstart, hplace, hcount, false_or, or_false]

theorem place_infix_recordLine (record : String × UInt64) :
    "place".toList <:+: (recordLine record).toList := by
  rw [toList_recordLine]
  refine List.infix_append_of_infix_right (List.infix_cons
    (List.infix_append_of_infix_right (List.infix_cons (List.infix_append_of_infix_left ?_))))
  decide

theorem words_recordLine (h : ∀ c ∈ record.1.toList, Text.isBlank c = false) :
    Text.words (recordLine record).toList =
      [record.1.toList ++ ":place".toList, ['='], Text.decimal record.2.toNat] := by
  have hplace : ∀ c ∈ record.1.toList ++ ":place".toList, Text.isBlank c = false := by
    rw [List.forall_mem_append]
    exact ⟨h, Text.any_isBlank_eq_false_iff.1 (by decide)⟩
  have hparts (count : List Char) : record.1.toList ++ ':' :: ("place =".toList ++ ' ' :: count) =
      (record.1.toList ++ ":place".toList) ++ ' ' :: (['='] ++ ' ' :: count) := by
    simp
  rw [toList_recordLine, hparts, Text.words_append_blank (by decide),
    Text.words_append_blank (by decide), Text.words_append_blank (by decide),
    Text.words_eq_singleton (by simp) hplace,
    Text.words_eq_singleton (Text.decimal_ne_nil _) (Text.notBlank_decimal _)]
  rfl

/-- The line of a record says the record. -/
theorem readLine_recordLine (h : IsReadable record.1) :
    readLine (recordLine record).toList = .ok (.record record.1 record.2) := by
  rw [readLine_place (mt action_infix_recordLine_iff.1 h.action) (place_infix_recordLine record),
    readRecord_eq_ok_iff]
  refine ⟨_, _, _, _, record.2, by rw [words_recordLine h.blank]; rfl,
    Text.readCount?_decimal record.2, ?_⟩
  have hid : ∀ c ∈ record.1.toList, decide (c ≠ ':') = true :=
    fun c hc ↦ decide_eq_true (ne_of_mem_of_not_mem hc h.colon)
  have htake : (record.1.toList ++ ":place".toList).takeWhile (· ≠ ':') = record.1.toList :=
    Text.takeWhile_until hid (by decide)
  rw [htake, String.ofList_toList]

theorem readLine_actionLine (kind : TransitionKind) :
    readLine (actionLine kind).toList = .ok (.action kind) := by
  cases kind <;> decide

theorem recordOf?_actionLine (kind : TransitionKind) :
    recordOf? (actionLine kind).toList = none := by
  rw [recordOf?, readLine_actionLine]
  rfl

/-! ## Steps -/

variable {step : Step} {t : SnapshotTrace}

theorem foldlM_recordLines {rs : List (String × UInt64)} (h : ∀ record ∈ rs, IsReadable record.1)
    (d : Draft) :
    ((rs.map recordLine).map String.toList).foldlM Draft.read d =
      .ok { d with records := rs.reverse ++ d.records } := by
  induction rs generalizing d with
  | nil => rfl
  | cons record rs ih =>
    rw [List.forall_mem_cons] at h
    rw [List.map_cons, List.map_cons, List.foldlM_cons,
      Draft.read_eq_of_readLine (readLine_recordLine h.1)]
    refine (ih h.2 _).trans ?_
    simp [Draft.push]

/-- The lines of a move finish the step at hand and put the move in its place. -/
theorem foldlM_stepLines (hkind : step.kind ≠ .initial)
    (h : ∀ record ∈ step.records, IsReadable record.1) (d : Draft) :
    ((stepLines step).map String.toList).foldlM Draft.read d =
      .ok ⟨d.current :: d.finished, step.kind, step.records.reverse⟩ := by
  cases hmove : step.kind with
  | initial => exact absurd hmove hkind
  | move kind =>
    have hread := Draft.read_eq_of_readLine (d := d) (readLine_actionLine kind)
    rw [stepLines, hmove, kindLines, List.singleton_append, List.map_cons, List.foldlM_cons, hread]
    refine (foldlM_recordLines h _).trans ?_
    simp [Draft.push]

/-- Moves are added to the steps that there are. -/
theorem foldlM_moves {steps : List Step} (hkinds : ∀ step ∈ steps, step.kind ≠ .initial)
    (h : ∀ step ∈ steps, ∀ record ∈ step.records, IsReadable record.1) (d : Draft) :
    ∃ d', ((steps.flatMap stepLines).map String.toList).foldlM Draft.read d = .ok d' ∧
      d'.trace.steps = d.trace.steps ++ steps := by
  induction steps generalizing d with
  | nil => exact ⟨d, rfl, (List.append_nil _).symm⟩
  | cons step steps ih =>
    rw [List.forall_mem_cons] at hkinds h
    let next : Draft := ⟨d.current :: d.finished, step.kind, step.records.reverse⟩
    have hnext : next.trace.steps = d.trace.steps ++ [step] := by
      simp [next, Draft.trace, Draft.current]
    obtain ⟨d', hd', htrace⟩ := ih hkinds.2 h.2 next
    refine ⟨d', ?_, ?_⟩
    · rw [List.flatMap_cons, List.map_append, List.foldlM_append, foldlM_stepLines hkinds.1 h.1]
      exact hd'
    · rw [htrace, hnext, List.append_assoc, List.singleton_append]

theorem StartsOnce.exists_steps_eq (h : t.StartsOnce) :
    ∃ rs, t.steps = ⟨.initial, rs⟩ :: t.moves := by
  have hstarts := h.starts
  obtain ⟨steps⟩ := t
  cases steps with
  | nil => cases hstarts
  | cons step steps =>
    obtain ⟨kind, rs⟩ := step
    obtain rfl : kind = .initial := Option.some.inj hstarts
    exact ⟨rs, rfl⟩

theorem readLines_lines (hstarts : t.StartsOnce) (h : ∀ record ∈ t.records, IsReadable record.1)
    (number : Nat) : readLines number {} (t.lines.map String.toList) = .ok t := by
  obtain ⟨rs, hsteps⟩ := hstarts.exists_steps_eq
  rw [records, List.forall_mem_flatMap, hsteps, List.forall_mem_cons] at h
  let start : Draft := ⟨[], .initial, rs.reverse⟩
  have hstart :
      ((stepLines ⟨.initial, rs⟩).map String.toList).foldlM Draft.read {} = .ok start := by
    refine (foldlM_recordLines h.1 {}).trans ?_
    rw [List.append_nil]
  obtain ⟨d, hd, htrace⟩ := foldlM_moves hstarts.moves h.2 start
  refine readLines_eq_ok_iff.2 ⟨d, ?_, ?_⟩
  · rw [lines, hsteps, List.flatMap_cons, List.map_append, List.foldlM_append, hstart]
    exact hd
  · have hsame : d.trace.steps = t.steps := by
      rw [htrace, hsteps]
      simp [start, Draft.trace, Draft.current]
    exact congrArg SnapshotTrace.mk hsame

/-! ## The text -/

theorem toList_unlines (ls : List String) :
    (unlines ls).toList = (ls.map String.toList).flatMap (· ++ ['\n']) := by
  simp [unlines, String.toList_join, List.flatMap_map]

theorem lines_unlines {ls : List String} (h : ∀ line ∈ ls, '\n' ∉ line.toList) :
    Text.lines (unlines ls).toList = ls.map fun line ↦ Text.chomp '\r' line.toList := by
  rw [toList_unlines, Text.lines, Text.linesFrom_flatMap (by simpa using h), List.map_map]
  rfl

theorem notMem_actionLine {c : Char} (hc : c = '\n' ∨ c = '\r') :
    c ∉ (actionLine kind).toList := by
  rcases hc with rfl | rfl <;> cases kind <;> decide

theorem notMem_recordLine {c : Char} (hc : c = '\n' ∨ c = '\r') (hid : c ∉ record.1.toList) :
    c ∉ (recordLine record).toList := by
  have hcount : c ∉ Text.decimal record.2.toNat := by
    rcases hc with rfl | rfl <;> exact Text.notMem_decimal _ (by decide)
  have hrest : c ∉ "   ".toList ∧ c ≠ ' ' ∧ c ≠ ':' ∧ c ∉ "place =".toList := by
    rcases hc with rfl | rfl <;> decide
  obtain ⟨hstart, hspace, hcolon, hplace⟩ := hrest
  rw [toList_recordLine]
  simp only [List.mem_append, List.mem_cons, hstart, hspace, hid, hcolon, hplace, hcount, or_self,
    not_false_eq_true]

/-- No line of a trace ends before its end. -/
theorem notMem_of_mem_lines
    (h : ∀ record ∈ t.records, ∀ c ∈ record.1.toList, Text.isBlank c = false) {line : String}
    (hline : line ∈ t.lines) {c : Char} (hc : c = '\n' ∨ c = '\r') : c ∉ line.toList := by
  obtain ⟨step, hstep, hmem⟩ := List.mem_flatMap.1 hline
  rcases List.mem_append.1 hmem with hmem | hmem
  · cases hkind : step.kind with
    | initial => simp [hkind, kindLines] at hmem
    | move kind =>
      rw [hkind, kindLines, List.mem_singleton] at hmem
      rw [hmem]
      exact notMem_actionLine hc
  · obtain ⟨record, hrecord, rfl⟩ := List.mem_map.1 hmem
    have hblank : Text.isBlank c = true := by
      rcases hc with rfl | rfl <;> decide
    have hid : c ∉ record.1.toList := by
      intro hmem
      have hnot := h record (List.mem_flatMap.2 ⟨step, hstep, hrecord⟩) c hmem
      exact absurd hblank (by simp [hnot])
    exact notMem_recordLine hc hid

theorem lines_written
    (h : ∀ record ∈ t.records, ∀ c ∈ record.1.toList, Text.isBlank c = false) :
    Text.lines (unlines t.lines).toList = t.lines.map String.toList := by
  rw [lines_unlines fun line hline ↦ notMem_of_mem_lines h hline (.inl rfl)]
  apply List.map_congr_left
  intro line hline
  apply Text.chomp_eq_self
  exact notMem_of_mem_lines h hline (.inr rfl)

/-! ## Idle lines -/

/-- Idle lines change nothing for the reader. -/
theorem Padded.foldlM_read {ls padded : List String} (h : Padded ls padded) (d : Draft) :
    (padded.map fun line ↦ Text.chomp '\r' line.toList).foldlM Draft.read d =
      (ls.map fun line ↦ Text.chomp '\r' line.toList).foldlM Draft.read d := by
  induction h generalizing d with
  | nil => rfl
  | keep line _ ih => simp only [List.map_cons, List.foldlM_cons, ih]
  | @idle line _ _ hidle _ ih =>
    have hinfix := (Text.chomp_prefix '\r' line.toList).isInfix
    have hother : readLine (Text.chomp '\r' line.toList) = .ok .other :=
      readLine_idle (mt (·.trans hinfix) hidle.action) (mt (·.trans hinfix) hidle.place)
    rw [List.map_cons, List.foldlM_cons, Draft.read_eq_of_readLine hother]
    exact ih d

theorem Padded.feed_notMem {ls padded : List String} (h : Padded ls padded)
    (hls : ∀ line ∈ ls, '\n' ∉ line.toList) : ∀ line ∈ padded, '\n' ∉ line.toList := by
  induction h with
  | nil => exact hls
  | keep line _ ih =>
    rw [List.forall_mem_cons] at hls ⊢
    exact ⟨hls.1, ih hls.2⟩
  | idle hidle _ ih =>
    rw [List.forall_mem_cons]
    exact ⟨hidle.feed, ih hls⟩

/-- A text with idle lines put into it is read as the text. -/
theorem Padded.ofText_unlines {ls padded : List String} (h : Padded ls padded)
    (hls : ∀ line ∈ ls, '\n' ∉ line.toList) :
    ofText (unlines padded) = .ok t ↔ ofText (unlines ls) = .ok t := by
  rw [ofText, ofText, readLines_eq_ok_iff, readLines_eq_ok_iff, lines_unlines hls,
    lines_unlines (h.feed_notMem hls)]
  simp only [h.foldlM_read]

/-! ## Which traces are read back -/

theorem ofText_of_isReadable (hstarts : t.StartsOnce)
    (h : ∀ record ∈ t.records, IsReadable record.1) : ofText (unlines t.lines) = .ok t := by
  rw [ofText, lines_written fun record hrecord ↦ (h record hrecord).blank]
  exact readLines_lines hstarts h 1

theorem filterMap_recordOf?_stepLines (step : Step) :
    (stepLines step).filterMap (recordOf? ·.toList) =
      step.records.filterMap fun record ↦ recordOf? (recordLine record).toList := by
  have hkind : (kindLines step.kind).filterMap (recordOf? ·.toList) = [] := by
    cases step.kind with
    | initial => rfl
    | move kind => simp [kindLines, recordOf?_actionLine]
  rw [stepLines, List.filterMap_append, hkind, List.nil_append, List.filterMap_map]
  rfl

/-- Only the lines of records can add records. -/
theorem filterMap_recordOf?_lines (t : SnapshotTrace) :
    (t.lines.map String.toList).filterMap recordOf? =
      t.records.filterMap fun record ↦ recordOf? (recordLine record).toList := by
  rw [List.filterMap_map, lines, records, List.filterMap_flatMap, List.filterMap_flatMap]
  simp only [← filterMap_recordOf?_stepLines]
  rfl

/-- What is read back has been written with readable ids. -/
theorem isReadable_of_ofText (h : ofText (unlines t.lines) = .ok t) :
    ∀ record ∈ t.records, IsReadable record.1 := by
  have hrecords := records_of_ofText h
  have hplain (record : String × UInt64) (hrecord : record ∈ t.records) :
      ':' ∉ record.1.toList ∧ ∀ c ∈ record.1.toList, Text.isBlank c = false := by
    rw [hrecords] at hrecord
    obtain ⟨line, -, hline⟩ := List.mem_filterMap.1 hrecord
    exact plain_of_recordOf? hline
  rw [lines_written fun record hrecord ↦ (hplain record hrecord).2,
    filterMap_recordOf?_lines] at hrecords
  -- a line of a record that is not read as a record would be missing among the records
  have hall := List.filterMap_length_eq_length.1 (congrArg List.length hrecords).symm
  intro record hrecord
  obtain ⟨hcolon, hblank⟩ := hplain record hrecord
  obtain ⟨read, hread⟩ := Option.isSome_iff_exists.1 (hall record hrecord)
  exact ⟨hcolon, hblank, mt action_infix_recordLine_iff.2 (not_action_of_recordOf? hread)⟩

/-- A trace is read back from its text exactly if its ids are readable, and then also from its text
with idle lines put in. -/
theorem ofText_lines_eq_ok_iff (hstarts : t.StartsOnce) :
    (ofText (unlines t.lines) = .ok t ↔ ∀ record ∈ t.records, IsReadable record.1) ∧
      ((∀ record ∈ t.records, IsReadable record.1) →
        ∀ padded, Padded t.lines padded → ofText (unlines padded) = .ok t) := by
  refine ⟨⟨isReadable_of_ofText, ofText_of_isReadable hstarts⟩, fun h padded hpadded ↦ ?_⟩
  have hblank (record : String × UInt64) (hrecord : record ∈ t.records) :
      ∀ c ∈ record.1.toList, Text.isBlank c = false := (h record hrecord).blank
  have hfeed (line : String) (hline : line ∈ t.lines) : '\n' ∉ line.toList :=
    notMem_of_mem_lines hblank hline (.inl rfl)
  exact (hpadded.ofText_unlines hfeed).2 (ofText_of_isReadable hstarts h)

/-- A booking at `place`. -/
def bookingTrace (place : String) : SnapshotTrace :=
  ⟨[⟨.initial, [("start", 1), (place, 0)]⟩, ⟨.move .sync, [("start", 0), (place, 12)]⟩,
    ⟨.move .model, []⟩]⟩

theorem bookingTrace_startsOnce (place : String) : (bookingTrace place).StartsOnce where
  starts := rfl
  moves := by simp [bookingTrace, SnapshotTrace.moves]

/-- As the lines for the place `transaction` contain the word `action`, they begin steps. -/
theorem ofText_lines_booking : (bookingTrace "ledger").StartsOnce ∧
    (∀ record ∈ (bookingTrace "ledger").records, IsReadable record.1) ∧
      ofText (unlines (bookingTrace "ledger").lines) = .ok (bookingTrace "ledger") ∧
      ofText (unlines ["state 0/2", recordLine ("start", 1), "", recordLine ("ledger", 0),
        "transition 1/2", actionLine .sync, "state 1/2", recordLine ("start", 0),
        recordLine ("ledger", 12), actionLine .model]) = .ok (bookingTrace "ledger") ∧
      ofText (unlines (bookingTrace "transaction").lines) ≠ .ok (bookingTrace "transaction") := by
  have hledger := ofText_lines_eq_ok_iff (bookingTrace_startsOnce "ledger")
  have htransaction := ofText_lines_eq_ok_iff (bookingTrace_startsOnce "transaction")
  have hreadable : ∀ record ∈ (bookingTrace "ledger").records, IsReadable record.1 := by decide
  refine ⟨bookingTrace_startsOnce _, hreadable, hledger.1.2 hreadable, hledger.2 hreadable _ ?_,
    fun h ↦ ?_⟩
  · exact .idle ⟨by decide, by decide, by decide⟩ (.keep _ (.idle ⟨by decide, by decide, by decide⟩
      (.keep _ (.idle ⟨by decide, by decide, by decide⟩ (.keep _
        (.idle ⟨by decide, by decide, by decide⟩ (.keep _ (.keep _ (.keep _ .nil)))))))))
  · exact absurd (htransaction.1.1 h ("transaction", 0) (by decide)).action (by decide)

end SnapshotTrace

end PetriAlign
