import PetriAlign.Proofs.Snapshot.Written

/-!
# The grammar of snapshot texts

A text is read exactly if each of its lines fits: an action line names a kind, and a place line has
at least three words, the last of them a count. Otherwise the first line that does not fit is
reported. The records of a text that is read stand in the step of the last action line before them,
and those before the first action line in the initial step.
-/

namespace PetriAlign.SnapshotTrace

variable {line : List Char}

/-! ## Lines -/

def IsActionLine (line : List Char) : Prop := "action".toList <:+: line

/-- An action line is no place line, whatever else stands in it. -/
def IsPlaceLine (line : List Char) : Prop := "place".toList <:+: line ∧ ¬ IsActionLine line

instance : DecidablePred IsActionLine :=
  fun line ↦ decidable_of_iff (Text.occurs "action".toList line) Text.occurs_iff

instance : DecidablePred IsPlaceLine := fun line ↦
  decidable_of_iff (Text.occurs "place".toList line ∧ ¬ IsActionLine line)
    (and_congr_left' Text.occurs_iff)

def Names (line : List Char) (kind : TransitionKind) : Prop := kind.tag.toList <:+: line

/-- Of the kinds that the line names, this is the last one. -/
def Announces (line : List Char) (kind : TransitionKind) : Prop :=
  Names line kind ∧ ∃ before after, [.log, .model, .sync, .tau] = before ++ kind :: after ∧
    ∀ later ∈ after, ¬ Names line later

/-- The pieces of the line between blanks. -/
def tokens (line : List Char) : List (List Char) :=
  (line.splitOnP Text.isBlank).filter (!·.isEmpty)

/-- The line ends in a place, any word, and the count of the place. The place is the part before the
first colon. -/
def Records (line : List Char) (record : String × UInt64) : Prop :=
  ∃ before place sign count, tokens line = before ++ [place, sign, count] ∧
    record.1 = .ofList (place.takeWhile (· ≠ ':')) ∧ Text.IsCount count record.2

/-- What is asked of a line. -/
structure Fits (line : List Char) : Prop where
  action : IsActionLine line → ∃ kind, Names line kind
  place : IsPlaceLine line → 3 ≤ (tokens line).length ∧
    ∃ count n, (tokens line).getLast? = some count ∧ Text.IsCount count n

/-- What a line that fits says. -/
inductive Says (line : List Char) : Line → Prop
  | action {kind : TransitionKind} :
      IsActionLine line → Announces line kind → Says line (.action kind)
  | record {place : String} {count : UInt64} :
      IsPlaceLine line → Records line (place, count) → Says line (.record place count)
  | other : ¬ IsActionLine line → ¬ IsPlaceLine line → Says line .other

/-- What keeps a line from fitting. -/
inductive Breaks (line : List Char) : LineFault → Prop
  | noKind : IsActionLine line → (∀ kind, ¬ Names line kind) → Breaks line (.noKind (.ofList line))
  | shortRecord :
      IsPlaceLine line → (tokens line).length < 3 → Breaks line (.shortRecord (.ofList line))
  | badCount {count : List Char} :
      IsPlaceLine line → 3 ≤ (tokens line).length → (tokens line).getLast? = some count →
        (∀ n, ¬ Text.IsCount count n) → Breaks line (.badCount (.ofList count))

theorem Announces.names {kind : TransitionKind} (h : Announces line kind) : Names line kind := h.1

theorem Records.fits {record : String × UInt64} (h : Records line record) :
    3 ≤ (tokens line).length ∧
      ∃ count n, (tokens line).getLast? = some count ∧ Text.IsCount count n := by
  obtain ⟨before, place, sign, count, htokens, -, hcount⟩ := h
  rw [htokens]
  refine ⟨?_, count, record.2, ?_, hcount⟩
  · rw [List.length_append]
    exact Nat.le_add_left 3 _
  · simp

theorem Says.fits {said : Line} (h : Says line said) : Fits line := by
  cases h with
  | action haction hkind => exact ⟨fun _ ↦ ⟨_, hkind.names⟩, fun hplace ↦ absurd haction hplace.2⟩
  | record hplace hrecord => exact ⟨fun haction ↦ absurd haction hplace.2, fun _ ↦ hrecord.fits⟩
  | other haction hplace => exact ⟨fun h ↦ absurd h haction, fun h ↦ absurd h hplace⟩

theorem Breaks.not_fits {fault : LineFault} (h : Breaks line fault) : ¬ Fits line := by
  intro hfits
  cases h with
  | noKind haction hnone =>
    obtain ⟨kind, hkind⟩ := hfits.action haction
    exact hnone kind hkind
  | shortRecord hplace hshort => exact absurd (hfits.place hplace).1 (Nat.not_le.2 hshort)
  | badCount hplace _ hlast hnot =>
    obtain ⟨-, count, n, hcount, hn⟩ := hfits.place hplace
    rw [hlast, Option.some.injEq] at hcount
    exact hnot n (hcount ▸ hn)

/-! ## Reading one line -/

theorem words_eq_tokens (line : List Char) : Text.words line = tokens line :=
  Text.words_eq_filter_splitOnP line

/-- The last element with a property comes before elements without it. -/
theorem getLast?_filter_eq_some_iff {α : Type} {p : α → Bool} {xs : List α} {x : α} :
    (xs.filter p).getLast? = some x ↔
      p x ∧ ∃ before after, xs = before ++ x :: after ∧ ∀ y ∈ after, ¬ p y := by
  rw [← List.head?_reverse, ← List.filter_reverse, List.head?_filter,
    List.find?_eq_some_iff_append]
  refine and_congr_right fun _ ↦ ?_
  constructor
  · rintro ⟨after, before, hxs, hafter⟩
    refine ⟨before.reverse, after.reverse, ?_, fun y hy ↦ ?_⟩
    · rw [← List.reverse_inj, hxs]
      simp
    · simpa using hafter y (List.mem_reverse.1 hy)
  · rintro ⟨before, after, rfl, hafter⟩
    refine ⟨after.reverse, before.reverse, by simp, fun y hy ↦ ?_⟩
    simpa using hafter y (List.mem_reverse.1 hy)

theorem announces_of_lineKind? {kind : TransitionKind} (h : lineKind? line = some kind) :
    Announces line kind := by
  obtain ⟨hkind, before, after, hall, hafter⟩ := getLast?_filter_eq_some_iff.1 h
  refine ⟨Text.occurs_iff.1 hkind, before, after, hall, fun later hlater ↦ ?_⟩
  exact mt Text.occurs_iff.2 (hafter later hlater)

theorem not_names_of_lineKind? (h : lineKind? line = none) (kind : TransitionKind) :
    ¬ Names line kind := by
  rw [lineKind?, List.getLast?_eq_none_iff, List.filter_eq_nil_iff] at h
  have hall : kind ∈ TransitionKind.all := by cases kind <;> decide
  exact mt Text.occurs_iff.2 (h kind hall)

/-- The outcome is what the line says, or what keeps it from fitting. -/
def Warrants (line : List Char) : Except LineFault Line → Prop
  | .ok said => Says line said
  | .error fault => Breaks line fault

theorem warrants_readRecord (hplace : IsPlaceLine line) : Warrants line (readRecord line) := by
  rw [readRecord, words_eq_tokens]
  split
  case h_1 count sign place rest hwords =>
    have htokens : tokens line = rest.reverse ++ [place, sign, count] := by
      rw [← List.reverse_inj, hwords]
      simp
    cases hcount : Text.readCount? count with
    | some n =>
      have hn : Text.IsCount count n := Text.readCount?_eq_some_iff.1 hcount
      exact .record hplace ⟨rest.reverse, place, sign, count, htokens, rfl, hn⟩
    | none =>
      have hnot (n : UInt64) : ¬ Text.IsCount count n := by
        rw [← Text.readCount?_eq_some_iff, hcount]
        exact nofun
      apply Breaks.badCount hplace _ _ hnot
      · simp [htokens]
      · simp [htokens]
  case h_2 hwords =>
    apply Breaks.shortRecord hplace
    rw [← List.length_reverse]
    match hreverse : (tokens line).reverse with
    | count :: sign :: place :: rest => exact absurd hreverse (hwords count sign place rest)
    | [] | [_] | [_, _] => simp

/-- A line is read as what it says, and it is not read for what keeps it from fitting. -/
theorem warrants_readLine (line : List Char) : Warrants line (readLine line) := by
  by_cases haction : IsActionLine line
  · rw [readLine, if_pos (Text.occurs_iff.2 haction)]
    cases hkind : lineKind? line with
    | none => exact .noKind haction (not_names_of_lineKind? hkind)
    | some kind => exact .action haction (announces_of_lineKind? hkind)
  · by_cases hplace : "place".toList <:+: line
    · rw [readLine_place haction hplace]
      exact warrants_readRecord ⟨hplace, haction⟩
    · rw [readLine_idle haction hplace]
      exact .other haction fun h ↦ hplace h.1

theorem says_of_readLine {said : Line} (h : readLine line = .ok said) : Says line said := by
  have hread := warrants_readLine line
  rwa [h] at hread

theorem breaks_of_readLine {fault : LineFault} (h : readLine line = .error fault) :
    Breaks line fault := by
  have hread := warrants_readLine line
  rwa [h] at hread

theorem fits_iff : Fits line ↔ ∃ said, readLine line = .ok said := by
  constructor
  · intro h
    cases hread : readLine line with
    | error fault => exact absurd h (breaks_of_readLine hread).not_fits
    | ok said => exact ⟨said, rfl⟩
  · rintro ⟨said, hsaid⟩
    exact (says_of_readLine hsaid).fits

/-! ## Reading all lines -/

/-- What lines add to a trace: records to the step at hand, and the steps after it. -/
inductive Adds : List (List Char) → List (String × UInt64) → List Step → Prop
  | nil : Adds [] [] []
  | action {line : List Char} {lines : List (List Char)} {kind : TransitionKind}
      {records : List (String × UInt64)} {steps : List Step} :
      IsActionLine line → Announces line kind → Adds lines records steps →
        Adds (line :: lines) [] (⟨.move kind, records⟩ :: steps)
  | record {line : List Char} {lines : List (List Char)} {record : String × UInt64}
      {records : List (String × UInt64)} {steps : List Step} :
      IsPlaceLine line → Records line record → Adds lines records steps →
        Adds (line :: lines) (record :: records) steps
  | other {line : List Char} {lines : List (List Char)} {records : List (String × UInt64)}
      {steps : List Step} :
      ¬ IsActionLine line → ¬ IsPlaceLine line → Adds lines records steps →
        Adds (line :: lines) records steps

/-- The step is the move that the line announces. -/
def Begins (line : List Char) (step : Step) : Prop :=
  ∃ kind, Announces line kind ∧ step.kind = .move kind

variable {number : Nat} {d : Draft} {lines : List (List Char)} {t : SnapshotTrace}
  {records : List (String × UInt64)} {steps : List Step}

/-- Reading comes to the end exactly if all lines fit. -/
theorem exists_readLines_eq_ok_iff :
    (∃ t, readLines number d lines = .ok t) ↔ ∀ line ∈ lines, Fits line := by
  induction lines generalizing number d with
  | nil => simp [readLines]
  | cons line lines ih =>
    rw [List.forall_mem_cons, fits_iff, readLines]
    cases readLine line with
    | error fault => simp
    | ok said => simp [ih]

/-- Reading ends at the first line that does not fit, with its number and what is wrong with it. -/
theorem exists_of_readLines_eq_error {e : ParseError} (h : readLines number d lines = .error e) :
    ∃ before line after fault, lines = before ++ line :: after ∧
      (∀ line ∈ before, Fits line) ∧ Breaks line fault ∧
        e = .line (number + before.length) fault := by
  induction lines generalizing number d with
  | nil => cases h
  | cons line lines ih =>
    rw [readLines] at h
    cases hread : readLine line with
    | error fault =>
      rw [hread] at h
      obtain rfl := Except.error.inj h
      exact ⟨[], line, lines, fault, rfl, by simp, breaks_of_readLine hread, rfl⟩
    | ok said =>
      rw [hread] at h
      obtain ⟨before, bad, after, fault, hlines, hbefore, hfault, he⟩ := ih h
      refine ⟨line :: before, bad, after, fault, ?_, ?_, hfault, ?_⟩
      · rw [hlines, List.cons_append]
      · exact List.forall_mem_cons.2 ⟨fits_iff.2 ⟨said, hread⟩, hbefore⟩
      · rw [he, List.length_cons, Nat.add_assoc, Nat.add_comm 1]

/-- The records of the step at hand go on, and the steps that the lines add follow it. -/
theorem exists_adds_of_readLines (h : readLines number d lines = .ok t) :
    ∃ records steps, Adds lines records steps ∧
      t.steps = d.finished.reverse ++ ⟨d.kind, d.records.reverse ++ records⟩ :: steps := by
  induction lines generalizing number d with
  | nil =>
    obtain rfl := Except.ok.inj h
    refine ⟨[], [], .nil, ?_⟩
    simp [Draft.trace, Draft.current]
  | cons line lines ih =>
    rw [readLines] at h
    cases hread : readLine line with
    | error fault => simp [hread] at h
    | ok said =>
      rw [hread] at h
      obtain ⟨records, steps, hadds, hsteps⟩ := ih h
      cases says_of_readLine hread with
      | @action kind haction hkind =>
        refine ⟨[], ⟨.move kind, records⟩ :: steps, .action haction hkind hadds, ?_⟩
        rw [hsteps]
        simp [Draft.push, Draft.current]
      | @record place count hplace hrecord =>
        refine ⟨(place, count) :: records, steps, .record hplace hrecord hadds, ?_⟩
        rw [hsteps]
        simp [Draft.push]
      | other haction hplace => exact ⟨records, steps, .other haction hplace hadds, hsteps⟩

/-- Each action line adds one step, and nothing else does. -/
theorem Adds.forall₂_begins (h : Adds lines records steps) :
    List.Forall₂ Begins (lines.filter (IsActionLine ·)) steps := by
  induction h with
  | nil => exact .nil
  | action haction hkind _ ih =>
    rw [List.filter_cons_of_pos (by simpa using haction)]
    exact .cons ⟨_, hkind, rfl⟩ ih
  | record hplace _ _ ih => rwa [List.filter_cons_of_neg (by simpa using hplace.2)]
  | other haction _ _ ih => rwa [List.filter_cons_of_neg (by simpa using haction)]

/-- The records, step by step, are those of the place lines. -/
theorem Adds.forall₂_records (h : Adds lines records steps) :
    List.Forall₂ Records (lines.filter (IsPlaceLine ·))
      (records ++ steps.flatMap (·.records)) := by
  induction h with
  | nil => exact .nil
  | action haction _ _ ih =>
    rwa [List.filter_cons_of_neg (by simpa using fun hplace : IsPlaceLine _ ↦ hplace.2 haction)]
  | record hplace hrecord _ ih =>
    rw [List.filter_cons_of_pos (by simpa using hplace)]
    exact .cons hrecord ih
  | other _ hplace _ ih => rwa [List.filter_cons_of_neg (by simpa using hplace)]

theorem Adds.kind_ne_initial (h : Adds lines records steps) :
    ∀ step ∈ steps, step.kind ≠ .initial := by
  induction h with
  | nil => exact List.forall_mem_nil _
  | action _ _ _ ih => exact List.forall_mem_cons.2 ⟨nofun, ih⟩
  | record _ _ _ ih => exact ih
  | other _ _ _ ih => exact ih

/-! ## The whole text -/

/-- How a trace goes with the lines that it is read from. -/
structure IsReadFrom (t : SnapshotTrace) (lines : List (List Char)) : Prop where
  startsOnce : t.StartsOnce
  moves : List.Forall₂ Begins (lines.filter (IsActionLine ·)) t.moves
  records : List.Forall₂ Records (lines.filter (IsPlaceLine ·)) t.records
  /-- Each record stands in the step at hand. -/
  steps : ∃ records steps, Adds lines records steps ∧ t.steps = ⟨.initial, records⟩ :: steps

theorem isReadFrom_of_readLines (h : readLines number {} lines = .ok t) : t.IsReadFrom lines := by
  obtain ⟨records, steps, hadds, hcurrent⟩ := exists_adds_of_readLines h
  have hsteps : t.steps = ⟨.initial, records⟩ :: steps := hcurrent
  have hmoves : t.moves = steps := by
    rw [SnapshotTrace.moves, hsteps, List.drop_one, List.tail_cons]
  have hrecords : t.records = records ++ steps.flatMap (·.records) := by
    rw [SnapshotTrace.records, hsteps, List.flatMap_cons]
  exact {
    startsOnce := {
      starts := by rw [hsteps, List.head?_cons, Option.map_some]
      moves := hmoves ▸ hadds.kind_ne_initial }
    moves := hmoves ▸ hadds.forall₂_begins
    records := hrecords ▸ hadds.forall₂_records
    steps := ⟨records, steps, hadds, hsteps⟩ }

end PetriAlign.SnapshotTrace
