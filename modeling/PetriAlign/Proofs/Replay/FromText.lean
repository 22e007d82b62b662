import PetriAlign.Proofs.Snapshot.Grammar
import PetriAlign.Replay.Mode

/-!
# Replays of traces that were read

A trace that begins with its only initial step does not fail a replay for the kinds of its steps,
whatever the net and the mode. Every text that is read gives such a trace.
-/

namespace PetriAlign

/-- The error does not come from a step of the wrong kind. -/
def ReplayError.IsNotAboutKinds (e : ReplayError) : Prop :=
  e ≠ .missingInitial ∧ ∀ number, e ≠ .unexpectedInitial number

namespace Replay

open ReplayError

variable {net : Net} {index : PlaceIndex} {transitions : List IndexedTransition}
  {trace : SnapshotTrace}

theorem failsWith_moveKind {step : Step} (h : step.kind ≠ .initial) (number : Nat) :
    FailsWith IsNotAboutKinds (step.moveKind number) := by
  rw [Step.moveKind]
  split
  · exact .ok _
  · exact absurd ‹_› h

theorem failsWith_initialRecords (h : trace.StartsOnce) :
    FailsWith IsNotAboutKinds trace.initialRecords := by
  obtain ⟨records, hsteps⟩ := h.exists_steps_eq
  rw [SnapshotTrace.initialRecords, hsteps]
  exact .ok _

/-- A replay fails only at one of its steps. -/
theorem failsWith_steps {σ : Type} {take : σ → Nat → Step → Except ReplayError σ}
    {run : σ → Nat → List Step → Except ReplayError σ} (hnil : ∀ s number, run s number [] = .ok s)
    (hcons : ∀ s number step rest,
      run s number (step :: rest) = (take s number step >>= fun s ↦ run s (number + 1) rest))
    {steps : List Step}
    (htake : ∀ s number, ∀ step ∈ steps, FailsWith IsNotAboutKinds (take s number step)) (s : σ)
    (number : Nat) : FailsWith IsNotAboutKinds (run s number steps) := by
  induction steps generalizing s number with
  | nil =>
    rw [hnil]
    exact .ok s
  | cons step rest ih =>
    rw [hcons]
    apply FailsWith.bind
    · exact htake s number step List.mem_cons_self
    · intro next
      exact ih (fun s number step hstep ↦ htake s number step (List.mem_cons_of_mem _ hstep)) next _

/-! ## Complete markings -/

theorem failsWith_overwrite (number : Nat) (v : MarkingVector) (record : String × UInt64) :
    FailsWith IsNotAboutKinds (index.overwrite number v record) := by
  rw [PlaceIndex.overwrite]
  split
  · exact .ok _
  · exact .error ⟨nofun, nofun⟩

theorem failsWith_vectorStep {step : Step} (h : step.kind ≠ .initial) (s : VectorState)
    (number : Nat) : FailsWith IsNotAboutKinds (vectorStep index transitions s number step) := by
  rw [vectorStep]
  apply FailsWith.bind (failsWith_moveKind h number)
  intro kind
  apply FailsWith.bind (FailsWith.foldlM (fun v record _ ↦ failsWith_overwrite number v record) _)
  intro next
  split
  · exact .ok _
  · exact .error ⟨nofun, nofun⟩

theorem failsWith_byVector (h : trace.StartsOnce) :
    FailsWith IsNotAboutKinds (byVector net trace) := by
  rw [byVector]
  apply FailsWith.bind (failsWith_initialRecords h)
  intro records
  apply FailsWith.bind (FailsWith.foldlM (fun v record _ ↦ failsWith_overwrite 0 v record) _)
  intro start
  apply FailsWith.bind
  · apply failsWith_steps (fun _ _ ↦ rfl) vectorSteps_cons
    exact fun s number step hstep ↦ failsWith_vectorStep (h.moves step hstep) s number
  · exact fun s ↦ .ok _

/-! ## Signatures -/

theorem failsWith_checkPlace (number : Nat) (place : String) :
    FailsWith IsNotAboutKinds (checkPlace net number place) := by
  rw [checkPlace]
  split
  · exact .ok _
  · exact .error ⟨nofun, nofun⟩

theorem failsWith_touch (number : Nat) (kind : TransitionKind) (s : Touched)
    (record : String × UInt64) : FailsWith IsNotAboutKinds (touch net number kind s record) := by
  rw [touch]
  apply FailsWith.bind (failsWith_checkPlace number record.1)
  intro _
  dsimp only
  split
  · exact .error ⟨nofun, nofun⟩
  · exact .ok _

theorem failsWith_signatureStep {step : Step} (h : step.kind ≠ .initial) (s : SignatureState)
    (number : Nat) : FailsWith IsNotAboutKinds (signatureStep net s number step) := by
  rw [signatureStep]
  apply FailsWith.bind (failsWith_moveKind h number)
  intro kind
  apply FailsWith.bind (FailsWith.foldlM (fun s record _ ↦ failsWith_touch number kind s record) _)
  intro touched
  dsimp only
  split
  · exact .ok _
  · exact .error ⟨nofun, nofun⟩

theorem failsWith_bySignature (h : trace.StartsOnce) :
    FailsWith IsNotAboutKinds (bySignature net trace) := by
  rw [bySignature]
  apply FailsWith.bind (failsWith_initialRecords h)
  intro records
  apply FailsWith.bind
  · refine FailsWith.foldlM (fun m record _ ↦ ?_) _
    exact FailsWith.bind (failsWith_checkPlace 0 record.1) fun _ ↦ .ok _
  · intro start
    apply FailsWith.bind
    · apply failsWith_steps (fun _ _ ↦ rfl) signatureSteps_cons
      exact fun s number step hstep ↦ failsWith_signatureStep (h.moves step hstep) s number
    · exact fun s ↦ .ok _

end Replay

/-- In neither mode does a trace that starts once fail for the kinds of its steps. -/
theorem Net.failsWith_replay {trace : SnapshotTrace} (h : trace.StartsOnce) (net : Net)
    (mode : ReplayMode) : FailsWith ReplayError.IsNotAboutKinds (net.replay trace mode) := by
  cases mode with
  | vector => exact Replay.failsWith_byVector h
  | signature => exact Replay.failsWith_bySignature h

namespace SnapshotTrace

/-- A text is read exactly if each of its lines fits, and otherwise the first line that does not
fit is reported with its number. The trace has the moves of the action lines and the records of the
place lines, and no net fails to replay it for the kinds of its steps. -/
theorem ofText_reads_fitting_lines (text : String) :
    ((∃ t, ofText text = .ok t) ↔ ∀ line ∈ Text.lines text.toList, Fits line) ∧
      (∀ e, ofText text = .error e → ∃ before line after fault,
        Text.lines text.toList = before ++ line :: after ∧ (∀ line ∈ before, Fits line) ∧
          ¬ Fits line ∧ Breaks line fault ∧ e = .line (before.length + 1) fault) ∧
      ∀ t, ofText text = .ok t → t.IsReadFrom (Text.lines text.toList) ∧
        ∀ (net : Net) (mode : ReplayMode), net.replay t mode ≠ .error .missingInitial ∧
          ∀ number, net.replay t mode ≠ .error (.unexpectedInitial number) := by
  refine ⟨exists_readLines_eq_ok_iff, fun e he ↦ ?_, fun t ht ↦ ?_⟩
  · obtain ⟨before, line, after, fault, hlines, hbefore, hfault, rfl⟩ :=
      exists_of_readLines_eq_error he
    exact ⟨before, line, after, fault, hlines, hbefore, hfault.not_fits, hfault,
      by rw [Nat.add_comm]⟩
  · have hread := isReadFrom_of_readLines ht
    refine ⟨hread, fun net mode ↦ ⟨fun h ↦ ?_, fun number h ↦ ?_⟩⟩
    · exact (net.failsWith_replay hread.startsOnce mode _ h).1 rfl
    · exact (net.failsWith_replay hread.startsOnce mode _ h).2 number rfl

/-- The move names two kinds, and its count is signed. -/
def silentText : String := "start:place = 1\naction = SYNC then TAU\nend:place = +3"

def silentTrace : SnapshotTrace :=
  ⟨[⟨.initial, [("start", 1)]⟩, ⟨.move .tau, [("end", 3)]⟩]⟩

/-- The second text is refused for its second line, though its third line would not fit either. -/
theorem ofText_reads_fitting_lines_silent : ofText silentText = .ok silentTrace ∧
    (∀ line ∈ Text.lines silentText.toList, Fits line) ∧
      silentTrace.IsReadFrom (Text.lines silentText.toList) ∧
      (∀ (net : Net) (mode : ReplayMode), net.replay silentTrace mode ≠ .error .missingInitial) ∧
      ofText "start\naction = JUMP\nend:place" = .error (.line 2 (.noKind "action = JUMP")) ∧
      ∃ line ∈ Text.lines "start\naction = JUMP\nend:place".toList,
        ¬ Fits line ∧ Breaks line (.noKind "action = JUMP") := by
  have hread : ofText silentText = .ok silentTrace := by decide
  have hrefused :
      ofText "start\naction = JUMP\nend:place" = .error (.line 2 (.noKind "action = JUMP")) := by
    decide
  obtain ⟨hfits, -, htrace⟩ := ofText_reads_fitting_lines silentText
  obtain ⟨-, hfault, -⟩ := ofText_reads_fitting_lines "start\naction = JUMP\nend:place"
  obtain ⟨before, line, after, fault, hlines, -, hnot, hbreaks, heq⟩ := hfault _ hrefused
  obtain rfl : .noKind "action = JUMP" = fault := (ParseError.line.inj heq).2
  refine ⟨hread, hfits.1 ⟨_, hread⟩, (htrace _ hread).1,
    fun net mode ↦ ((htrace _ hread).2 net mode).1, hrefused, line, ?_, hnot, hbreaks⟩
  rw [hlines]
  exact List.mem_append_right before List.mem_cons_self

end SnapshotTrace

end PetriAlign
