import Mathlib.Algebra.GroupWithZero.Nat
import PetriAlign.Proofs.Replay.Agreement
import PetriAlign.Replay.Mode

/-!
# The accounts of a replay

Whatever the net, the trace and the mode, a replay that succeeds has a move for each step after the
initial one. The move stands for a declared transition of the kind that the step reports, and every
transition is counted as often as it has moves. If no label is the skip symbol, a move tells the
kind of its step.
-/

namespace PetriAlign

/-! ## Counters -/

namespace Table

/-- The sum of all counts. -/
def total (t : Table Nat) : Nat := (t.entries.map (·.2)).sum

theorem sum_insertEntry {entries : List (String × Nat)} (h : entries.Pairwise (·.1 < ·.1))
    (key : String) (value : Nat) :
    ((insertEntry key value entries).map (·.2)).sum + (lookup key entries).getD 0 =
      (entries.map (·.2)).sum + value := by
  induction entries with
  | nil => simp [insertEntry, lookup]
  | cons head rest ih =>
    obtain ⟨k, v⟩ := head
    have hrest := ih (List.pairwise_cons.1 h).2
    rw [insertEntry, lookup]
    split
    case isTrue hlt =>
      have hne : k ≠ key := fun heq ↦ String.lt_irrefl _ (heq ▸ hlt)
      have hnone : lookup key rest = none := by
        apply lookup_eq_none_of_lt
        intro e he
        exact String.lt_trans hlt ((List.pairwise_cons.1 h).1 e he)
      rw [if_neg hne, hnone, List.map_cons, List.sum_cons, Option.getD_none]
      omega
    case isFalse =>
      split
      case isTrue =>
        simp only [List.map_cons, List.sum_cons, Option.getD_some]
        omega
      case isFalse =>
        simp only [List.map_cons, List.sum_cons]
        omega

theorem total_insert (t : Table Nat) (key : String) (value : Nat) :
    (t.insert key value).total + (t.get? key).getD 0 = t.total + value :=
  sum_insertEntry t.sorted key value

end Table

namespace ReplayOutcome

variable {o : ReplayOutcome}

/-- The number of moves that stand for a transition with this id. -/
def movesOf (o : ReplayOutcome) (id : String) : Nat := o.alignment.countP (·.transition = id)

/-- Each transition is counted as often as it has moves. -/
structure IsCounted (o : ReplayOutcome) : Prop where
  fired : ∀ id, o.fired.get? id = if o.movesOf id = 0 then none else some (o.movesOf id)
  total : o.fired.total = o.alignment.length

theorem movesOf_record (o : ReplayOutcome) (t : Transition) (id : String) :
    (o.record t).movesOf id = o.movesOf id + if t.id = id then 1 else 0 := by
  unfold movesOf record
  rw [List.countP_append, List.countP_singleton, Move.transition_ofTransition]
  simp only [decide_eq_true_eq]

theorem IsCounted.record (h : o.IsCounted) (t : Transition) : (o.record t).IsCounted := by
  have hbefore : (o.fired.get? t.id).getD 0 = o.movesOf t.id := by
    rw [h.fired]
    split
    case isTrue hzero => rw [hzero, Option.getD_none]
    case isFalse => rfl
  constructor
  · intro id
    have hget : (o.record t).fired.get? id =
        if t.id = id then some (o.movesOf t.id + 1) else o.fired.get? id := by
      rw [← hbefore]
      exact Table.get?_insert _ _ _ _
    rw [hget, movesOf_record]
    split
    case isTrue hid =>
      subst hid
      rw [if_neg (Nat.succ_ne_zero _)]
    case isFalse => exact h.fired id
  · have htotal := o.fired.total_insert t.id ((o.fired.get? t.id).getD 0 + 1)
    have hlength : (o.record t).alignment.length = o.alignment.length + 1 := List.length_append
    rw [hlength, ← h.total]
    change (o.fired.insert t.id _).total = _
    omega

/-- The counts are right after any transitions. -/
theorem isCounted_foldl_record (ts : List Transition) (h : o.IsCounted) :
    (ts.foldl ReplayOutcome.record o).IsCounted := by
  induction ts generalizing o with
  | nil => exact h
  | cons t ts ih => exact ih (h.record t)

theorem isCounted_empty : IsCounted {} where
  fired _ := rfl
  total := rfl

end ReplayOutcome

/-! ## Steps and their transitions -/

/-- The transition is declared, and the step reports a move of its kind. -/
structure Net.Moves (net : Net) (step : Step) (t : Transition) : Prop where
  mem : t ∈ net.transitions
  kind : step.kind = .move t.kind

namespace Replay

variable {net : Net} {index : PlaceIndex} {number : Nat} {step : Step} {steps : List Step}

/-- Taken by complete markings, a step records one of its transitions. -/
theorem outcome_of_vectorStep {s s' : VectorState} (h : vectorStep index
      (net.transitions.map (net.indexTransition index)) s number step = .ok s') :
    ∃ t, net.Moves step t ∧ s'.outcome = s.outcome.record t := by
  simp only [vectorStep, bind_eq_ok_iff, Step.moveKind_eq_ok_iff] at h
  obtain ⟨kind, hkind, next, -, hok⟩ := h
  split at hok
  case h_1 t hfound =>
    cases hok
    have hexplains := List.find?_some hfound
    rw [Bool.and_eq_true, decide_eq_true_iff] at hexplains
    obtain ⟨u, hu, rfl⟩ := List.mem_map.1 (List.mem_of_find?_eq_some hfound)
    exact ⟨u, ⟨hu, hexplains.1 ▸ hkind⟩, rfl⟩
  case h_2 => cases hok

/-- So does a step taken by signatures: a signature tells the kind, whatever the ids are. -/
theorem outcome_of_signatureStep {s s' : SignatureState}
    (h : signatureStep net s number step = .ok s') :
    ∃ t, net.Moves step t ∧ s'.outcome = s.outcome.record t := by
  simp only [signatureStep, bind_eq_ok_iff, Step.moveKind_eq_ok_iff] at h
  obtain ⟨kind, hkind, touched, -, hok⟩ := h
  split at hok
  case h_1 t hfound =>
    cases hok
    obtain ⟨hmem, hsig⟩ := Net.mem_of_bySignature? hfound
    exact ⟨t, ⟨hmem, kind_eq_of_signature_eq hsig ▸ hkind⟩, rfl⟩
  case h_2 => cases hok

/-- If each step records one of its transitions, the steps record one transition each. -/
theorem outcome_of_steps {σ : Type} (outcome : σ → ReplayOutcome)
    {take : σ → Nat → Step → Except ReplayError σ}
    {run : σ → Nat → List Step → Except ReplayError σ} (hnil : ∀ s number, run s number [] = .ok s)
    (hcons : ∀ s number step rest,
      run s number (step :: rest) = (take s number step >>= fun s ↦ run s (number + 1) rest))
    (htake : ∀ s number step s', take s number step = .ok s' →
      ∃ t, net.Moves step t ∧ outcome s' = (outcome s).record t)
    {s s' : σ} (h : run s number steps = .ok s') :
    ∃ ts, List.Forall₂ net.Moves steps ts ∧
      outcome s' = ts.foldl ReplayOutcome.record (outcome s) := by
  induction steps generalizing s number with
  | nil =>
    rw [hnil] at h
    cases h
    exact ⟨[], .nil, rfl⟩
  | cons step rest ih =>
    rw [hcons, bind_eq_ok_iff] at h
    obtain ⟨next, hnext, hrest⟩ := h
    obtain ⟨t, ht, hrecord⟩ := htake s number step next hnext
    obtain ⟨ts, hts, hrecords⟩ := ih hrest
    refine ⟨t :: ts, .cons ht hts, ?_⟩
    rw [hrecords, hrecord, List.foldl_cons]

theorem exists_initial_of_initialRecords {trace : SnapshotTrace} {records : List (String × UInt64)}
    (h : trace.initialRecords = .ok records) :
    trace.steps = ⟨.initial, records⟩ :: trace.moves := by
  obtain ⟨steps⟩ := trace
  unfold SnapshotTrace.initialRecords at h
  split at h
  case h_1 heq =>
    cases h
    dsimp only at heq
    subst heq
    rfl
  case h_2 => cases h

/-- A replay that succeeds has recorded a transition of each move. -/
theorem exists_moves_of_replay {trace : SnapshotTrace} {mode : ReplayMode} {o : ReplayOutcome}
    (h : net.replay trace mode = .ok o) :
    (∃ records, trace.steps = ⟨.initial, records⟩ :: trace.moves) ∧
      ∃ ts, List.Forall₂ net.Moves trace.moves ts ∧ o = ts.foldl ReplayOutcome.record {} := by
  cases mode with
  | vector =>
    simp only [Net.replay, byVector, bind_eq_ok_iff] at h
    obtain ⟨records, hrecords, start, -, s, hs, hok⟩ := h
    cases hok
    exact ⟨⟨records, exists_initial_of_initialRecords hrecords⟩,
      outcome_of_steps VectorState.outcome (fun _ _ ↦ rfl) vectorSteps_cons
        (fun _ _ _ _ ↦ outcome_of_vectorStep) hs⟩
  | signature =>
    simp only [Net.replay, bySignature, bind_eq_ok_iff] at h
    obtain ⟨records, hrecords, start, -, s, hs, hok⟩ := h
    cases hok
    exact ⟨⟨records, exists_initial_of_initialRecords hrecords⟩,
      outcome_of_steps SignatureState.outcome (fun _ _ ↦ rfl) signatureSteps_cons
        (fun _ _ _ _ ↦ outcome_of_signatureStep) hs⟩

end Replay

/-! ## Sides of a move -/

namespace Move

/-- The skipped side of a move tells the kind of its step. -/
structure TellsKind (move : Move) (kind : StepKind) : Prop where
  log : move.isLogMove = true ↔ kind = .move .log
  model : move.isModelMove = true ↔ kind = .move .model ∨ kind = .move .tau
  sync : (move.isLogMove = false ∧ move.isModelMove = false) ↔ kind = .move .sync
  notBoth : ¬ (move.isLogMove = true ∧ move.isModelMove = true)

theorem tellsKind_ofTransition {t : Transition} (h : t.label ≠ skip) :
    (ofTransition t).TellsKind (.move t.kind) := by
  unfold ofTransition
  cases t.kind <;> constructor <;> simp [isLogMove, isModelMove, h]

end Move

/-! ## The whole outcome -/

/-- The outcome has a move for each step after the initial one, for a declared transition of the
kind that the step reports, and counts them. -/
structure ReplayOutcome.AccountsFor (o : ReplayOutcome) (net : Net) (trace : SnapshotTrace) : Prop
    extends o.IsCounted where
  length : o.alignment.length + 1 = trace.steps.length
  moves : ∀ (s : Nat) move step, o.alignment[s]? = some move → trace.steps[s + 1]? = some step →
    ∃ t, net.Moves step t ∧ move = .ofTransition t
  tellsKind : (∀ t ∈ net.transitions, t.label ≠ skip) → ∀ (s : Nat) move step,
    o.alignment[s]? = some move → trace.steps[s + 1]? = some step → move.TellsKind step.kind

/-- In either mode, the outcome of a replay accounts for the trace. -/
theorem Net.accountsFor_of_replay (net : Net) (trace : SnapshotTrace) (mode : ReplayMode)
    {o : ReplayOutcome} (h : net.replay trace mode = .ok o) : o.AccountsFor net trace := by
  obtain ⟨⟨records, hsteps⟩, ts, hts, rfl⟩ := Replay.exists_moves_of_replay h
  have halign : (ts.foldl ReplayOutcome.record {}).alignment = ts.map Move.ofTransition :=
    Replay.alignment_foldl_record {} ts
  obtain ⟨hlength, hmoves⟩ := List.forall₂_iff_get.1 hts
  have hat (s : Nat) (move : Move) (step : Step)
      (hmove : (ts.foldl ReplayOutcome.record {}).alignment[s]? = some move)
      (hstep : trace.steps[s + 1]? = some step) :
      ∃ t, net.Moves step t ∧ move = .ofTransition t := by
    rw [halign, List.getElem?_map, Option.map_eq_some_iff] at hmove
    obtain ⟨t, ht, rfl⟩ := hmove
    rw [← SnapshotTrace.getElem?_moves] at hstep
    obtain ⟨hs, rfl⟩ := List.getElem?_eq_some_iff.1 hstep
    obtain ⟨hs', rfl⟩ := List.getElem?_eq_some_iff.1 ht
    exact ⟨_, hmoves s hs hs', rfl⟩
  refine ⟨ReplayOutcome.isCounted_foldl_record ts ReplayOutcome.isCounted_empty, ?_, hat, ?_⟩
  · rw [halign, List.length_map, ← hlength, hsteps, List.length_cons]
  · intro hlabels s move step hmove hstep
    obtain ⟨t, ht, rfl⟩ := hat s move step hmove hstep
    rw [ht.kind]
    exact Move.tellsKind_ofTransition (hlabels t ht.mem)

/-- With two ways to pay, the modes choose different transitions, and both outcomes account for the
trace. -/
theorem Net.accountsFor_of_replay_twoWays :
    ∃ o o', Replay.twoWays.replay Replay.paymentTrace .vector = .ok o ∧
      Replay.twoWays.replay Replay.paymentTrace .signature = .ok o' ∧ o ≠ o' ∧
      o.AccountsFor Replay.twoWays Replay.paymentTrace ∧
      o'.AccountsFor Replay.twoWays Replay.paymentTrace ∧
      (∀ t ∈ Replay.twoWays.transitions, t.label ≠ skip) ∧
      ∃ move, o'.alignment[1]? = some move ∧ move.TellsKind (.move .model) := by
  have hlabels : ∀ t ∈ Replay.twoWays.transitions, t.label ≠ skip := by decide
  have hvector : Replay.twoWays.replay Replay.paymentTrace .vector =
      .ok ⟨[⟨skip, "tau check", "check"⟩, ⟨skip, "pay", "t1"⟩],
        .ofList [("check", 1), ("t1", 1)]⟩ := by decide +kernel
  have hsignature : Replay.twoWays.replay Replay.paymentTrace .signature =
      .ok ⟨[⟨skip, "tau check", "check"⟩, ⟨skip, "pay cash", "t2"⟩],
        .ofList [("check", 1), ("t2", 1)]⟩ := by decide +kernel
  have haccounts := accountsFor_of_replay _ _ _ hsignature
  exact ⟨_, _, hvector, hsignature, by decide, accountsFor_of_replay _ _ _ hvector, haccounts,
    hlabels, _, rfl, haccounts.tellsKind hlabels 1 _ _ rfl rfl⟩

end PetriAlign
