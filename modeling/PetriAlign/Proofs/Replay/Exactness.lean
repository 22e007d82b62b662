import PetriAlign.Proofs.Replay.Explanation

/-!
# Exactness of replay by complete markings

The markings of a trace are its records, put over the initial marking step by step. A trace is
accepted exactly if each of its moves has a transition of the reported kind that takes the marking
before the move to the one after it; the first such transition is reported, and the first move
without one is the error. So every run that is written down is accepted.
-/

namespace PetriAlign

namespace SnapshotTrace

variable (trace : SnapshotTrace) (net : Net)

/-- The records of step `s`. -/
def recordsAt (s : Nat) : List (String × UInt64) := (trace.steps[s]?.map (·.records)).getD []

/-- The marking after step `s`. -/
def markingAfter : Nat → Marking
  | 0 => net.initialMarking.overwrite (trace.recordsAt 0)
  | s + 1 => (markingAfter s).overwrite (trace.recordsAt (s + 1))

/-- The trace begins with its only initial step, and its records are about places of the net. -/
structure Describes : Prop where
  starts : trace.steps.head?.map (·.kind) = some .initial
  moves : ∀ step ∈ trace.moves, step.kind ≠ .initial
  declared : ∀ step ∈ trace.steps, ∀ record ∈ step.records, record.1 ∈ net.placeIds

/-- Move `s`, counted from zero, is of the kind of `t`, and `t` takes the marking before it to the
marking after it. -/
def Explained (s : Nat) (t : Transition) : Prop :=
  (∃ records, trace.steps[s + 1]? = some ⟨.move t.kind, records⟩) ∧
    net.Takes t (trace.markingAfter net s) (trace.markingAfter net (s + 1))

/-- Of the transitions that explain move `s`, the one declared first. -/
def FirstExplained (s : Nat) (t : Transition) : Prop :=
  ∃ before after, net.transitions = before ++ t :: after ∧ trace.Explained net s t ∧
    ∀ u ∈ before, ¬ trace.Explained net s u

/-- The trace reports the moves of a run from `m`: their kinds, and markings that have the counts of
the run. -/
structure Reports (m : Marking) (run : List (Transition × Marking)) : Prop where
  start : net.Agree (trace.markingAfter net 0) m
  length : trace.moves.length = run.length
  moves : ∀ (s : Nat) t m', run[s]? = some (t, m') →
    (∃ records, trace.steps[s + 1]? = some ⟨.move t.kind, records⟩) ∧
      net.Agree (trace.markingAfter net (s + 1)) m'

variable {trace net}

theorem getElem?_moves (s : Nat) : trace.moves[s]? = trace.steps[s + 1]? := by
  rw [moves, List.getElem?_drop, Nat.add_comm]

/-- The kind that a later step reports. -/
theorem Describes.exists_move (h : trace.Describes net) {s : Nat} (hs : s < trace.moves.length) :
    ∃ kind records, trace.steps[s + 1]? = some ⟨.move kind, records⟩ := by
  have hget := List.getElem?_eq_getElem hs
  rw [getElem?_moves] at hget
  cases hstep : trace.moves[s] with
  | mk kind records =>
    cases kind with
    | initial =>
      have hmem := List.getElem_mem hs
      rw [hstep] at hmem
      exact absurd rfl (h.moves _ hmem)
    | move kind => exact ⟨kind, records, by rw [hget, hstep]⟩

theorem foldlM_putRecord {number : Nat} {m : Marking} {records : List (String × UInt64)}
    (h : ∀ record ∈ records, record.1 ∈ net.placeIds) :
    records.foldlM (Replay.putRecord net number) m = .ok (m.overwrite records) := by
  induction records generalizing m with
  | nil => rfl
  | cons record records ih =>
    rw [List.foldlM_cons, Replay.putRecord, if_pos (h record (by simp))]
    exact ih fun r hr ↦ h r (by simp [hr])

/-- The transitions behind the moves from `s` on. -/
def explainFrom (trace : SnapshotTrace) (net : Net) (s : Nat) :
    Except ReplayError (List Transition) :=
  Replay.explainSteps net (trace.markingAfter net s) (s + 1) (trace.moves.drop s)

theorem declared_of_foldlM_putRecord {number : Nat} {m m' : Marking}
    {records : List (String × UInt64)}
    (h : records.foldlM (Replay.putRecord net number) m = .ok m') :
    ∀ record ∈ records, record.1 ∈ net.placeIds := by
  induction records generalizing m with
  | nil => exact fun _ hrecord ↦ absurd hrecord List.not_mem_nil
  | cons record records ih =>
    rw [List.foldlM_cons, Replay.putRecord] at h
    split at h
    case isTrue hp => exact List.forall_mem_cons.2 ⟨hp, ih h⟩
    case isFalse => cases h

theorem describes_of_explainSteps {m : Marking} {number : Nat} {steps : List Step}
    {ts : List Transition} (h : Replay.explainSteps net m number steps = .ok ts) :
    ∀ step ∈ steps, step.kind ≠ .initial ∧ ∀ record ∈ step.records, record.1 ∈ net.placeIds := by
  induction steps generalizing m number ts with
  | nil => exact fun _ hstep ↦ absurd hstep List.not_mem_nil
  | cons step steps ih =>
    obtain ⟨kind, records⟩ := step
    rw [Replay.explainSteps] at h
    cases kind with
    | initial => cases h
    | move kind =>
      simp only [Step.moveKind, bind, Except.bind] at h
      cases hput : records.foldlM (Replay.putRecord net number) m with
      | error e => simp [hput] at h
      | ok next =>
        simp only [hput] at h
        cases hfound : net.explainer? kind m next with
        | none => simp [hfound, throw, throwThe, MonadExceptOf.throw] at h
        | some t =>
          cases hrest : Replay.explainSteps net next (number + 1) steps with
          | error e => simp [hfound, hrest] at h
          | ok rest =>
            exact List.forall_mem_cons.2
              ⟨⟨StepKind.noConfusion, declared_of_foldlM_putRecord hput⟩, ih hrest⟩

/-- Only such traces are explained. -/
theorem describes_of_explain {ts : List Transition} (h : Replay.explain net trace = .ok ts) :
    trace.Describes net := by
  obtain ⟨steps⟩ := trace
  cases steps with
  | nil => cases h
  | cons step steps =>
    obtain ⟨kind, records⟩ := step
    cases kind with
    | move kind => cases h
    | initial =>
      simp only [Replay.explain, initialRecords, bind, Except.bind] at h
      cases hput : records.foldlM (Replay.putRecord net 0) net.initialMarking with
      | error e => simp [hput] at h
      | ok start =>
        have hsteps := describes_of_explainSteps (by simpa only [hput] using h)
        refine ⟨rfl, fun step hstep ↦ (hsteps step hstep).1, ?_⟩
        exact List.forall_mem_cons.2
          ⟨declared_of_foldlM_putRecord hput, fun step hstep ↦ (hsteps step hstep).2⟩

theorem explain_eq_explainFrom (h : trace.Describes net) :
    Replay.explain net trace = trace.explainFrom net 0 := by
  obtain ⟨steps⟩ := trace
  have hstart := h.starts
  cases steps with
  | nil => simp at hstart
  | cons step steps =>
    obtain ⟨kind, records⟩ := step
    simp only [List.head?_cons, Option.map_some, Option.some.injEq] at hstart
    subst hstart
    have hrecords := h.declared ⟨.initial, records⟩ (by simp)
    simp only [Replay.explain, initialRecords, bind, Except.bind, foldlM_putRecord hrecords,
      explainFrom, markingAfter, recordsAt, List.drop_zero]
    rfl

theorem explainFrom_end {s : Nat} (hs : trace.moves.length ≤ s) :
    trace.explainFrom net s = .ok [] := by
  rw [explainFrom, List.drop_eq_nil_of_le hs]
  rfl

theorem explainFrom_move (h : trace.Describes net) {s : Nat} {kind : TransitionKind}
    {records : List (String × UInt64)} (hs : trace.steps[s + 1]? = some ⟨.move kind, records⟩) :
    trace.explainFrom net s =
      match net.explainer? kind (trace.markingAfter net s) (trace.markingAfter net (s + 1)) with
      | some t => (trace.explainFrom net (s + 1)).map (t :: ·)
      | none => .error (.noMatch (s + 1) kind) := by
  have hmove : trace.moves[s]? = some ⟨.move kind, records⟩ := by
    rw [getElem?_moves, hs]
  have hrecords := h.declared _ (List.mem_of_getElem? hs)
  have hat : trace.recordsAt (s + 1) = records := by
    rw [recordsAt, hs]
    rfl
  have hdrop : trace.moves.drop s = ⟨.move kind, records⟩ :: trace.moves.drop (s + 1) := by
    obtain ⟨hlt, hget⟩ := List.getElem?_eq_some_iff.1 hmove
    rw [List.drop_eq_getElem_cons hlt, hget]
  rw [explainFrom, hdrop, Replay.explainSteps]
  simp only [Step.moveKind, bind, Except.bind, foldlM_putRecord hrecords]
  rw [← hat, ← markingAfter]
  cases net.explainer? kind _ _ <;> rfl

theorem explainer?_eq_some_iff {s : Nat} {kind : TransitionKind}
    {records : List (String × UInt64)} (hs : trace.steps[s + 1]? = some ⟨.move kind, records⟩)
    {t : Transition} :
    net.explainer? kind (trace.markingAfter net s) (trace.markingAfter net (s + 1)) = some t ↔
      trace.FirstExplained net s t := by
  have hiff (u : Transition) : (u.kind = kind ∧
      net.Takes u (trace.markingAfter net s) (trace.markingAfter net (s + 1))) ↔
        trace.Explained net s u := by
    rw [Explained, hs]
    simp [eq_comm]
  simp only [Net.explainer?, List.find?_eq_some_iff_append, decide_eq_true_eq,
    Bool.not_eq_true', decide_eq_false_iff_not, hiff, FirstExplained]
  constructor
  · rintro ⟨ht, before, after, heq, hbefore⟩
    exact ⟨before, after, heq, ht, hbefore⟩
  · rintro ⟨before, after, heq, ht, hbefore⟩
    exact ⟨ht, before, after, heq, hbefore⟩

theorem explainer?_eq_none_iff {s : Nat} {kind : TransitionKind}
    {records : List (String × UInt64)} (hs : trace.steps[s + 1]? = some ⟨.move kind, records⟩) :
    net.explainer? kind (trace.markingAfter net s) (trace.markingAfter net (s + 1)) = none ↔
      ∀ t ∈ net.transitions, ¬ trace.Explained net s t := by
  rw [Net.explainer?, List.find?_eq_none]
  apply forall₂_congr
  intro t _
  rw [Explained, hs, decide_eq_true_iff]
  simp [eq_comm]

theorem exists_explainer? {s : Nat} {kind : TransitionKind} {records : List (String × UInt64)}
    (hs : trace.steps[s + 1]? = some ⟨.move kind, records⟩)
    (hexp : ∃ t ∈ net.transitions, trace.Explained net s t) :
    ∃ t, net.explainer? kind (trace.markingAfter net s) (trace.markingAfter net (s + 1)) =
      some t := by
  apply Option.ne_none_iff_exists'.1
  intro hnone
  obtain ⟨t, ht, hmove⟩ := hexp
  exact (explainer?_eq_none_iff hs).1 hnone t ht hmove

theorem explainFrom_move_eq_ok_iff (h : trace.Describes net) {s : Nat} {kind : TransitionKind}
    {records : List (String × UInt64)} (hs : trace.steps[s + 1]? = some ⟨.move kind, records⟩)
    {ts : List Transition} :
    trace.explainFrom net s = .ok ts ↔ ∃ t rest, ts = t :: rest ∧
      trace.FirstExplained net s t ∧ trace.explainFrom net (s + 1) = .ok rest := by
  rw [explainFrom_move h hs]
  simp only [← explainer?_eq_some_iff hs]
  cases net.explainer? kind (trace.markingAfter net s) (trace.markingAfter net (s + 1)) with
  | none => simp
  | some t => cases trace.explainFrom net (s + 1) <;> simp [Except.map, eq_comm]

/-- From a move on the explanation succeeds exactly with the first transitions that explain the
moves. -/
theorem explainFrom_eq_ok_iff (h : trace.Describes net) {s : Nat} {ts : List Transition} :
    trace.explainFrom net s = .ok ts ↔ ts.length = trace.moves.length - s ∧
      ∀ r t, ts[r]? = some t → trace.FirstExplained net (s + r) t := by
  induction hk : trace.moves.length - s generalizing s ts with
  | zero =>
    rw [explainFrom_end (by omega), List.length_eq_zero_iff]
    constructor
    · intro hok
      cases hok
      exact ⟨rfl, by simp⟩
    · intro hts
      rw [hts.1]
  | succ k ih =>
    obtain ⟨kind, records, hs⟩ := h.exists_move (s := s) (by omega)
    rw [explainFrom_move_eq_ok_iff h hs]
    constructor
    · rintro ⟨t, rest, rfl, ht, hrest⟩
      obtain ⟨hlen, hfirst⟩ := (ih (by omega)).1 hrest
      refine ⟨congrArg (· + 1) hlen, fun r u hr ↦ ?_⟩
      cases r with
      | zero =>
        rw [List.getElem?_cons_zero, Option.some_inj] at hr
        exact hr ▸ ht
      | succ r =>
        have hu := hfirst r u hr
        rwa [Nat.add_right_comm] at hu
    · rintro ⟨hlen, hfirst⟩
      cases ts with
      | nil => cases hlen
      | cons t rest =>
        refine ⟨t, rest, rfl, hfirst 0 t rfl, (ih (by omega)).2 ⟨Nat.succ_inj.1 hlen, ?_⟩⟩
        intro r u hr
        have hu := hfirst (r + 1) u hr
        rwa [← Nat.add_assoc, Nat.add_right_comm] at hu

/-- If every move from `s` on has a transition, the explanation succeeds. -/
theorem exists_explainFrom_eq_ok (h : trace.Describes net) {s : Nat}
    (hall : ∀ r, s ≤ r → r < trace.moves.length →
      ∃ t ∈ net.transitions, trace.Explained net r t) :
    ∃ ts, trace.explainFrom net s = .ok ts := by
  induction hk : trace.moves.length - s generalizing s with
  | zero => exact ⟨[], explainFrom_end (by omega)⟩
  | succ k ih =>
    obtain ⟨kind, records, hs⟩ := h.exists_move (s := s) (by omega)
    obtain ⟨ts, hts⟩ := ih (s := s + 1) (fun r hr ↦ hall r (by omega)) (by omega)
    obtain ⟨t, ht⟩ := exists_explainer? hs (hall s le_rfl (by omega))
    rw [explainFrom_move h hs, hts, ht]
    exact ⟨t :: ts, rfl⟩

/-- The error is about the first move without a transition. -/
theorem explainFrom_eq_noMatch (h : trace.Describes net) {s r : Nat} {kind : TransitionKind}
    {records : List (String × UInt64)} (hsr : s ≤ r)
    (hr : trace.steps[r + 1]? = some ⟨.move kind, records⟩)
    (hnone : ∀ t ∈ net.transitions, ¬ trace.Explained net r t)
    (hbefore : ∀ q, s ≤ q → q < r → ∃ t ∈ net.transitions, trace.Explained net q t) :
    trace.explainFrom net s = .error (.noMatch (r + 1) kind) := by
  induction hk : r - s generalizing s with
  | zero =>
    obtain rfl : s = r := by omega
    rw [explainFrom_move h hr, (explainer?_eq_none_iff hr).2 hnone]
  | succ k ih =>
    have hlen : r < trace.moves.length := by
      rw [← getElem?_moves] at hr
      exact (List.getElem?_eq_some_iff.1 hr).1
    obtain ⟨kind', records', hs⟩ := h.exists_move (s := s) (by omega)
    have hrest := ih (s := s + 1) (by omega) (fun q hq ↦ hbefore q (by omega)) (by omega)
    obtain ⟨t, ht⟩ := exists_explainer? hs (hbefore s le_rfl (by omega))
    rw [explainFrom_move h hs, hrest, ht]
    rfl

theorem FirstExplained.explained {s : Nat} {t : Transition}
    (h : trace.FirstExplained net s t) : trace.Explained net s t := by
  obtain ⟨before, after, -, hexp, -⟩ := h
  exact hexp

theorem FirstExplained.mem {s : Nat} {t : Transition} (h : trace.FirstExplained net s t) :
    t ∈ net.transitions := by
  obtain ⟨before, after, heq, -, -⟩ := h
  simp [heq]

/-- The moves of a reported run are explained by the transitions of the run. -/
theorem Reports.explained {m m' : Marking} {run : List (Transition × Marking)}
    (h : trace.Reports net m run) (hrun : net.Run m run m') {s : Nat} {t : Transition}
    {after : Marking} (hs : run[s]? = some (t, after)) :
    t ∈ net.transitions ∧ trace.Explained net s t := by
  obtain ⟨ht, before, hbefore, htakes⟩ := hrun.takes hs
  refine ⟨ht, (h.moves s t after hs).1, ?_⟩
  have hagree : net.Agree (trace.markingAfter net s) before := by
    cases s with
    | zero =>
      rw [List.getElem?_cons_zero, Option.some_inj] at hbefore
      exact hbefore ▸ h.start
    | succ s =>
      rw [List.getElem?_cons_succ, List.getElem?_map, Option.map_eq_some_iff] at hbefore
      obtain ⟨⟨u, mid⟩, hu, rfl⟩ := hbefore
      exact (h.moves s u mid hu).2
  exact (Net.takes_congr hagree (h.moves s t after hs).2).2 htakes

end SnapshotTrace

namespace Replay

open SnapshotTrace

variable {net : Net} {trace : SnapshotTrace}

theorem byVector_eq_explainFrom (hnet : net.WellJoined) (htrace : trace.Describes net) :
    byVector net trace =
      (trace.explainFrom net 0).map (List.foldl ReplayOutcome.record {}) := by
  rw [byVector_eq_explain hnet, explain_eq_explainFrom htrace]

/-- The outcome that records transitions one after another has their moves as its alignment. -/
theorem alignment_foldl_record (outcome : ReplayOutcome) (ts : List Transition) :
    (ts.foldl ReplayOutcome.record outcome).alignment =
      outcome.alignment ++ ts.map Move.ofTransition := by
  induction ts generalizing outcome with
  | nil => simp
  | cons t ts ih => simp [ih, ReplayOutcome.record]

/-- An accepted replay has found the first transitions that explain the moves. -/
theorem firstExplained_of_byVector (hnet : net.WellJoined) {outcome : ReplayOutcome}
    (hok : byVector net trace = .ok outcome) :
    trace.Describes net ∧ ∃ ts : List Transition, ts.length = trace.moves.length ∧
      outcome = ts.foldl ReplayOutcome.record {} ∧
      outcome.alignment = ts.map Move.ofTransition ∧
      ∀ s t, ts[s]? = some t → trace.FirstExplained net s t := by
  rw [byVector_eq_explain hnet] at hok
  cases hts : explain net trace with
  | error e => simp [hts, Except.map] at hok
  | ok ts =>
    rw [hts] at hok
    have htrace := describes_of_explain hts
    rw [explain_eq_explainFrom htrace] at hts
    obtain ⟨hlen, hfirst⟩ := (explainFrom_eq_ok_iff htrace).1 hts
    cases hok
    refine ⟨htrace, ts, hlen, rfl, by simp [alignment_foldl_record], fun s t hs ↦ ?_⟩
    have := hfirst s t hs
    rwa [Nat.zero_add] at this

/-- A reported transition is found again if no other one of its kind has the same effect. -/
theorem alignment_of_reports (hnet : net.WellJoined) {m m' : Marking}
    {run : List (Transition × Marking)} (hrun : net.Run m run m')
    (hreports : trace.Reports net m run) {outcome : ReplayOutcome}
    (hok : byVector net trace = .ok outcome) {s : Nat} {t : Transition} {after : Marking}
    (hs : run[s]? = some (t, after))
    (honly : ∀ u ∈ net.transitions, u.kind = t.kind → net.SameEffect u t → u = t) :
    outcome.alignment[s]? = some (Move.ofTransition t) := by
  obtain ⟨-, ts, hlen, -, halign, hfirst⟩ := firstExplained_of_byVector hnet hok
  have hlt : s < ts.length := by
    rw [hlen, hreports.length]
    exact (List.getElem?_eq_some_iff.1 hs).1
  have hget := List.getElem?_eq_getElem hlt
  have hfound := hfirst s _ hget
  obtain ⟨-, ⟨records, hstep⟩, htakes⟩ := hreports.explained hrun hs
  obtain ⟨⟨records', hstep'⟩, htakes'⟩ := hfound.explained
  have hkind : ts[s].kind = t.kind := by
    rw [hstep, Option.some_inj, Step.mk.injEq, StepKind.move.injEq] at hstep'
    exact hstep'.1.symm
  have heq := honly _ hfound.mem hkind (Net.sameEffect_of_takes htakes' htakes)
  rw [halign, List.getElem?_map, hget, heq]
  rfl

/-- A replay by complete markings is accepted exactly if every move is explained by a transition.
It then reports the first transitions that explain the moves; otherwise its error is about the
first move without one. A reported run is accepted, and each of its transitions is found again if
no other one of its kind has the same effect. -/
theorem byVector_exact (hnet : net.WellJoined) (htrace : trace.Describes net) :
    ((∃ outcome, byVector net trace = .ok outcome) ↔
      ∀ s < trace.moves.length, ∃ t ∈ net.transitions, trace.Explained net s t) ∧
    (∀ outcome, byVector net trace = .ok outcome →
      ∃ ts : List Transition, ts.length = trace.moves.length ∧
        outcome = ts.foldl ReplayOutcome.record {} ∧
        outcome.alignment = ts.map Move.ofTransition ∧
        ∀ s t, ts[s]? = some t → trace.FirstExplained net s t) ∧
    (∀ s kind records, trace.steps[s + 1]? = some ⟨.move kind, records⟩ →
      (∀ t ∈ net.transitions, ¬ trace.Explained net s t) →
      (∀ r < s, ∃ t ∈ net.transitions, trace.Explained net r t) →
      byVector net trace = .error (.noMatch (s + 1) kind)) ∧
    (∀ m run m', net.Run m run m' → trace.Reports net m run →
      ∃ outcome, byVector net trace = .ok outcome ∧
        ∀ (s : Nat) t after, run[s]? = some (t, after) →
          (∀ u ∈ net.transitions, u.kind = t.kind → net.SameEffect u t → u = t) →
          outcome.alignment[s]? = some (Move.ofTransition t)) := by
  have hreplay := byVector_eq_explainFrom hnet htrace
  have hsound (outcome : ReplayOutcome) (hok : byVector net trace = .ok outcome) :=
    (firstExplained_of_byVector hnet hok).2
  have hcomplete (hall : ∀ s < trace.moves.length, ∃ t ∈ net.transitions,
      trace.Explained net s t) : ∃ outcome, byVector net trace = .ok outcome := by
    obtain ⟨ts, hts⟩ := exists_explainFrom_eq_ok htrace (s := 0) fun r _ hr ↦ hall r hr
    exact ⟨_, by rw [hreplay, hts]; rfl⟩
  refine ⟨⟨?_, hcomplete⟩, hsound, ?_, ?_⟩
  · rintro ⟨outcome, hok⟩ s hs
    obtain ⟨ts, hlen, -, -, hfirst⟩ := hsound outcome hok
    have hmove := hfirst s _ (List.getElem?_eq_getElem (hlen ▸ hs))
    exact ⟨_, hmove.mem, hmove.explained⟩
  · intro s kind records hs hnone hbefore
    rw [hreplay, explainFrom_eq_noMatch htrace (Nat.zero_le s) hs hnone fun q _ ↦ hbefore q]
    rfl
  · intro m run m' hrun hreports
    have hexplained : ∀ s < trace.moves.length, ∃ t ∈ net.transitions,
        trace.Explained net s t := by
      intro s hs
      rw [hreports.length] at hs
      exact ⟨_, hreports.explained hrun (List.getElem?_eq_getElem hs)⟩
    obtain ⟨outcome, hok⟩ := hcomplete hexplained
    exact ⟨outcome, hok, fun s t after ↦ alignment_of_reports hnet hrun hreports hok⟩

/-- A report of the run of `payment`. -/
def paymentTrace : SnapshotTrace :=
  ⟨[⟨.initial, []⟩, ⟨.move .tau, [("start", 0), ("ready", 1)]⟩,
    ⟨.move .model, [("ready", 0), ("end", 1)]⟩]⟩

/-- The run of `payment`. -/
def paymentRun : List (Transition × Marking) :=
  payment.transitions.zip [paymentTrace.markingAfter payment 1, paymentTrace.markingAfter payment 2]

/-- The run of `payment` is found again. -/
theorem byVector_exact_payment :
    payment.WellJoined ∧ paymentTrace.Describes payment ∧
    payment.Run payment.initialMarking paymentRun (paymentTrace.markingAfter payment 2) ∧
    paymentTrace.Reports payment payment.initialMarking paymentRun ∧
    ∃ outcome, byVector payment paymentTrace = .ok outcome ∧
      ∀ (s : Nat) t after, paymentRun[s]? = some (t, after) →
        outcome.alignment[s]? = some (Move.ofTransition t) := by
  have htrace : paymentTrace.Describes payment := by
    constructor <;> decide
  have hrun : payment.Run payment.initialMarking paymentRun
      (paymentTrace.markingAfter payment 2) := by
    apply Net.Run.cons (by decide) (by decide +kernel)
    apply Net.Run.cons (by decide) (by decide +kernel)
    apply Net.Run.nil
  have hreports : paymentTrace.Reports payment payment.initialMarking paymentRun := by
    refine ⟨fun p _ ↦ rfl, rfl, fun s t after hs ↦ ?_⟩
    match s, hs with
    | 0, hs =>
      cases hs
      exact ⟨⟨_, rfl⟩, fun p _ ↦ rfl⟩
    | 1, hs =>
      cases hs
      exact ⟨⟨_, rfl⟩, fun p _ ↦ rfl⟩
  have honly : ∀ t ∈ payment.transitions, ∀ u ∈ payment.transitions, u.kind = t.kind →
      payment.SameEffect u t → u = t := by
    decide +kernel
  obtain ⟨outcome, hok, hfound⟩ :=
    (byVector_exact payment_wellJoined htrace).2.2.2 _ _ _ hrun hreports
  refine ⟨payment_wellJoined, htrace, hrun, hreports, outcome, hok, fun s t after hs ↦ ?_⟩
  exact hfound s t after hs (honly t (hrun.takes hs).1)

end Replay

end PetriAlign
