import Mathlib.Data.List.Find
import PetriAlign.Proofs.Replay.Vector

/-!
# Replay on markings

The transitions behind the steps of a trace, found on markings instead of vectors. On a net whose
arcs join places and transitions this is what a replay by complete markings finds, error by error.
-/

namespace PetriAlign

namespace Replay

/-- Puts a record of step `number` over a marking. -/
def putRecord (net : Net) (number : Nat) (m : Marking) (record : String × UInt64) :
    Except ReplayError Marking :=
  if record.1 ∈ net.placeIds then .ok (m.insert record.1 record.2)
  else .error (.unknownPlace number record.1)

/-- The transitions behind the steps from `number` on. -/
def explainSteps (net : Net) (m : Marking) (number : Nat) :
    List Step → Except ReplayError (List Transition)
  | [] => .ok []
  | step :: rest => do
    let kind ← step.moveKind number
    let next ← step.records.foldlM (putRecord net number) m
    match net.explainer? kind m next with
    | some t => return t :: (← explainSteps net next (number + 1) rest)
    | none => throw (.noMatch number kind)

/-- The transitions behind the moves of a trace. -/
def explain (net : Net) (trace : SnapshotTrace) : Except ReplayError (List Transition) := do
  let records ← trace.initialRecords
  let start ← records.foldlM (putRecord net 0) net.initialMarking
  explainSteps net start 1 trace.moves

variable {net : Net}

theorem foldlM_overwrite_counts (hnet : net.WellJoined) (number : Nat) (m : Marking)
    (records : List (String × UInt64)) :
    records.foldlM (net.placeIndex.overwrite number) (net.counts m) =
      (records.foldlM (putRecord net number) m).map net.counts := by
  induction records generalizing m with
  | nil => rfl
  | cons record records ih =>
    rw [List.foldlM_cons, List.foldlM_cons, PlaceIndex.overwrite, putRecord]
    by_cases hp : record.1 ∈ net.placeIds
    · obtain ⟨i, hi⟩ := Net.exists_position? hp
      rw [hi, if_pos hp]
      simp only [Net.set_counts hnet hi]
      exact ih _
    · rw [Net.position?_eq_none_iff.2 hp, if_neg hp]
      rfl

/-- The first transition that explains a change of vectors explains the change of markings. -/
theorem find?_explains_counts (hnet : net.WellJoined) (kind : TransitionKind) (m m' : Marking) :
    (net.transitions.map (net.indexTransition net.placeIndex)).find?
        (fun t ↦ t.transition.kind = kind && t.explains (net.counts m) (net.counts m')) =
      (net.explainer? kind m m').map (net.indexTransition net.placeIndex) := by
  rw [List.find?_map, Net.explainer?]
  congr 1
  apply List.find?_congr
  intro t ht
  rw [Bool.eq_iff_iff, Function.comp_apply, Bool.and_eq_true, Net.explains_counts_iff hnet ht,
    decide_eq_true_iff, decide_eq_true_iff]
  exact Iff.rfl

/-- Taking steps on vectors finds the transitions that explain them on markings. -/
theorem vectorSteps_counts (hnet : net.WellJoined) (m : Marking) (outcome : ReplayOutcome)
    (number : Nat) (steps : List Step) :
    (vectorSteps net.placeIndex (net.transitions.map (net.indexTransition net.placeIndex))
        ⟨net.counts m, outcome⟩ number steps).map VectorState.outcome =
      (explainSteps net m number steps).map (List.foldl ReplayOutcome.record outcome) := by
  induction steps generalizing m outcome number with
  | nil => rfl
  | cons step steps ih =>
    rw [vectorSteps, vectorStep, explainSteps]
    cases step.moveKind number with
    | error e => rfl
    | ok kind =>
      simp only [bind, Except.bind, foldlM_overwrite_counts hnet]
      cases step.records.foldlM (putRecord net number) m with
      | error e => rfl
      | ok next =>
        simp only [Except.map, find?_explains_counts hnet]
        cases net.explainer? kind m next with
        | none => rfl
        | some t =>
          have hrest := ih next (outcome.record t) (number + 1)
          cases hsteps : explainSteps net next (number + 1) steps with
          | error e =>
            rw [hsteps] at hrest
            exact hrest
          | ok ts =>
            rw [hsteps] at hrest
            exact hrest

/-- A replay by complete markings finds the transitions behind the steps, or the error that keeps
them from being found. -/
theorem byVector_eq_explain (hnet : net.WellJoined) (trace : SnapshotTrace) :
    byVector net trace = (explain net trace).map (List.foldl ReplayOutcome.record {}) := by
  rw [byVector, explain]
  cases trace.initialRecords with
  | error e => rfl
  | ok records =>
    simp only [bind, Except.bind, Net.toVector_placeIndex hnet, foldlM_overwrite_counts hnet]
    cases records.foldlM (putRecord net 0) net.initialMarking with
    | error e => rfl
    | ok start =>
      have hsteps := vectorSteps_counts hnet start {} 1 trace.moves
      simp only [Except.map] at hsteps ⊢
      rw [← hsteps]
      cases vectorSteps net.placeIndex _ ⟨net.counts start, {}⟩ 1 trace.moves <;> rfl

end Replay

end PetriAlign
