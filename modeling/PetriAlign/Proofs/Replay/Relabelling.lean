import PetriAlign.Proofs.Replay.LookUp
import PetriAlign.Replay.Mode

/-!
# Replays of relabelled nets

A replay looks at ids, kinds, arcs and counts, never at names. When only names change, it finds the
same transitions in the same steps, or the same error, in both modes.
-/

namespace PetriAlign

/-- The nets differ in what `f` does to transitions, which leaves ids and kinds alone, and maybe in
parts that have nothing to do with firing. -/
structure Net.Relabels (f : Transition → Transition) (net net' : Net) : Prop where
  id : ∀ t, (f t).id = t.id
  kind : ∀ t, (f t).kind = t.kind
  transitions : net'.transitions = net.transitions.map f
  arcs : net'.arcs = net.arcs
  placeIds : net'.placeIds = net.placeIds
  initialMarking : net'.initialMarking = net.initialMarking

namespace Net.Relabels

variable {f : Transition → Transition} {net net' : Net}

theorem preset (h : net.Relabels f net') (id : String) : net'.preset id = net.preset id := by
  rw [Net.preset, h.arcs, Net.preset]

theorem postset (h : net.Relabels f net') (id : String) : net'.postset id = net.postset id := by
  rw [Net.postset, h.arcs, Net.postset]

/-! ## Signatures -/

theorem signatureOf (h : net.Relabels f net') (t : Transition) :
    net'.signatureOf (f t) = net.signatureOf t := by
  rw [Net.signatureOf, h.id, h.kind, h.preset, h.postset, Net.signatureOf]

theorem bySignature? (h : net.Relabels f net') (key : String) :
    net'.bySignature? key = (net.bySignature? key).map f := by
  rw [Net.bySignature?, h.transitions, ← List.map_reverse, List.find?_map, Net.bySignature?]
  congr 2
  funext t
  rw [Function.comp_apply, h.signatureOf]

theorem checkPlace (h : net.Relabels f net') :
    Replay.checkPlace net' = Replay.checkPlace net := by
  funext number place
  simp only [Replay.checkPlace, Net.isSome_place?_iff, h.placeIds]

theorem touch (h : net.Relabels f net') : Replay.touch net' = Replay.touch net := by
  funext number kind s record
  rw [Replay.touch, h.checkPlace, h.arcs, Replay.touch]

theorem lookUpSteps (h : net.Relabels f net') (m : Marking) (number : Nat) (steps : List Step) :
    Replay.lookUpSteps net' m number steps =
      (Replay.lookUpSteps net m number steps).map (List.map f) := by
  induction steps generalizing m number with
  | nil => rfl
  | cons step steps ih =>
    rw [Replay.lookUpSteps, Replay.lookUpSteps, h.touch]
    cases step.moveKind number with
    | error e => rfl
    | ok kind =>
      simp only [bind, Except.bind]
      cases step.records.foldlM (Replay.touch net number kind) ⟨m, [], []⟩ with
      | error e => rfl
      | ok touched =>
        simp only [h.bySignature?, ih]
        cases net.bySignature? (signature kind touched.inputs touched.outputs) with
        | none => rfl
        | some t => cases Replay.lookUpSteps net touched.marking (number + 1) steps <;> rfl

theorem lookUp (h : net.Relabels f net') (trace : SnapshotTrace) :
    Replay.lookUp net' trace = (Replay.lookUp net trace).map (List.map f) := by
  have hinitial : Replay.initialRecord net' = Replay.initialRecord net := by
    funext m record
    rw [Replay.initialRecord, h.checkPlace, Replay.initialRecord]
  rw [Replay.lookUp, Replay.lookUp, hinitial, h.initialMarking]
  cases trace.initialRecords with
  | error e => rfl
  | ok records =>
    simp only [bind, Except.bind, h.lookUpSteps]
    cases records.foldlM (Replay.initialRecord net) net.initialMarking <;> rfl

/-! ## Vectors -/

theorem placeIndex (h : net.Relabels f net') : net'.placeIndex = net.placeIndex := by
  rw [Net.placeIndex, h.placeIds, Net.placeIndex]

theorem indexTransition (h : net.Relabels f net') (index : PlaceIndex) (t : Transition) :
    net'.indexTransition index (f t) =
      { net.indexTransition index t with transition := f t } := by
  rw [Net.indexTransition, h.id, h.preset, h.postset, Net.indexTransition]

theorem find?_explains (h : net.Relabels f net') (index : PlaceIndex) (kind : TransitionKind)
    (current next : MarkingVector) :
    (net'.transitions.map (net'.indexTransition index)).find?
        (fun t ↦ t.transition.kind = kind && t.explains current next) =
      ((net.transitions.map (net.indexTransition index)).find?
        (fun t ↦ t.transition.kind = kind && t.explains current next)).map
          fun t ↦ { t with transition := f t.transition } := by
  have hmap : net'.transitions.map (net'.indexTransition index) =
      (net.transitions.map (net.indexTransition index)).map
        fun t ↦ { t with transition := f t.transition } := by
    rw [h.transitions, List.map_map, List.map_map]
    exact List.map_congr_left fun t _ ↦ h.indexTransition index t
  rw [hmap, List.find?_map]
  congr 2
  funext t
  rw [Function.comp_apply, h.kind]
  rfl

/-- Both nets take the steps with the same transitions, whatever was found before. -/
theorem exists_vectorSteps (h : net.Relabels f net') (index : PlaceIndex) (v : MarkingVector)
    (number : Nat) (steps : List Step) :
    ∃ found : Except ReplayError (List Transition), ∀ outcome outcome',
      (Replay.vectorSteps index (net.transitions.map (net.indexTransition index))
        ⟨v, outcome⟩ number steps).map Replay.VectorState.outcome =
          found.map (List.foldl ReplayOutcome.record outcome) ∧
      (Replay.vectorSteps index (net'.transitions.map (net'.indexTransition index))
        ⟨v, outcome'⟩ number steps).map Replay.VectorState.outcome =
          found.map fun ts ↦ (ts.map f).foldl ReplayOutcome.record outcome' := by
  induction steps generalizing v number with
  | nil => exact ⟨.ok [], fun _ _ ↦ ⟨rfl, rfl⟩⟩
  | cons step steps ih =>
    simp only [Replay.vectorSteps, Replay.vectorStep, h.find?_explains]
    cases step.moveKind number with
    | error e => exact ⟨.error e, fun _ _ ↦ ⟨rfl, rfl⟩⟩
    | ok kind =>
      simp only [bind, Except.bind]
      cases step.records.foldlM (index.overwrite number) v with
      | error e => exact ⟨.error e, fun _ _ ↦ ⟨rfl, rfl⟩⟩
      | ok next =>
        dsimp only
        cases (net.transitions.map (net.indexTransition index)).find?
            fun t ↦ t.transition.kind = kind && t.explains v next with
        | none => exact ⟨.error (.noMatch number kind), fun _ _ ↦ ⟨rfl, rfl⟩⟩
        | some t =>
          obtain ⟨found, hfound⟩ := ih next (number + 1)
          refine ⟨found.map (t.transition :: ·), fun outcome outcome' ↦ ?_⟩
          obtain ⟨hrest, hrest'⟩ := hfound (outcome.record t.transition)
            (outcome'.record (f t.transition))
          refine ⟨hrest.trans ?_, hrest'.trans ?_⟩ <;> cases found <;> rfl

end Net.Relabels

/-- Both nets replay a trace with the same transitions, or fail with the same error. -/
theorem Net.Relabels.exists_replay {f : Transition → Transition} {net net' : Net}
    (h : net.Relabels f net') (trace : SnapshotTrace) (mode : ReplayMode) :
    ∃ found : Except ReplayError (List Transition),
      net.replay trace mode = found.map (List.foldl ReplayOutcome.record {}) ∧
      net'.replay trace mode = found.map fun ts ↦ (ts.map f).foldl ReplayOutcome.record {} := by
  cases mode with
  | signature =>
    refine ⟨Replay.lookUp net trace, Replay.bySignature_eq_lookUp net trace, ?_⟩
    rw [Net.replay, Replay.bySignature_eq_lookUp, h.lookUp]
    cases Replay.lookUp net trace <;> rfl
  | vector =>
    simp only [Net.replay, Replay.byVector, h.placeIndex, h.initialMarking]
    cases trace.initialRecords with
    | error e => exact ⟨.error e, rfl, rfl⟩
    | ok records =>
      simp only [bind, Except.bind]
      cases records.foldlM (net.placeIndex.overwrite 0)
          (net.placeIndex.toVector net.initialMarking) with
      | error e => exact ⟨.error e, rfl, rfl⟩
      | ok start =>
        obtain ⟨found, hfound⟩ := h.exists_vectorSteps net.placeIndex start 1 trace.moves
        obtain ⟨hnet, hnet'⟩ := hfound {} {}
        dsimp only
        refine ⟨found, ?_, ?_⟩
        · rw [← hnet]
          cases Replay.vectorSteps net.placeIndex _ ⟨start, {}⟩ 1 trace.moves <;> rfl
        · rw [← hnet']
          cases Replay.vectorSteps net.placeIndex _ ⟨start, {}⟩ 1 trace.moves <;> rfl

end PetriAlign
