import PetriAlign.Proofs.Batch.Model
import PetriAlign.Proofs.Product.Arcs

/-!
# Written products

The product of a model that was read can be written and read again, if no id of the model names both
a place and a transition. What is read replays every trace like the product in memory, with the same
transitions or the same error. The moves show the labels as they are read back: blanks around them
are lost, and so is an empty label, for which the kind of the transition stands in.
-/

namespace PetriAlign

open Pnml (IsKept labelTransition)

namespace Net

variable {net : Net}

/-- The transitions of a resolved net have places on both sides, unless a transition is a place as
well. -/
theorem IsResolved.mem_placeIds (h : net.IsResolved)
    (hapart : ∀ id ∈ net.placeIds, id ∉ net.transitionIds) {t : Transition}
    (ht : t ∈ net.transitions) {p : String} (hp : p ∈ net.preset t.id ++ net.postset t.id) :
    p ∈ net.placeIds := by
  have hid : t.id ∉ net.placeIds := fun hplace ↦ hapart _ hplace (List.mem_map_of_mem ht)
  simp only [List.mem_append, preset, postset, List.mem_map, List.mem_filter,
    decide_eq_true_eq] at hp
  rcases hp with ⟨a, ⟨ha, heq⟩, rfl⟩ | ⟨a, ⟨ha, heq⟩, rfl⟩
  · rcases h.joins a ha with hends | hends
    · exact hends.1
    · exact absurd (heq ▸ hends.2) hid
  · rcases h.joins a ha with hends | hends
    · exact absurd (heq ▸ hends.1) hid
    · exact hends.2

end Net

namespace Product

variable {model : Net} {w : LabelTrace}

theorem isResolved_net (hmodel : model.IsResolved)
    (hapart : ∀ id ∈ model.placeIds, id ∉ model.transitionIds) : (net model w).IsResolved where
  joins _ := joined_net (fun _ ht _ ↦ hmodel.mem_placeIds hapart ht) hmodel.joins
  final_mem mark hmark := by
    have hmem : mark ∈ model.final ++ logFinal w.length := hmark
    rcases List.mem_append.1 hmem with hown | hlog
    · exact mem_placeIds_of_mem_model (hmodel.final_mem mark hown)
    · rw [logFinal, List.mem_append, List.mem_singleton, List.mem_map] at hlog
      rcases hlog with ⟨i, hi, rfl⟩ | rfl
      · exact logPlaceId_mem_placeIds (Nat.le_of_lt (List.mem_range.1 hi))
      · exact logPlaceId_mem_placeIds le_rfl

/-- A transition of a product is named after its kind and labelled with a label of the trace or with
the name of a transition of the model. -/
theorem label_of_mem_transitions {t : Transition} (ht : t ∈ (net model w).transitions) :
    t.name = t.kind.tag ∧ (t.label ∈ w ∨ ∃ u ∈ model.transitions, t.label = u.name) := by
  rw [transitions_net] at ht
  obtain ⟨a, ha, rfl⟩ := List.mem_map.1 ht
  cases a with
  | own u => exact ⟨rfl, .inr ⟨u, own_mem_moves.1 ha, rfl⟩⟩
  | log i label => exact ⟨rfl, .inl (List.mem_of_getElem? (log_mem_moves.1 ha))⟩
  | sync i k label u => exact ⟨rfl, .inl (List.mem_of_getElem? (sync_mem_moves.1 ha).1)⟩

theorem isKept_tag (kind : TransitionKind) : IsKept kind.tag := by
  cases kind <;> decide +kernel

/-- If all labels are kept, nothing that a replay shows is changed. -/
theorem relabels_id_readBack (hlabels : ∀ label ∈ w, IsKept label)
    (hnames : ∀ t ∈ model.transitions, IsKept t.name) :
    (net model w).Relabels id (Pnml.readBack (net model w)) := by
  have hrelabels := Pnml.relabels_readBack (net model w)
  refine ⟨fun _ ↦ rfl, fun _ ↦ rfl, ?_, hrelabels.arcs, hrelabels.placeIds,
    hrelabels.initialMarking⟩
  rw [hrelabels.transitions]
  apply List.map_congr_left
  intro t ht
  obtain ⟨hname, hlabel⟩ := label_of_mem_transitions ht
  apply Pnml.labelTransition_eq_self
  · rw [hname]
    exact isKept_tag t.kind
  · rcases hlabel with hmem | ⟨u, hu, heq⟩
    · exact hlabels _ hmem
    · rw [heq]
      exact hnames u hu

/-- The product of a model that was read can be written and read again, unless an id of the model
names both a place and a transition. What is read replays every trace with the same transitions as
the product in memory, or fails with the same error. The transitions have the labels that are read
back; if all of them are kept, the replays are the same. -/
theorem replay_written {t : FileTree} {path : String} {config : Config}
    (hmodel : Batch.readModel t path config = .ok model) (w : LabelTrace) :
    ((∀ id ∈ model.placeIds, id ∉ model.transitionIds) →
      ∃ net', Pnml.read (.ofText (Pnml.write (model.product w).net)) = .ok net') ∧
    ∀ net', Pnml.read (.ofText (Pnml.write (model.product w).net)) = .ok net' →
      ∀ trace mode,
        (∃ found : Except ReplayError (List Transition),
          (model.product w).net.replay trace mode =
            found.map (List.foldl ReplayOutcome.record {}) ∧
          net'.replay trace mode =
            found.map fun ts ↦ (ts.map labelTransition).foldl ReplayOutcome.record {}) ∧
        ((∀ label ∈ w, IsKept label) → (∀ t ∈ model.transitions, IsKept t.name) →
          net'.replay trace mode = (model.product w).net.replay trace mode) := by
  constructor
  · intro hapart
    have hnet := isResolved_net (w := w) (Batch.isResolved_of_readModel hmodel) hapart
    exact ⟨_, Pnml.read_write_eq_ok_iff.2 ⟨hnet, rfl⟩⟩
  · intro net' hread trace mode
    obtain ⟨-, rfl⟩ := Pnml.read_write_eq_ok_iff.1 hread
    refine ⟨(Pnml.relabels_readBack _).exists_replay trace mode, fun hlabels hnames ↦ ?_⟩
    obtain ⟨found, hfound, hfound'⟩ :=
      (relabels_id_readBack hlabels hnames).exists_replay trace mode
    simp only [List.map_id] at hfound'
    exact hfound'.trans hfound.symm

/-! ## A model in a file -/

/-- A model with one move. -/
def errand : Net where
  id := "net"
  places := [⟨"p0", "p0", 1, none, .model⟩, ⟨"p1", "p1", 0, some 1, .model⟩]
  transitions := [⟨"t1", "a", "a", .model⟩]
  arcs := [⟨"a1", "p0", "t1"⟩, ⟨"a2", "t1", "p1"⟩]
  final := [("p1", 1)]

/-- A directory with one file. -/
def oneFile (content : Bytes) : FileTree := .ofList [("./model.pnml", .file content)]

theorem openFile_oneFile (content : Bytes) :
    (oneFile content).openFile "model.pnml" = .ok { bytes := content } := rfl

/-- A model that is read as it was written is found in a file. -/
theorem readModel_oneFile {model : Net} (hmodel : model.IsResolved) (hfinal : model.final ≠ [])
    (hback : (Pnml.readBack model).classify defaultMarker = model) :
    Batch.readModel (oneFile (Utf8.encode (Pnml.write model))) "model.pnml" {} = .ok model :=
  (Batch.readModel_eq_ok_iff (openFile_oneFile _)).2 ⟨hmodel, hfinal, hback.symm⟩

/-- The errand in a file. -/
def errandFiles : FileTree := oneFile (Utf8.encode (Pnml.write errand))

theorem isResolved_errand : errand.IsResolved := by
  constructor <;> decide

theorem readModel_errandFiles : Batch.readModel errandFiles "model.pnml" {} = .ok errand := by
  have hback : (Pnml.readBack errand).classify defaultMarker = errand := by decide +kernel
  exact readModel_oneFile isResolved_errand (List.cons_ne_nil _ _) hback

/-- With a label that is kept, the product of the errand replays as in memory. -/
theorem replay_written_errand :
    Batch.readModel errandFiles "model.pnml" {} = .ok errand ∧
    (∀ id ∈ errand.placeIds, id ∉ errand.transitionIds) ∧
    (∀ label ∈ ["a"], IsKept label) ∧ (∀ t ∈ errand.transitions, IsKept t.name) ∧
    ∃ net', Pnml.read (.ofText (Pnml.write (errand.product ["a"]).net)) = .ok net' ∧
      ∀ trace mode, net'.replay trace mode = (errand.product ["a"]).net.replay trace mode := by
  have hapart : ∀ id ∈ errand.placeIds, id ∉ errand.transitionIds := by decide
  have hlabels : ∀ label ∈ ["a"], IsKept label := by decide +kernel
  have hnames : ∀ t ∈ errand.transitions, IsKept t.name := by decide +kernel
  obtain ⟨hwritten, hreplay⟩ := replay_written readModel_errandFiles ["a"]
  obtain ⟨net', hread⟩ := hwritten hapart
  exact ⟨readModel_errandFiles, hapart, hlabels, hnames, net', hread,
    fun trace mode ↦ (hreplay net' hread trace mode).2 hlabels hnames⟩

/-- A trace of one log move. -/
def logTrace : SnapshotTrace :=
  ⟨[⟨.initial, []⟩, ⟨.move .log, [("logp0", 0), ("logp1", 1)]⟩]⟩

/-- A blank before a label is shown by the product in memory and not by the one that was written
and read again. -/
theorem replay_written_blank :
    Batch.readModel errandFiles "model.pnml" {} = .ok errand ∧
    ∃ net', Pnml.read (.ofText (Pnml.write (errand.product [" a"]).net)) = .ok net' ∧
      ∀ mode,
        (errand.product [" a"]).net.replay logTrace mode =
          .ok ⟨[⟨" a", skip, "logt0"⟩], .ofList [("logt0", 1)]⟩ ∧
        net'.replay logTrace mode = .ok ⟨[⟨"a", skip, "logt0"⟩], .ofList [("logt0", 1)]⟩ ∧
        net'.replay logTrace mode ≠ (errand.product [" a"]).net.replay logTrace mode := by
  have hapart : ∀ id ∈ errand.placeIds, id ∉ errand.transitionIds := by decide
  have hresolved : (errand.product [" a"]).net.IsResolved :=
    isResolved_net (Batch.isResolved_of_readModel readModel_errandFiles) hapart
  refine ⟨readModel_errandFiles, _, Pnml.read_write_eq_ok_iff.2 ⟨hresolved, rfl⟩, fun mode ↦ ?_⟩
  cases mode <;> refine ⟨?_, ?_, ?_⟩ <;> decide +kernel

end Product

end PetriAlign
