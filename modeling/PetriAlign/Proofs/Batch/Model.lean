import PetriAlign.Batch
import PetriAlign.Proofs.Pnml.WellFormed

/-!
# Models in files

A model is read from a file exactly if the net in it is read and has a final marking. So it is
resolved, as classification changes no id.
-/

namespace PetriAlign

namespace Net

variable {net : Net}

theorem placeIds_classify (marker : String) : (net.classify marker).placeIds = net.placeIds := by
  rw [placeIds, classify, List.map_map]
  rfl

theorem transitionIds_classify (marker : String) :
    (net.classify marker).transitionIds = net.transitionIds := by
  rw [transitionIds, classify, List.map_map]
  apply List.map_congr_left
  intro t _
  rw [Function.comp_apply, Transition.classify]
  split <;> rfl

theorem isResolved_classify_iff {marker : String} :
    (net.classify marker).IsResolved ↔ net.IsResolved := by
  have hjoins (a : Arc) : (net.classify marker).Joins a ↔ net.Joins a := by
    rw [Joins, Joins, placeIds_classify, transitionIds_classify]
  constructor
  · intro h
    refine ⟨fun a ha ↦ (hjoins a).1 (h.joins a ha), fun mark hmark ↦ ?_⟩
    rw [← placeIds_classify marker]
    exact h.final_mem mark hmark
  · intro h
    refine ⟨fun a ha ↦ (hjoins a).2 (h.joins a ha), fun mark hmark ↦ ?_⟩
    rw [placeIds_classify marker]
    exact h.final_mem mark hmark

end Net

namespace Batch

variable {t : FileTree} {path : String} {config : Config} {net model : Net}

theorem readModel_eq_ok {d : Document} (hfile : t.openFile path = .ok d) :
    readModel t path config = .ok model ↔
      ∃ net, Pnml.read d = .ok net ∧ net.final ≠ [] ∧ model = net.classify config.silentMarker := by
  have hread : t.readWith path Pnml.readAccepting =
      (Pnml.readAccepting d).mapError .parse := by
    rw [FileTree.readWith, hfile]
    rfl
  rw [readModel, hread]
  constructor
  · intro h
    cases haccept : Pnml.readAccepting d with
    | error e =>
      rw [haccept] at h
      cases h
    | ok net =>
      rw [haccept] at h
      obtain ⟨hnet, hfinal⟩ := Pnml.readAccepting_eq_ok_iff.1 haccept
      exact ⟨net, hnet, hfinal, (Except.ok.inj h).symm⟩
  · rintro ⟨net, hnet, hfinal, rfl⟩
    rw [Pnml.readAccepting_eq_ok_iff.2 ⟨hnet, hfinal⟩]
    rfl

/-- What is loaded of a written net: the net read back, as a model, if the net is resolved and has
a final marking. -/
theorem readModel_eq_ok_iff (hfile : t.openFile path = .ok (.ofText (Pnml.write net))) :
    readModel t path config = .ok model ↔
      net.IsResolved ∧ net.final ≠ [] ∧
        model = (Pnml.readBack net).classify config.silentMarker := by
  simp only [readModel_eq_ok hfile, Pnml.read_write_eq_ok_iff]
  constructor
  · rintro ⟨net', ⟨hresolved, rfl⟩, hfinal, rfl⟩
    exact ⟨hresolved, hfinal, rfl⟩
  · rintro ⟨hresolved, hfinal, rfl⟩
    exact ⟨_, ⟨hresolved, rfl⟩, hfinal, rfl⟩

/-- A model that was read is resolved. -/
theorem isResolved_of_readModel (h : readModel t path config = .ok model) : model.IsResolved := by
  cases hfile : t.openFile path with
  | error e =>
    simp only [readModel, FileTree.readWith, hfile] at h
    cases h
  | ok d =>
    obtain ⟨net, hnet, -, rfl⟩ := (readModel_eq_ok hfile).1 h
    exact Net.isResolved_classify_iff.2 (Pnml.isResolved_of_read hnet)

end Batch

end PetriAlign
