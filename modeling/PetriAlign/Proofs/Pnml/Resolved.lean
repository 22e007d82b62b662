import PetriAlign.Proofs.Pnml.RoundTrip
import PetriAlign.Proofs.Replay.Relabelling

/-!
# Resolved nets

A net that was read has only arcs between places and transitions, and its final marking names
declared places. Such nets are read back when they are written, as nets that differ in names alone.
-/

namespace PetriAlign

/-- Each arc joins a declared place and a declared transition, and the final marking is about
declared places. -/
structure Net.IsResolved (net : Net) : Prop where
  joins : ∀ a ∈ net.arcs, net.Joins a
  final_mem : ∀ mark ∈ net.final, mark.1 ∈ net.placeIds

namespace Pnml

open Xml (trimmed)

variable {net net' : Net}

theorem joins_of_resolve {placeIds transitionIds : List String} {a : DraftArc} {arc : Arc}
    (h : a.resolve placeIds transitionIds = .ok arc) :
    (arc.source ∈ placeIds ∧ arc.target ∈ transitionIds) ∨
      (arc.source ∈ transitionIds ∧ arc.target ∈ placeIds) := by
  unfold DraftArc.resolve at h
  split at h
  · cases h
  · split at h
    case h_1 => cases h
    case h_2 hfault =>
      cases h
      unfold Arc.fault? at hfault
      grind

theorem foldlM_setFinal_eq_ok {places places' : List Place} {final : List (String × UInt64)}
    (h : final.foldlM setFinal places = .ok places') :
    places'.map (·.id) = places.map (·.id) ∧ ∀ mark ∈ final, mark.1 ∈ places.map (·.id) := by
  induction final generalizing places with
  | nil =>
    cases h
    exact ⟨rfl, nofun⟩
  | cons mark final ih =>
    rw [List.foldlM_cons, setFinal_eq] at h
    split at h
    case isFalse => cases h
    case isTrue hmark =>
      obtain ⟨hids, hfinal⟩ := ih h
      rw [ids_setFirst] at hids hfinal
      exact ⟨hids, List.forall_mem_cons.2 ⟨hmark, hfinal⟩⟩

/-- What a draft and the net that it is resolved to have to do with each other. -/
structure Draft.ResolvesTo (draft : Draft) (net : Net) : Prop where
  isResolved : net.IsResolved
  final : net.final = draft.final.reverse
  places : net.places = withFinal net.final [] draft.places.reverse
  transitions : net.transitions = draft.transitions.reverse.map fillLabel
  invisible : net.invisible = draft.invisible

theorem Draft.resolvesTo_of_resolve {draft : Draft} (h : draft.resolve = .ok net) :
    draft.ResolvesTo net := by
  unfold Draft.resolve at h
  split at h
  case isTrue => cases h
  case isFalse =>
    simp only [bind_eq_ok_iff] at h
    obtain ⟨arcs, harcs, places, hplaces, heq⟩ := h
    cases heq
    obtain ⟨hids, hfinal⟩ := foldlM_setFinal_eq_ok hplaces
    refine ⟨⟨?_, ?_⟩, rfl, ?_, rfl, rfl⟩
    · intro a ha
      obtain ⟨draftArc, -, hresolve⟩ := mem_mapM_eq_ok harcs ha
      rw [Net.Joins, Net.placeIds, hids]
      exact joins_of_resolve hresolve
    · intro mark hmark
      rw [Net.placeIds, hids]
      exact hfinal mark hmark
    · rw [foldlM_setFinal] at hplaces
      split at hplaces
      case h_1 => cases hplaces
      case h_2 => rw [← Except.ok.inj hplaces, foldl_setFirst]

/-- A net that is read is resolved from the draft that all events of its document leave. -/
theorem exists_draft_of_read {d : Document} (h : read d = .ok net) :
    ∃ draft : Draft, (Xml.stream d).events.foldlM Draft.step {} = .ok draft ∧
      draft.ResolvesTo net := by
  simp only [read, ofStream, bind_eq_ok_iff] at h
  obtain ⟨draft, hdraft, h⟩ := h
  split at h
  case h_1 => cases h
  case h_2 => exact ⟨draft, hdraft, Draft.resolvesTo_of_resolve h⟩

/-- What is read is resolved. -/
theorem isResolved_of_read {d : Document} (h : read d = .ok net) : net.IsResolved := by
  obtain ⟨draft, -, hresolves⟩ := exists_draft_of_read h
  exact hresolves.isResolved

/-- What is read of a written net is the net read back, if the net is resolved. -/
theorem read_write_eq_ok_iff :
    read (.ofText (write net)) = .ok net' ↔ net.IsResolved ∧ net' = readBack net := by
  obtain ⟨markings, hreads⟩ := Draft.reads_document net
  have hread : read (.ofText (write net)) = (Draft.ofNet net markings).resolve := by
    rw [read, write, Xml.Markup.stream_document (wellNamed_document net), ofStream]
    dsimp only
    rw [Draft.reads_singleton.1 hreads]
    rfl
  rw [hread, resolve_ofNet]
  constructor
  · intro h
    split at h
    case h_1 => cases h
    case h_2 harcs =>
      split at h
      case h_1 => cases h
      case h_2 hfinal =>
        refine ⟨⟨?_, ?_⟩, (Except.ok.inj h).symm⟩
        · simpa using harcs
        · simpa using hfinal
  · rintro ⟨hnet, rfl⟩
    have harcs : net.arcs.find? (¬ net.Joins ·) = none := by
      simpa using hnet.joins
    have hfinal : net.final.find? (·.1 ∉ net.placeIds) = none := by
      simpa using hnet.final_mem
    rw [harcs]
    dsimp only
    rw [hfinal]

/-! ## Names -/

theorem map_withFinal {β : Type} {f : Place → β} (hf : ∀ p n, f { p with final := n } = f p)
    (final : List (String × UInt64)) (seen : List String) (places : List Place) :
    (withFinal final seen places).map f = places.map f := by
  induction places generalizing seen with
  | nil => rfl
  | cons p places ih =>
    rw [withFinal, List.map_cons, List.map_cons, ih]
    split
    · rfl
    · rw [hf]

theorem initialMarking_eq (net : Net) : net.initialMarking =
    .ofList ((net.places.map fun p ↦ (p.id, p.initial)).filter (0 < ·.2)) := by
  rw [Net.initialMarking, List.filter_map]
  rfl

/-- Reading back changes names, and nothing that a replay looks at. -/
theorem relabels_readBack (net : Net) : net.Relabels labelTransition (readBack net) where
  id _ := rfl
  kind _ := rfl
  transitions := rfl
  arcs := rfl
  placeIds := by
    rw [Net.placeIds, readBack, map_withFinal fun _ _ ↦ rfl, List.map_map]
    rfl
  initialMarking := by
    rw [initialMarking_eq, readBack, map_withFinal fun _ _ ↦ rfl, List.map_map, initialMarking_eq]
    rfl

/-- Whether a name is read back as it was written. -/
def IsKept (name : String) : Prop := name ≠ "" ∧ trimmed name = name

instance (name : String) : Decidable (IsKept name) := inferInstanceAs (Decidable (_ ∧ _))

theorem labelTransition_eq_self {t : Transition} (hname : IsKept t.name) (hlabel : IsKept t.label) :
    labelTransition t = t := by
  rw [labelTransition, hname.2, hlabel.2, if_neg hlabel.1]

end Pnml

end PetriAlign
