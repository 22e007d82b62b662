import PetriAlign.Proofs.Product.Written
import PetriAlign.Proofs.Text.Search

/-!
# Models that are classified again

Classification hides the name of a silent transition behind `τ`, so that a marker in the name is
seen only once. A second classification, of the net itself or of the net that was written and is
loaded again, keeps visible moves visible. Of the silent ones it keeps those that the document
marks, and all of them if the marker is `τ` itself; the others become visible moves.
-/

namespace PetriAlign

open Xml (trimmed)

namespace Transition

variable {marker : String} {invisible again : IdSet} {t u : Transition}

/-- The kind of a transition of a classified net after another classification. -/
def kindAgain (marker : String) (invisible : IdSet) (t : Transition) : TransitionKind :=
  if t.kind = .tau ∧ (marker = silentName ∨ invisible.contains t.id) then .tau else .model

theorem isSilent_iff : t.isSilent marker invisible = true ↔
    (marker ≠ "" ∧ marker.toList <:+: t.name.toList) ∨ invisible.contains t.id = true := by
  rw [isSilent, Bool.or_eq_true, Bool.and_eq_true, decide_eq_true_iff, Text.occurs_iff]

/-- The only marker in the name of silent transitions is this name. -/
theorem infix_silentName_iff : marker ≠ "" ∧ marker.toList <:+: silentName.toList ↔
    marker = silentName := by
  have hname : silentName.toList = ['τ'] := rfl
  constructor
  · rintro ⟨hne, hinfix⟩
    rw [hname, List.infix_singleton_iff] at hinfix
    rcases hinfix with hnil | hsingle
    · exact absurd (String.toList_eq_nil_iff.1 hnil) hne
    · exact String.toList_inj.1 hsingle
  · rintro rfl
    exact ⟨by decide, List.infix_rfl⟩

theorem kind_classify : (t.classify marker invisible).kind =
    if t.isSilent marker invisible then .tau else .model := by
  rw [classify]
  split <;> rfl

theorem name_classify : (t.classify marker invisible).name =
    if t.isSilent marker invisible then silentName else t.name := by
  rw [classify]
  split <;> rfl

theorem id_classify : (t.classify marker invisible).id = t.id := by
  rw [classify]
  split <;> rfl

/-- Whether `u` in a net that marks `again` is what classification made of `t`: it has the id of `t`
and is marked if `t` was, and its name is part of the one it was given, or is `τ` still. -/
structure IsBack (marker : String) (invisible again : IdSet) (t u : Transition) : Prop where
  id : u.id = t.id
  mark : again.contains t.id = invisible.contains t.id
  name_infix : u.name.toList <:+: (t.classify marker invisible).name.toList
  name_silent : (t.classify marker invisible).name = silentName → u.name = silentName

theorem isBack_classify (t : Transition) :
    IsBack marker invisible invisible t (t.classify marker invisible) :=
  ⟨id_classify, rfl, List.infix_rfl, fun h ↦ h⟩

namespace IsBack

variable (h : IsBack marker invisible again t u)

include h

theorem isSilent_iff : u.isSilent marker again = true ↔
    t.isSilent marker invisible = true ∧
      (marker = silentName ∨ invisible.contains t.id = true) := by
  have hpart := h.name_infix
  have hname := h.name_silent
  rw [name_classify] at hpart hname
  rw [Transition.isSilent_iff, h.id, h.mark]
  by_cases hsilent : t.isSilent marker invisible = true
  · rw [if_pos hsilent] at hname
    rw [hname rfl, infix_silentName_iff]
    exact (and_iff_right hsilent).symm
  · -- a part of a name without the marker does not have it
    rw [if_neg hsilent] at hpart
    refine iff_of_false (fun hagain ↦ hsilent ?_) fun hkept ↦ hsilent hkept.1
    rw [Transition.isSilent_iff]
    exact hagain.imp_left fun hmarker ↦ ⟨hmarker.1, hmarker.2.trans hpart⟩

theorem kind_classify : (u.classify marker again).kind =
    (t.classify marker invisible).kindAgain marker invisible := by
  have hkind : (t.classify marker invisible).kind = .tau ↔ t.isSilent marker invisible = true := by
    rw [Transition.kind_classify]
    cases t.isSilent marker invisible <;> decide
  rw [Transition.kind_classify, kindAgain, id_classify]
  refine if_congr ?_ rfl rfl
  rw [h.isSilent_iff, hkind]

/-- Classification leaves the name that it gave. -/
theorem name_classify : (u.classify marker again).name = u.name := by
  rw [Transition.name_classify]
  split
  case isFalse => rfl
  case isTrue hsilent =>
    refine (h.name_silent ?_).symm
    rw [Transition.name_classify, if_pos (h.isSilent_iff.1 hsilent).1]

end IsBack

end Transition

namespace Net

variable {net : Net} {marker : String}

theorem transitions_classify (net : Net) (marker : String) : (net.classify marker).transitions =
    net.transitions.map (·.classify marker net.invisible) := rfl

theorem places_classify_again : ((net.classify marker).classify marker).places =
    (net.classify marker).places := by
  simp only [classify, List.map_map]
  rfl

theorem transitions_classify_again :
    ((net.classify marker).classify marker).transitions.map (fun t ↦ (t.id, t.name, t.kind)) =
      (net.classify marker).transitions.map
        fun t ↦ (t.id, t.name, t.kindAgain marker net.invisible) := by
  rw [transitions_classify, transitions_classify, List.map_map, List.map_map, List.map_map]
  apply List.map_congr_left
  intro t _
  have hback : Transition.IsBack marker net.invisible net.invisible t
      (t.classify marker net.invisible) := Transition.isBack_classify t
  simp only [classify, Function.comp_apply, Transition.id_classify, hback.name_classify,
    hback.kind_classify]

end Net

namespace Pnml

/-- The names of silent transitions are read as they are written. -/
theorem trimmed_silentName : trimmed silentName = silentName := by decide +kernel

theorem isBack_labelTransition {net : Net} {marker : String} {t : Transition}
    (ht : t ∈ net.transitions) :
    Transition.IsBack marker net.invisible (readBack (net.classify marker)).invisible t
      (labelTransition (t.classify marker net.invisible)) where
  id := Transition.id_classify
  mark := by
    have hid : t.id ∈ (net.classify marker).transitionIds := by
      rw [Net.transitionIds_classify]
      exact List.mem_map_of_mem ht
    rw [readBack, Table.contains, get?_restrict, if_pos hid]
    rfl
  name_infix := by
    rw [labelTransition, trimmed, String.toList_ofList]
    exact Text.strip_infix _ _
  name_silent h := by
    rw [labelTransition, h]
    exact trimmed_silentName

theorem transitions_classify_readBack (net : Net) (marker : String) :
    ((readBack (net.classify marker)).classify marker).transitions.map
        (fun t ↦ (t.id, t.name, t.kind)) =
      (net.classify marker).transitions.map
        fun t ↦ (t.id, trimmed t.name, t.kindAgain marker net.invisible) := by
  have hback : (readBack (net.classify marker)).transitions =
      (net.classify marker).transitions.map labelTransition := rfl
  rw [Net.transitions_classify, hback, Net.transitions_classify, List.map_map, List.map_map,
    List.map_map, List.map_map]
  apply List.map_congr_left
  intro t ht
  have hlabelled : Transition.IsBack marker net.invisible
      (readBack (net.classify marker)).invisible t
      (labelTransition (t.classify marker net.invisible)) := isBack_labelTransition ht
  simp only [Function.comp_apply, Transition.id_classify, hlabelled.id, hlabelled.name_classify,
    hlabelled.kind_classify]
  rfl

end Pnml

namespace Net

/-- Classifying a model again changes neither the kinds of its places nor the ids and names of its
transitions. Its visible moves stay visible; its silent moves stay silent if the net marks them or
`τ` is the marker, and become visible otherwise. The same goes for a model that was written and is
loaded again, which succeeds if the net is resolved and has a final marking. -/
theorem kinds_classify_again (net : Net) (marker : String) :
    ((net.classify marker).classify marker).places = (net.classify marker).places ∧
    ((net.classify marker).classify marker).transitions.map (fun t ↦ (t.id, t.name, t.kind)) =
      (net.classify marker).transitions.map
        (fun t ↦ (t.id, t.name, t.kindAgain marker net.invisible)) ∧
    ∀ tree path config, config.silentMarker = marker →
      FileTree.openFile tree path = .ok (.ofText (Pnml.write (net.classify marker))) →
        ((∃ model, Batch.readModel tree path config = .ok model) ↔
          net.IsResolved ∧ net.final ≠ []) ∧
        ∀ model, Batch.readModel tree path config = .ok model →
          model.transitions.map (fun t ↦ (t.id, t.name, t.kind)) =
            (net.classify marker).transitions.map
              fun t ↦ (t.id, trimmed t.name, t.kindAgain marker net.invisible) := by
  refine ⟨places_classify_again, transitions_classify_again, ?_⟩
  rintro tree path config rfl hfile
  constructor
  · constructor
    · rintro ⟨model, hmodel⟩
      obtain ⟨hresolved, hfinal, -⟩ := (Batch.readModel_eq_ok_iff hfile).1 hmodel
      exact ⟨isResolved_classify_iff.1 hresolved, hfinal⟩
    · rintro ⟨hresolved, hfinal⟩
      have hclassified : (net.classify config.silentMarker).IsResolved :=
        isResolved_classify_iff.2 hresolved
      exact ⟨_, (Batch.readModel_eq_ok_iff hfile).2 ⟨hclassified, hfinal, rfl⟩⟩
  · intro model hmodel
    obtain ⟨-, -, rfl⟩ := (Batch.readModel_eq_ok_iff hfile).1 hmodel
    exact Pnml.transitions_classify_readBack net config.silentMarker

/-- A net with a visible move, a move that is marked as silent and one that is named so. -/
def office : Net where
  id := "net"
  places := [⟨"p", "p", 1, some 1, .model⟩]
  transitions := [⟨"t0", "a", "a", .model⟩, ⟨"t1", "b", "b", .model⟩, ⟨"t2", "tau", "tau", .model⟩]
  arcs := [⟨"a0", "p", "t0"⟩, ⟨"a1", "t1", "p"⟩, ⟨"a2", "p", "t2"⟩]
  final := [("p", 1)]
  invisible := .ofIds ["t1"]

/-- Of the two silent moves the marked one is loaded as a silent move again. -/
theorem kinds_classify_again_office :
    (office.classify defaultMarker).transitions.map (·.kind) = [.model, .tau, .tau] ∧
    ((office.classify defaultMarker).classify defaultMarker).transitions.map (·.kind) =
      [.model, .tau, .model] ∧
    ∃ model,
      Batch.readModel (Product.oneFile (Utf8.encode (Pnml.write (office.classify defaultMarker))))
        "model.pnml" {} = .ok model ∧
      model.transitions.map (fun t ↦ (t.id, t.name, t.kind)) =
        [("t0", "a", .model), ("t1", "τ", .tau), ("t2", "τ", .model)] := by
  have hresolved : office.IsResolved := by constructor <;> decide
  have hfinal : office.final ≠ [] := by decide
  obtain ⟨-, -, hreload⟩ := kinds_classify_again office defaultMarker
  obtain ⟨hloaded, hkinds⟩ := hreload _ "model.pnml" {} rfl (Product.openFile_oneFile _)
  obtain ⟨model, hmodel⟩ := hloaded.2 ⟨hresolved, hfinal⟩
  refine ⟨by decide +kernel, by decide +kernel, model, hmodel, (hkinds model hmodel).trans ?_⟩
  decide +kernel

/-- A move that is silent by its name alone is not silent any more when its net is classified
again. -/
theorem not_forall_kinds_kept :
    ¬ ∀ (net : Net) (marker : String),
      ((net.classify marker).classify marker).transitions.map (·.kind) =
        (net.classify marker).transitions.map (·.kind) := by
  intro h
  exact absurd (h office defaultMarker) (by decide +kernel)

end Net

end PetriAlign
