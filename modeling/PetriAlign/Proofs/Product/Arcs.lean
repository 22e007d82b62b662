import PetriAlign.Proofs.Product.Moves
import PetriAlign.Proofs.Replay.Vector

/-!
# The arcs of a product

A move has the arcs of its model transition and a step on the chain of log places, and no other
arc of the product touches its transition. So the product is again a net of places and transitions
joined by arcs.
-/

namespace PetriAlign

namespace Product

variable {model : Net} {w : LabelTrace}

theorem wellJoined_model (h : model.IsModelFor w) : model.WellJoined where
  places_nodup := (List.nodup_append.1 h.nodup).1
  apart id hp ht := (List.nodup_append.1 h.nodup).2.2 id hp id ht rfl
  joined := h.joined

theorem mem_placeIds_of_mem_model {id : String} (hid : id ∈ model.placeIds) :
    id ∈ (net model w).placeIds := by
  rw [placeIds_net]
  exact List.mem_append_left _ hid

theorem logPlaceId_mem_placeIds {i : Nat} (hi : i ≤ w.length) :
    logPlaceId i ∈ (net model w).placeIds := by
  rw [placeIds_net]
  apply List.mem_append_right
  exact List.mem_map_of_mem (List.mem_range.2 (by omega))

/-- No node of the model has the id of a log place. -/
theorem logPlaceId_notMem (h : model.IsModelFor w) {i : Nat} (hi : i ≤ w.length) :
    logPlaceId i ∉ model.placeIds ++ model.transitionIds := by
  intro hid
  apply h.fresh _ hid
  apply List.mem_append_left
  exact List.mem_map_of_mem (List.mem_range.2 (by omega))

theorem mem_transitionIds_of_mem_moves {a : ProductMove} (ha : a ∈ moves model w) :
    a.id ∈ (net model w).transitionIds := by
  rw [Net.transitionIds, transitions_net, List.map_map]
  exact List.mem_map_of_mem ha

/-- The position of an added move lies in the trace. -/
theorem position_lt {a : ProductMove} (ha : a ∈ moves model w) {i : Nat}
    (hi : a.position? = some i) : i < w.length := by
  cases a with
  | own t => simp [ProductMove.position?] at hi
  | log j label =>
    obtain rfl := Option.some.inj hi
    exact (List.getElem?_eq_some_iff.1 (log_mem_moves.1 ha)).1
  | sync j k label t =>
    obtain rfl := Option.some.inj hi
    exact (List.getElem?_eq_some_iff.1 (sync_mem_moves.1 ha).1).1

theorem image_mem {a : ProductMove} (ha : a ∈ moves model w) {t : Transition}
    (ht : a.image? = some t) : t ∈ model.transitions := by
  cases a with
  | log i label => simp [ProductMove.image?] at ht
  | own u =>
    obtain rfl := Option.some.inj ht
    exact own_mem_moves.1 ha
  | sync i k label u =>
    obtain rfl := Option.some.inj ht
    exact List.mem_of_mem_filter (List.mem_of_getElem? (sync_mem_moves.1 ha).2)

/-- The id of a move is not the id of a place. -/
theorem id_notMem_placeIds (h : model.IsModelFor w) {a : ProductMove} (ha : a ∈ moves model w) :
    a.id ∉ (net model w).placeIds := by
  rw [placeIds_net, List.mem_append, not_or]
  rcases List.mem_append.1 ha with hown | hadd
  · obtain ⟨t, ht, rfl⟩ := List.mem_map.1 hown
    have hid : (ProductMove.own t).id ∈ model.transitionIds := List.mem_map.2 ⟨t, ht, rfl⟩
    refine ⟨fun hp ↦ (wellJoined_model h).apart _ hp hid, fun hp ↦ ?_⟩
    obtain ⟨i, hi, heq⟩ := List.mem_map.1 hp
    rw [← heq] at hid
    have hi := List.mem_range.1 hi
    exact logPlaceId_notMem h (by omega) (List.mem_append_right _ hid)
  · refine ⟨fun hp ↦ id_notMem_of_mem_addedMoves h hadd (List.mem_append_left _ hp), fun hp ↦ ?_⟩
    obtain ⟨i, -, heq⟩ := List.mem_map.1 hp
    cases a with
    | own t => exact own_notMem_addedMoves hadd
    | log j label => exact logPlaceId_ne_logMoveId i j heq
    | sync j k label t => exact logPlaceId_ne_syncMoveId i j k heq

/-- The arcs of an added move join it and places, if the transitions of the model have places on
both sides. -/
theorem ends_of_mem_arcs (hplaces : ∀ t ∈ model.transitions,
      ∀ p ∈ model.preset t.id ++ model.postset t.id, p ∈ model.placeIds)
    {a : ProductMove} (ha : a ∈ addedMoves model w) {arc : Arc} (harc : arc ∈ a.arcs model) :
    (arc.source ∈ (net model w).placeIds ∧ arc.target = a.id) ∨
      (arc.source = a.id ∧ arc.target ∈ (net model w).placeIds) := by
  cases a with
  | own t => simp [ProductMove.arcs] at harc
  | log i label =>
    have hi : i < w.length := position_lt (mem_moves_of_mem_addedMoves ha) rfl
    simp only [ProductMove.arcs, logArcs, List.mem_cons, List.not_mem_nil, or_false] at harc
    rcases harc with rfl | rfl
    · exact .inl ⟨logPlaceId_mem_placeIds (by omega), rfl⟩
    · exact .inr ⟨rfl, logPlaceId_mem_placeIds (by omega)⟩
  | sync i k label t =>
    have hi : i < w.length := position_lt (mem_moves_of_mem_addedMoves ha) rfl
    have ht := hplaces t (image_mem (mem_moves_of_mem_addedMoves ha) rfl)
    simp only [ProductMove.arcs, syncArcs, List.mem_append, List.mem_map, List.mem_cons,
      List.not_mem_nil, or_false] at harc
    rcases harc with (⟨x, hx, rfl⟩ | ⟨x, hx, rfl⟩) | rfl | rfl
    · have hplace := ht x.1 (List.mem_append_left _ (List.fst_mem_of_mem_zipIdx hx))
      exact .inl ⟨mem_placeIds_of_mem_model hplace, rfl⟩
    · have hplace := ht x.1 (List.mem_append_right _ (List.fst_mem_of_mem_zipIdx hx))
      exact .inr ⟨rfl, mem_placeIds_of_mem_model hplace⟩
    · exact .inl ⟨logPlaceId_mem_placeIds (by omega), rfl⟩
    · exact .inr ⟨rfl, logPlaceId_mem_placeIds (by omega)⟩

/-- Then each arc of the product joins a place and a transition, if those of the model do. -/
theorem joined_net (hplaces : ∀ t ∈ model.transitions,
      ∀ p ∈ model.preset t.id ++ model.postset t.id, p ∈ model.placeIds)
    (hjoined : ∀ a ∈ model.arcs, (a.source ∈ model.placeIds ∧ a.target ∈ model.transitionIds) ∨
      (a.source ∈ model.transitionIds ∧ a.target ∈ model.placeIds))
    {arc : Arc} (harc : arc ∈ (net model w).arcs) :
    (arc.source ∈ (net model w).placeIds ∧ arc.target ∈ (net model w).transitionIds) ∨
      (arc.source ∈ (net model w).transitionIds ∧ arc.target ∈ (net model w).placeIds) := by
  rw [arcs_net] at harc
  rcases List.mem_append.1 harc with harc | harc
  · have hown {id : String} (hid : id ∈ model.transitionIds) :
        id ∈ (net model w).transitionIds := by
      obtain ⟨t, ht, rfl⟩ := List.mem_map.1 hid
      exact mem_transitionIds_of_mem_moves (own_mem_moves.2 ht)
    rcases hjoined arc harc with hends | hends
    · exact .inl ⟨mem_placeIds_of_mem_model hends.1, hown hends.2⟩
    · exact .inr ⟨hown hends.1, mem_placeIds_of_mem_model hends.2⟩
  · obtain ⟨a, ha, harc⟩ := List.mem_flatMap.1 harc
    have hid := mem_transitionIds_of_mem_moves (mem_moves_of_mem_addedMoves ha)
    rcases ends_of_mem_arcs hplaces ha harc with hends | hends
    · exact .inl ⟨hends.1, hends.2 ▸ hid⟩
    · exact .inr ⟨hends.1 ▸ hid, hends.2⟩

theorem mem_placeIds_of_mem_ends (h : model.IsModelFor w) {t : Transition}
    (ht : t ∈ model.transitions) {p : String}
    (hp : p ∈ model.preset t.id ++ model.postset t.id) : p ∈ model.placeIds := by
  have hid : t.id ∈ model.transitionIds := List.mem_map_of_mem ht
  rcases List.mem_append.1 hp with hp | hp
  · exact Net.mem_placeIds_of_mem_preset (wellJoined_model h) hid hp
  · exact Net.mem_placeIds_of_mem_postset (wellJoined_model h) hid hp

theorem wellJoined_net (h : model.IsModelFor w) : (net model w).WellJoined where
  places_nodup := by
    rw [placeIds_net, List.nodup_append]
    refine ⟨(wellJoined_model h).places_nodup, List.nodup_range.map fun i j ↦ logPlaceId_injective,
      fun id hid id' hid' heq ↦ ?_⟩
    subst heq
    obtain ⟨i, hi, rfl⟩ := List.mem_map.1 hid'
    have hi := List.mem_range.1 hi
    exact logPlaceId_notMem h (by omega) (List.mem_append_left _ hid)
  apart id hp ht := by
    obtain ⟨a, ha, rfl⟩ := exists_move_of_mem_transitionIds ht
    exact id_notMem_placeIds h ha hp
  joined _ := joined_net (fun _ ht _ ↦ mem_placeIds_of_mem_ends h ht) h.joined

/-- The part of the added arcs that a move has to do with is its own arcs. -/
theorem filter_addedArcs (h : model.IsModelFor w) {a : ProductMove} (ha : a ∈ moves model w)
    {p : Arc → Bool} (hp : ∀ arc : Arc, p arc = true → arc.source = a.id ∨ arc.target = a.id) :
    ((addedMoves model w).flatMap (·.arcs model)).filter p = (a.arcs model).filter p := by
  have hother (b : ProductMove) (hb : b ∈ addedMoves model w) (hne : b ≠ a) :
      (b.arcs model).filter p = [] := by
    rw [List.filter_eq_nil_iff]
    intro arc harc hparc
    have hid : b.id ≠ a.id := fun heq ↦ hne (eq_of_id_eq h (mem_moves_of_mem_addedMoves hb) ha heq)
    have hplace := id_notMem_placeIds h ha
    have hends := ends_of_mem_arcs (fun _ ht _ ↦ mem_placeIds_of_mem_ends h ht) hb harc
    rcases hends with hends | hends <;> rcases hp arc hparc with heq | heq
    · exact hplace (heq ▸ hends.1)
    · apply hid
      rw [← hends.2, heq]
    · apply hid
      rw [← hends.1, heq]
    · exact hplace (heq ▸ hends.2)
  rw [List.filter_flatMap]
  rcases List.mem_append.1 ha with hown | hadd
  · obtain ⟨t, ht, rfl⟩ := List.mem_map.1 hown
    rw [List.flatMap_eq_nil_iff.2 fun b hb ↦ hother b hb ?_]
    · rfl
    · rintro rfl
      exact own_notMem_addedMoves hb
  · exact flatMap_eq_of_mem nodup_addedMoves hadd hother

/-- The model has no arc at an added move. -/
theorem filter_modelArcs (h : model.IsModelFor w) {a : ProductMove} (ha : a ∈ addedMoves model w)
    {p : Arc → Bool} (hp : ∀ arc : Arc, p arc = true → arc.source = a.id ∨ arc.target = a.id) :
    model.arcs.filter p = [] := by
  rw [List.filter_eq_nil_iff]
  intro arc harc hparc
  have hid := id_notMem_of_mem_addedMoves h ha
  rw [List.mem_append, not_or] at hid
  rcases h.joined arc harc with hends | hends <;> rcases hp arc hparc with heq | heq
  · exact hid.1 (heq ▸ hends.1)
  · exact hid.2 (heq ▸ hends.2)
  · exact hid.2 (heq ▸ hends.1)
  · exact hid.1 (heq ▸ hends.2)

theorem map_source_inputArcs (i k : Nat) (places : List String) :
    ((places.zipIdx.map (inputArc i k)).map (·.source)) = places := by
  rw [List.map_map]
  exact List.zipIdx_map_fst 0 places

theorem map_target_outputArcs (i k : Nat) (places : List String) :
    ((places.zipIdx.map (outputArc i k)).map (·.target)) = places := by
  rw [List.map_map]
  exact List.zipIdx_map_fst 0 places

/-- The places of the model transition behind a synchronous move do not have the id of the move. -/
theorem ne_syncMoveId (h : model.IsModelFor w) {i k : Nat} {label : String} {t : Transition}
    (ha : .sync i k label t ∈ moves model w) {places : List String}
    (hplaces : ∀ p ∈ places, p ∈ model.placeIds) {x : String × Nat} (hx : x ∈ places.zipIdx) :
    x.1 ≠ syncMoveId i k := by
  intro heq
  have hmem := mem_placeIds_of_mem_model (w := w) (hplaces _ (List.fst_mem_of_mem_zipIdx hx))
  rw [heq] at hmem
  exact id_notMem_placeIds h ha hmem

/-- The arcs into a synchronous move come from the input places of its model transition and from
the log place before its label. -/
theorem map_source_syncArcs (h : model.IsModelFor w) {i k : Nat} {label : String} {t : Transition}
    (ha : .sync i k label t ∈ moves model w) :
    ((syncArcs model i (t, k)).filter (·.target = syncMoveId i k)).map (·.source) =
      model.preset t.id ++ [logPlaceId i] := by
  have ht : t.id ∈ model.transitionIds := List.mem_map_of_mem (image_mem ha rfl)
  have hin : ((model.preset t.id).zipIdx.map (inputArc i k)).filter
      (·.target = syncMoveId i k) = (model.preset t.id).zipIdx.map (inputArc i k) := by
    rw [List.filter_eq_self, List.forall_mem_map]
    intro x _
    exact decide_eq_true rfl
  have hout : ((model.postset t.id).zipIdx.map (outputArc i k)).filter
      (·.target = syncMoveId i k) = [] := by
    rw [List.filter_eq_nil_iff, List.forall_mem_map]
    intro x hx htarget
    exact ne_syncMoveId h ha (fun p ↦ Net.mem_placeIds_of_mem_postset (wellJoined_model h) ht)
      hx (of_decide_eq_true htarget)
  rw [syncArcs, List.filter_append, List.filter_append, hin, hout, List.append_nil,
    List.map_append, map_source_inputArcs]
  simp [logPlaceId_ne_syncMoveId]

/-- The arcs out of a synchronous move lead to the output places of its model transition and to the
log place behind its label. -/
theorem map_target_syncArcs (h : model.IsModelFor w) {i k : Nat} {label : String} {t : Transition}
    (ha : .sync i k label t ∈ moves model w) :
    ((syncArcs model i (t, k)).filter (·.source = syncMoveId i k)).map (·.target) =
      model.postset t.id ++ [logPlaceId (i + 1)] := by
  have ht : t.id ∈ model.transitionIds := List.mem_map_of_mem (image_mem ha rfl)
  have hin : ((model.preset t.id).zipIdx.map (inputArc i k)).filter
      (·.source = syncMoveId i k) = [] := by
    rw [List.filter_eq_nil_iff, List.forall_mem_map]
    intro x hx hsource
    exact ne_syncMoveId h ha (fun p ↦ Net.mem_placeIds_of_mem_preset (wellJoined_model h) ht)
      hx (of_decide_eq_true hsource)
  have hout : ((model.postset t.id).zipIdx.map (outputArc i k)).filter
      (·.source = syncMoveId i k) = (model.postset t.id).zipIdx.map (outputArc i k) := by
    rw [List.filter_eq_self, List.forall_mem_map]
    intro x _
    exact decide_eq_true rfl
  rw [syncArcs, List.filter_append, List.filter_append, hin, hout, List.nil_append,
    List.map_append, map_target_outputArcs]
  simp [logPlaceId_ne_syncMoveId]

/-- At a move the product has the arcs of the model and those of the move. -/
theorem filter_arcs_net (h : model.IsModelFor w) {a : ProductMove} (ha : a ∈ moves model w)
    {p : Arc → Bool} (hp : ∀ arc : Arc, p arc = true → arc.source = a.id ∨ arc.target = a.id) :
    (net model w).arcs.filter p = model.arcs.filter p ++ (a.arcs model).filter p := by
  rw [arcs_net, List.filter_append, filter_addedArcs h ha hp]

theorem preset_net (h : model.IsModelFor w) {a : ProductMove} (ha : a ∈ moves model w) :
    (net model w).preset a.id = a.inputs model := by
  have hends (arc : Arc) (harc : decide (arc.target = a.id) = true) :
      arc.source = a.id ∨ arc.target = a.id := .inr (of_decide_eq_true harc)
  rw [Net.preset, filter_arcs_net h ha hends]
  cases a with
  | own t =>
    rw [ProductMove.arcs, List.filter_nil, List.append_nil]
    rfl
  | log i label =>
    rw [filter_modelArcs h (log_mem_addedMoves.2 (log_mem_moves.1 ha)) hends, List.nil_append]
    change (([⟨inArcId i, logPlaceId i, logMoveId i⟩,
      ⟨outArcId i, logMoveId i, logPlaceId (i + 1)⟩] :
      List Arc).filter (·.target = logMoveId i)).map (·.source) = [logPlaceId i]
    simp [logPlaceId_ne_logMoveId]
  | sync i k label t =>
    rw [filter_modelArcs h (sync_mem_addedMoves.2 (sync_mem_moves.1 ha)) hends, List.nil_append]
    exact map_source_syncArcs h ha

theorem postset_net (h : model.IsModelFor w) {a : ProductMove} (ha : a ∈ moves model w) :
    (net model w).postset a.id = a.outputs model := by
  have hends (arc : Arc) (harc : decide (arc.source = a.id) = true) :
      arc.source = a.id ∨ arc.target = a.id := .inl (of_decide_eq_true harc)
  rw [Net.postset, filter_arcs_net h ha hends]
  cases a with
  | own t =>
    rw [ProductMove.arcs, List.filter_nil, List.append_nil]
    rfl
  | log i label =>
    rw [filter_modelArcs h (log_mem_addedMoves.2 (log_mem_moves.1 ha)) hends, List.nil_append]
    change (([⟨inArcId i, logPlaceId i, logMoveId i⟩,
      ⟨outArcId i, logMoveId i, logPlaceId (i + 1)⟩] :
      List Arc).filter (·.source = logMoveId i)).map (·.target) = [logPlaceId (i + 1)]
    simp [logPlaceId_ne_logMoveId]
  | sync i k label t =>
    rw [filter_modelArcs h (sync_mem_addedMoves.2 (sync_mem_moves.1 ha)) hends, List.nil_append]
    exact map_target_syncArcs h ha

end Product

end PetriAlign
