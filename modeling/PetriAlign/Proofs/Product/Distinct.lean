import PetriAlign.Proofs.Product.Shape

/-!
# Ids of a product

The ids that a product adds are made of a tag and numbers, and no two of them are the same: the tag
tells the kind of node or arc, the first numbers tell the move, and the last one tells the place.
So the ids of a product are distinct exactly if those of the model are and none of them is added.
-/

namespace PetriAlign

namespace Product

open Text

/-- The ids of the nodes for the positions of the trace. -/
def IsAddedNodeId (model : Net) (w : LabelTrace) (id : String) : Prop :=
  (∃ i ≤ w.length, id = tagged "logp" [i]) ∨ (∃ i < w.length, id = tagged "logt" [i]) ∨
    ∃ i label, w[i]? = some label ∧
      ∃ k < matchCount model.transitions label, id = tagged "logs" [i, k]

/-- The ids of the arcs for the positions of the trace. -/
def IsAddedArcId (model : Net) (w : LabelTrace) (id : String) : Prop :=
  (∃ i < w.length, id = tagged "arcp" [i] ∨ id = tagged "arct" [i]) ∨
    ∃ i label before t after, w[i]? = some label ∧ model.transitions = before ++ t :: after ∧
      t.isVisibleAs label = true ∧
      let k := matchCount before label
      id = tagged "arcp" [i, k] ∨ id = tagged "arct" [i, k] ∨
        (∃ j < (model.preset t.id).length, id = tagged "arcin" [i, k, j]) ∨
        ∃ j < (model.postset t.id).length, id = tagged "arcout" [i, k, j]

variable {model : Net} {w : LabelTrace}

/-! ## Nodes -/

theorem mem_generatedIds_iff {id : String} :
    id ∈ generatedIds model w ↔ IsAddedNodeId model w id := by
  rw [generatedIds_eq, List.mem_append, List.mem_map, List.mem_map, IsAddedNodeId]
  apply or_congr
  · simp only [List.mem_range, Nat.lt_succ_iff, logPlaceId_eq, eq_comm]
  · constructor
    · rintro ⟨a, ha, rfl⟩
      cases a with
      | own t => exact absurd ha own_notMem_addedMoves
      | log i label =>
        have hi := (List.getElem?_eq_some_iff.1 (log_mem_addedMoves.1 ha)).1
        exact .inl ⟨i, hi, rfl⟩
      | sync i k label t =>
        obtain ⟨hi, hk⟩ := sync_mem_addedMoves.1 ha
        have hlt := (List.getElem?_eq_some_iff.1 hk).1
        rw [length_matching] at hlt
        exact .inr ⟨i, label, hi, k, hlt, syncMoveId_eq i k⟩
    · rintro (⟨i, hi, rfl⟩ | ⟨i, label, hi, k, hk, rfl⟩)
      · exact ⟨.log i w[i], log_mem_addedMoves.2 (List.getElem?_eq_getElem hi), rfl⟩
      · rw [← length_matching] at hk
        exact ⟨.sync i k label _, sync_mem_addedMoves.2 ⟨hi, List.getElem?_eq_getElem hk⟩,
          syncMoveId_eq i k⟩

theorem nodup_generatedIds (model : Net) (w : LabelTrace) : (generatedIds model w).Nodup := by
  rw [generatedIds_eq, List.nodup_append]
  refine ⟨?_, ?_, ?_⟩
  · exact List.nodup_range.map fun i j ↦ logPlaceId_injective
  · exact nodup_addedMoves.map_on fun a ha b hb ↦ eq_of_id_eq_of_added ha hb
  · intro place hplace id hid
    obtain ⟨i, -, rfl⟩ := List.mem_map.1 hplace
    obtain ⟨a, ha, rfl⟩ := List.mem_map.1 hid
    cases a with
    | own t => exact absurd ha own_notMem_addedMoves
    | log j label => exact logPlaceId_ne_logMoveId i j
    | sync j k label t => exact logPlaceId_ne_syncMoveId i j k

theorem perm_nodeIds (model : Net) (w : LabelTrace) :
    ((net model w).placeIds ++ (net model w).transitionIds).Perm
      (model.placeIds ++ model.transitionIds ++ generatedIds model w) := by
  have htransitions : (net model w).transitionIds =
      model.transitionIds ++ (addedMoves model w).map (·.id) := by
    rw [Net.transitionIds, transitions_net, moves, List.map_map, List.map_append, List.map_map]
    rfl
  rw [placeIds_net, htransitions, generatedIds_eq, List.append_assoc, List.append_assoc]
  apply List.Perm.append_left
  rw [← List.append_assoc, ← List.append_assoc]
  exact List.Perm.append_right _ List.perm_append_comm

/-! ## Arcs -/

/-- The tags and numbers in the ids of the arcs of a move. -/
def arcLabels (model : Net) : ProductMove → List (String × List Nat)
  | .log i _ => [("arcp", [i]), ("arct", [i])]
  | .sync i k _ t =>
    (List.range (model.preset t.id).length).map (fun j ↦ ("arcin", [i, k, j])) ++
      (List.range (model.postset t.id).length).map (fun j ↦ ("arcout", [i, k, j])) ++
      [("arcp", [i, k]), ("arct", [i, k])]
  | .own _ => []

/-- The move that the numbers of an arc belong to. -/
def moveIdOf : List Nat → String
  | [] => ""
  | [i] => logMoveId i
  | i :: k :: _ => syncMoveId i k

/-- What depends on the positions of a list alone. -/
theorem map_mapIdx_eq_map_range {α β γ : Type} {f : Nat → α → β} {g : β → γ} {h : Nat → γ}
    (hfg : ∀ j x, g (f j x) = h j) (xs : List α) :
    (xs.mapIdx f).map g = (List.range xs.length).map h := by
  apply List.ext_getElem
  · simp
  · intro j _ _
    simp [hfg]

theorem map_id_arcs (model : Net) (a : ProductMove) :
    (a.arcs model).map (·.id) = (arcLabels model a).map fun x ↦ tagged x.1 x.2 := by
  cases a with
  | own t => rfl
  | log i label => rfl
  | sync i k label t =>
    have hin (inputs : List String) :
        (inputs.mapIdx fun j p ↦ (⟨tagged "arcin" [i, k, j], p, tagged "logs" [i, k]⟩ : Arc)).map
          (·.id) = (List.range inputs.length).map fun j ↦ tagged "arcin" [i, k, j] := by
      apply map_mapIdx_eq_map_range
      exact fun _ _ ↦ rfl
    have hout (outputs : List String) :
        (outputs.mapIdx fun j p ↦ (⟨tagged "arcout" [i, k, j], tagged "logs" [i, k], p⟩ : Arc)).map
          (·.id) = (List.range outputs.length).map fun j ↦ tagged "arcout" [i, k, j] := by
      apply map_mapIdx_eq_map_range
      exact fun _ _ ↦ rfl
    rw [ProductMove.arcs, syncArcs_eq, List.map_append, List.map_append, hin, hout, arcLabels,
      List.map_append, List.map_append, List.map_map, List.map_map]
    rfl

/-- Every arc of a move has the tag of an arc and numbers that belong to the move. -/
theorem of_mem_arcLabels {a : ProductMove} {x : String × List Nat} (hx : x ∈ arcLabels model a) :
    IsTag x.1 ∧ x.2 ≠ [] ∧ moveIdOf x.2 = a.id := by
  cases a with
  | own t => exact absurd hx List.not_mem_nil
  | log i label =>
    simp only [arcLabels, List.mem_cons, List.not_mem_nil, or_false] at hx
    rcases hx with rfl | rfl
    · exact ⟨show IsTag "arcp" by decide, by simp, rfl⟩
    · exact ⟨show IsTag "arct" by decide, by simp, rfl⟩
  | sync i k label t =>
    simp only [arcLabels, List.mem_append, List.mem_map, List.mem_cons, List.not_mem_nil,
      or_false] at hx
    rw [ProductMove.id, ProductMove.transition, relabel, syncMoveId_eq]
    rcases hx with (⟨j, -, rfl⟩ | ⟨j, -, rfl⟩) | rfl | rfl
    · exact ⟨show IsTag "arcin" by decide, by simp, syncMoveId_eq i k⟩
    · exact ⟨show IsTag "arcout" by decide, by simp, syncMoveId_eq i k⟩
    · exact ⟨show IsTag "arcp" by decide, by simp, syncMoveId_eq i k⟩
    · exact ⟨show IsTag "arct" by decide, by simp, syncMoveId_eq i k⟩

theorem nodup_arcLabels (model : Net) (a : ProductMove) : (arcLabels model a).Nodup := by
  cases a with
  | own t => exact List.nodup_nil
  | log i label => simp [arcLabels]
  | sync i k label t =>
    have hnumbered (tag : String) (n : Nat) :
        ((List.range n).map fun j ↦ (tag, [i, k, j])).Nodup := by
      apply List.nodup_range.map
      intro j j' h
      simpa using h
    rw [arcLabels, List.nodup_append, List.nodup_append]
    refine ⟨⟨hnumbered _ _, hnumbered _ _, ?_⟩, by simp, ?_⟩
    · simp
    · intro x hx y hy heq
      subst heq
      have hthree : x.2.length = 3 := by
        rcases List.mem_append.1 hx with hx | hx <;> obtain ⟨j, -, rfl⟩ := List.mem_map.1 hx <;> rfl
      have htwo : x.2.length = 2 := by
        rcases List.mem_pair.1 hy with rfl | rfl <;> rfl
      omega

/-- No two arcs that a product adds have the same tag and numbers. -/
theorem nodup_flatMap_arcLabels (model : Net) (w : LabelTrace) :
    ((addedMoves model w).flatMap (arcLabels model)).Nodup := by
  rw [List.nodup_flatMap]
  refine ⟨fun a _ ↦ nodup_arcLabels model a, ?_⟩
  apply nodup_addedMoves.imp_of_mem
  intro a b ha hb hne x hxa hxb
  apply hne
  apply eq_of_id_eq_of_added ha hb
  calc
    a.id = moveIdOf x.2 := (of_mem_arcLabels hxa).2.2.symm
    _ = b.id := (of_mem_arcLabels hxb).2.2

/-- The ids of the arcs that a product adds. -/
def addedArcIds (model : Net) (w : LabelTrace) : List String :=
  ((addedMoves model w).flatMap (arcLabels model)).map fun x ↦ tagged x.1 x.2

theorem nodup_addedArcIds (model : Net) (w : LabelTrace) : (addedArcIds model w).Nodup := by
  apply (nodup_flatMap_arcLabels model w).map_on
  intro x hx y hy heq
  obtain ⟨a, -, hxa⟩ := List.mem_flatMap.1 hx
  obtain ⟨b, -, hyb⟩ := List.mem_flatMap.1 hy
  obtain ⟨hxtag, hxne, -⟩ := of_mem_arcLabels hxa
  obtain ⟨hytag, hyne, -⟩ := of_mem_arcLabels hyb
  obtain ⟨htag, hnumbers⟩ := tagged_inj hxtag hytag hxne hyne heq
  exact Prod.ext htag hnumbers

theorem map_id_arcs_net (model : Net) (w : LabelTrace) :
    (net model w).arcs.map (·.id) = model.arcs.map (·.id) ++ addedArcIds model w := by
  rw [arcs_net, List.map_append, List.map_flatMap, addedArcIds, List.map_flatMap]
  simp only [map_id_arcs]

theorem mem_addedArcIds_iff {id : String} :
    id ∈ addedArcIds model w ↔ IsAddedArcId model w id := by
  simp only [addedArcIds, List.mem_map, List.mem_flatMap]
  constructor
  · rintro ⟨x, ⟨a, ha, hx⟩, rfl⟩
    cases a with
    | own t => exact absurd hx List.not_mem_nil
    | log i label =>
      have hi := (List.getElem?_eq_some_iff.1 (log_mem_addedMoves.1 ha)).1
      simp only [arcLabels, List.mem_cons, List.not_mem_nil, or_false] at hx
      refine .inl ⟨i, hi, ?_⟩
      rcases hx with rfl | rfl
      · exact .inl rfl
      · exact .inr rfl
    | sync i k label t =>
      obtain ⟨hi, hk⟩ := sync_mem_addedMoves.1 ha
      obtain ⟨before, after, hsplit, ht, rfl⟩ := exists_split_of_getElem?_matching hk
      simp only [arcLabels, List.mem_append, List.mem_map, List.mem_range, List.mem_cons,
        List.not_mem_nil, or_false] at hx
      refine .inr ⟨i, label, before, t, after, hi, hsplit, ht, ?_⟩
      rcases hx with (⟨j, hj, rfl⟩ | ⟨j, hj, rfl⟩) | rfl | rfl
      · exact .inr (.inr (.inl ⟨j, hj, rfl⟩))
      · exact .inr (.inr (.inr ⟨j, hj, rfl⟩))
      · exact .inl rfl
      · exact .inr (.inl rfl)
  · rintro (⟨i, hi, hid⟩ | ⟨i, label, before, t, after, hi, hsplit, ht, hid⟩)
    · have ha : .log i w[i] ∈ addedMoves model w :=
        log_mem_addedMoves.2 (List.getElem?_eq_getElem hi)
      rcases hid with rfl | rfl
      · exact ⟨("arcp", [i]), ⟨_, ha, by simp [arcLabels]⟩, rfl⟩
      · exact ⟨("arct", [i]), ⟨_, ha, by simp [arcLabels]⟩, rfl⟩
    · have ha : .sync i (matchCount before label) label t ∈ addedMoves model w :=
        sync_mem_addedMoves.2 ⟨hi, (getElem?_matching hsplit ht).1⟩
      rcases hid with rfl | rfl | ⟨j, hj, rfl⟩ | ⟨j, hj, rfl⟩
      · exact ⟨("arcp", [i, _]), ⟨_, ha, by simp [arcLabels]⟩, rfl⟩
      · exact ⟨("arct", [i, _]), ⟨_, ha, by simp [arcLabels]⟩, rfl⟩
      · exact ⟨("arcin", [i, _, j]), ⟨_, ha, by simp [arcLabels, hj]⟩, rfl⟩
      · exact ⟨("arcout", [i, _, j]), ⟨_, ha, by simp [arcLabels, hj]⟩, rfl⟩

/-! ## Both -/

/-- A list of distinct elements behind another list. -/
theorem nodup_append_iff_of_nodup {α : Type} {xs ys : List α} (hys : ys.Nodup) :
    (xs ++ ys).Nodup ↔ xs.Nodup ∧ ∀ x ∈ xs, x ∉ ys := by
  rw [List.nodup_append]
  constructor
  · rintro ⟨hxs, -, hne⟩
    exact ⟨hxs, fun x hx hy ↦ hne x hx x hy rfl⟩
  · rintro ⟨hxs, hnotin⟩
    exact ⟨hxs, hys, fun x hx y hy heq ↦ hnotin x hx (heq ▸ hy)⟩

/-- What is added to a model never clashes with itself, so only the model decides. -/
theorem nodup_ids_product_iff (model : Net) (w : LabelTrace) :
    (((model.product w).net.placeIds ++ (model.product w).net.transitionIds).Nodup ↔
      (model.placeIds ++ model.transitionIds).Nodup ∧
        ∀ id ∈ model.placeIds ++ model.transitionIds, ¬ IsAddedNodeId model w id) ∧
    (((model.product w).net.arcs.map (·.id)).Nodup ↔
      (model.arcs.map (·.id)).Nodup ∧ ∀ id ∈ model.arcs.map (·.id), ¬ IsAddedArcId model w id) := by
  simp only [← mem_generatedIds_iff, ← mem_addedArcIds_iff]
  constructor
  · rw [← nodup_append_iff_of_nodup (nodup_generatedIds model w)]
    exact (perm_nodeIds model w).nodup_iff
  · rw [← nodup_append_iff_of_nodup (nodup_addedArcIds model w), ← map_id_arcs_net]
    rfl

end Product

end PetriAlign
