import PetriAlign.Proofs.Product.Moves

/-!
# The shape of a product

Where each place, transition and arc of a product stands and what it looks like, for every model and
every trace. The elements of the model come first, and those that are added follow in blocks, one
for each position of the trace, so the sizes of the blocks before it tell where a block begins. The
sizes of all blocks add up to the size of the product.
-/

namespace PetriAlign

/-! ## Blocks of a list -/

section Blocks

variable {α β : Type}

/-- Each element contributes a block, which begins behind the blocks of the elements before it. -/
theorem prefix_drop_flatMap_zipIdx {f : α × Nat → List β} {size : α → Nat}
    (hsize : ∀ x i, (f (x, i)).length = size x) {xs : List α} {i : Nat} {x : α}
    (hx : xs[i]? = some x) (start : Nat) :
    f (x, start + i) <+: ((xs.zipIdx start).flatMap f).drop ((xs.take i).map size).sum := by
  induction xs generalizing i start with
  | nil => simp at hx
  | cons y xs ih =>
    rw [List.zipIdx_cons, List.flatMap_cons]
    cases i with
    | zero =>
      rw [List.getElem?_cons_zero, Option.some_inj] at hx
      subst hx
      exact List.prefix_append _ _
    | succ i =>
      rw [List.getElem?_cons_succ] at hx
      have hblock := ih hx (start + 1)
      rw [List.take_succ_cons, List.map_cons, List.sum_cons, ← hsize y start, ← List.drop_drop,
        List.drop_left, show start + (i + 1) = start + 1 + i by omega]
      exact hblock

theorem length_flatMap_zipIdx {f : α × Nat → List β} {size : α → Nat}
    (hsize : ∀ x i, (f (x, i)).length = size x) (xs : List α) (start : Nat) :
    ((xs.zipIdx start).flatMap f).length = (xs.map size).sum := by
  induction xs generalizing start with
  | nil => rfl
  | cons y xs ih =>
    rw [List.zipIdx_cons, List.flatMap_cons, List.length_append, ih, hsize, List.map_cons,
      List.sum_cons]

/-- A block of a list behind another one. -/
theorem prefix_drop_append (xs : List α) {block rest : List α} {start : Nat}
    (h : block <+: rest.drop start) :
    block <+: (xs ++ rest).drop (xs.length + start) := by
  rwa [← List.drop_drop, List.drop_left]

/-- A block of a block. -/
theorem prefix_drop_drop {block outer xs : List α} {start inner : Nat}
    (hinner : block <+: outer.drop inner) (houter : outer <+: xs.drop start) :
    block <+: xs.drop (start + inner) := by
  rw [← List.drop_drop]
  exact hinner.trans (houter.drop inner)

end Blocks

/-! ## Places in the lists of a product -/

/-- Whether the transition is a visible move of the model with this name. -/
def Transition.isVisibleAs (label : String) (t : Transition) : Bool :=
  t.kind = .model && t.name = label

namespace Product

open Text

/-- The number of transitions that move together with a label. -/
def matchCount (transitions : List Transition) (label : String) : Nat :=
  transitions.countP (·.isVisibleAs label)

/-- The number of arcs of a synchronous move for a transition of the model. -/
def syncSize (model : Net) (t : Transition) : Nat :=
  2 + (model.preset t.id).length + (model.postset t.id).length

/-- The number of arcs of the synchronous moves for these transitions and a label. -/
def syncTotal (model : Net) (transitions : List Transition) (label : String) : Nat :=
  ((transitions.filter (·.isVisibleAs label)).map (syncSize model)).sum

/-- Where the moves for the label at position `i` begin among the transitions. -/
def movesStart (model : Net) (w : LabelTrace) (i : Nat) : Nat :=
  model.transitions.length + ((w.take i).map fun label ↦ 1 + matchCount model.transitions label).sum

/-- Where the arcs for the label at position `i` begin. -/
def arcsStart (model : Net) (w : LabelTrace) (i : Nat) : Nat :=
  model.arcs.length + ((w.take i).map fun label ↦ 2 + syncTotal model model.transitions label).sum

/-- The net is the model with the chain of a trace beside it. -/
structure HasShape (model : Net) (w : LabelTrace) (product : Net) : Prop where
  /-- Up to the final counts. -/
  places : product.places.map ({ · with final := none }) =
    model.places.map ({ · with final := none }) ++
      ⟨tagged "logp" [0], tagged "logp" [0], 1, none, .log⟩ ::
        (List.range w.length).map fun i ↦
          ⟨tagged "logp" [i + 1], tagged "logp" [i + 1], 0, none, .log⟩
  modelTransitions :
    (model.transitions.map fun t ↦ ⟨t.id, t.kind.tag, t.name, t.kind⟩) <+: product.transitions
  tags : ∀ t ∈ product.transitions, t.name = t.kind.tag
  modelArcs : model.arcs <+: product.arcs
  /-- A log move, then a synchronous move for each visible transition with the name. -/
  moves : ∀ i label, w[i]? = some label →
    (⟨tagged "logt" [i], "LOG", label, .log⟩ ::
      (List.range (matchCount model.transitions label)).map fun k ↦
        ⟨tagged "logs" [i, k], "SYNC", label, .sync⟩) <+:
      product.transitions.drop (movesStart model w i)
  /-- The log move takes a step on the chain. -/
  logArcs : ∀ i, i < w.length →
    [⟨tagged "arcp" [i], tagged "logp" [i], tagged "logt" [i]⟩,
      ⟨tagged "arct" [i], tagged "logt" [i], tagged "logp" [i + 1]⟩] <+:
      product.arcs.drop (arcsStart model w i)
  /-- The synchronous move takes the step as well, and has the arcs of its transition. -/
  syncArcs : ∀ i label before t after, w[i]? = some label →
    model.transitions = before ++ t :: after → t.isVisibleAs label = true →
    let k := matchCount before label
    ((model.preset t.id).mapIdx fun j p ↦ ⟨tagged "arcin" [i, k, j], p, tagged "logs" [i, k]⟩) ++
      ((model.postset t.id).mapIdx fun j p ↦
        ⟨tagged "arcout" [i, k, j], tagged "logs" [i, k], p⟩) ++
      [⟨tagged "arcp" [i, k], tagged "logp" [i], tagged "logs" [i, k]⟩,
        ⟨tagged "arct" [i, k], tagged "logs" [i, k], tagged "logp" [i + 1]⟩] <+:
      product.arcs.drop (arcsStart model w i + 2 + syncTotal model before label)
  /-- Nothing else. -/
  statistics : product.statistics =
    ⟨model.places.length + w.length + 1,
      model.transitions.length + w.length + (w.map (matchCount model.transitions)).sum,
      model.arcs.length + 2 * w.length + (w.map (syncTotal model model.transitions)).sum⟩

variable {model : Net} {w : LabelTrace}

/-! ## Sizes of blocks -/

theorem length_matching (model : Net) (label : String) :
    (matching model label).length = matchCount model.transitions label :=
  List.countP_eq_length_filter.symm

theorem length_movesAt (model : Net) (label : String) (i : Nat) :
    (movesAt model (label, i)).length = 1 + matchCount model.transitions label := by
  simp only [movesAt, List.length_cons, List.length_map, List.length_zipIdx, length_matching]
  omega

theorem length_syncArcs (model : Net) (i : Nat) (t : Transition) (k : Nat) :
    (syncArcs model i (t, k)).length = syncSize model t := by
  simp only [Product.syncArcs, syncSize, List.length_append, List.length_map, List.length_zipIdx,
    List.length_cons, List.length_nil]
  omega

theorem length_arcsAt (model : Net) (label : String) (i : Nat) :
    (arcsAt model (label, i)).length = 2 + syncTotal model model.transitions label := by
  rw [arcsAt, List.length_append, length_flatMap_zipIdx (length_syncArcs model i)]
  rfl

/-- The transition behind `before` is the one with that many before it to move with the label. -/
theorem getElem?_matching {before after : List Transition} {t : Transition} {label : String}
    (hsplit : model.transitions = before ++ t :: after) (ht : t.isVisibleAs label = true) :
    (matching model label)[matchCount before label]? = some t ∧
      (matching model label).take (matchCount before label) =
        before.filter (·.isVisibleAs label) := by
  have hmatching : matching model label =
      before.filter (·.isVisibleAs label) ++ t :: after.filter (·.isVisibleAs label) := by
    calc
      _ = model.transitions.filter (·.isVisibleAs label) := rfl
      _ = _ := by rw [hsplit, List.filter_append, List.filter_cons_of_pos ht]
  rw [hmatching, matchCount, List.countP_eq_length_filter]
  constructor
  · rw [List.getElem?_append_right le_rfl, Nat.sub_self, List.getElem?_cons_zero]
  · exact List.take_left

/-- Each of the transitions that move together with a label has some place in the model. -/
theorem exists_split_of_getElem?_matching {k : Nat} {label : String} {t : Transition}
    (hk : (matching model label)[k]? = some t) :
    ∃ before after, model.transitions = before ++ t :: after ∧ t.isVisibleAs label = true ∧
      matchCount before label = k := by
  obtain ⟨hlt, hget⟩ := List.getElem?_eq_some_iff.1 hk
  have hsplit : model.transitions.filter (·.isVisibleAs label) =
      (matching model label).take k ++ t :: (matching model label).drop (k + 1) := by
    calc
      _ = (matching model label).take k ++ (matching model label).drop k :=
        (List.take_append_drop k _).symm
      _ = _ := by rw [List.drop_eq_getElem_cons hlt, hget]
  obtain ⟨first, rest, htransitions, hfirst, hrest⟩ := List.filter_eq_append_iff.1 hsplit
  obtain ⟨others, after, rfl, hothers, ht, -⟩ := List.filter_eq_cons_iff.1 hrest
  refine ⟨first ++ others, after, by rw [htransitions, List.append_assoc], ht, ?_⟩
  rw [matchCount, List.countP_append, List.countP_eq_length_filter, hfirst, List.length_take,
    List.countP_eq_zero.2 hothers]
  omega

/-! ## Blocks of the product -/

theorem prefix_drop_movesAt {i : Nat} {label : String} (hi : w[i]? = some label) :
    (movesAt model (label, i)).map relabel <+:
      (net model w).transitions.drop (movesStart model w i) := by
  have hblock := prefix_drop_flatMap_zipIdx (length_movesAt model) hi 0
  rw [Nat.zero_add] at hblock
  have hdrop := (prefix_drop_append model.transitions hblock).map relabel
  rwa [List.map_drop] at hdrop

theorem prefix_drop_arcsAt {i : Nat} {label : String} (hi : w[i]? = some label) :
    arcsAt model (label, i) <+: (net model w).arcs.drop (arcsStart model w i) := by
  have hblock := prefix_drop_flatMap_zipIdx (length_arcsAt model) hi 0
  rw [Nat.zero_add] at hblock
  exact prefix_drop_append _ hblock

theorem prefix_drop_syncArcs {i k : Nat} {label : String} {t : Transition} (hi : w[i]? = some label)
    (ht : (matching model label)[k]? = some t) :
    syncArcs model i (t, k) <+: (net model w).arcs.drop
      (arcsStart model w i + 2 + (((matching model label).take k).map (syncSize model)).sum) := by
  have hblock := prefix_drop_flatMap_zipIdx (length_syncArcs model i) ht 0
  rw [Nat.zero_add] at hblock
  have hinner := prefix_drop_append (logArcs i) hblock
  rw [Nat.add_assoc]
  exact prefix_drop_drop hinner (prefix_drop_arcsAt hi)

/-! ## Ids -/

theorem syncArcs_eq (model : Net) (i k : Nat) (t : Transition) :
    syncArcs model i (t, k) =
      ((model.preset t.id).mapIdx fun j p ↦ ⟨tagged "arcin" [i, k, j], p, tagged "logs" [i, k]⟩) ++
      ((model.postset t.id).mapIdx fun j p ↦
        ⟨tagged "arcout" [i, k, j], tagged "logs" [i, k], p⟩) ++
      [⟨tagged "arcp" [i, k], tagged "logp" [i], tagged "logs" [i, k]⟩,
        ⟨tagged "arct" [i, k], tagged "logs" [i, k], tagged "logp" [i + 1]⟩] := by
  have hin (x : String × Nat) : inputArc i k x =
      ⟨tagged "arcin" [i, k, x.2], x.1, tagged "logs" [i, k]⟩ := by
    simp [inputArc, numbered, syncMoveId_eq, tagged, String.append_assoc]
  have hout (x : String × Nat) : outputArc i k x =
      ⟨tagged "arcout" [i, k, x.2], tagged "logs" [i, k], x.1⟩ := by
    simp [outputArc, numbered, syncMoveId_eq, tagged, String.append_assoc]
  have hstep : [(⟨numbered (inArcId i) k, logPlaceId i, syncMoveId i k⟩ : Arc),
      ⟨numbered (outArcId i) k, syncMoveId i k, logPlaceId (i + 1)⟩] =
        [⟨tagged "arcp" [i, k], tagged "logp" [i], tagged "logs" [i, k]⟩,
          ⟨tagged "arct" [i, k], tagged "logs" [i, k], tagged "logp" [i + 1]⟩] := by
    simp [numbered, inArcId, outArcId, logPlaceId_eq, syncMoveId_eq, tagged, String.append_assoc]
  rw [List.mapIdx_eq_zipIdx_map, List.mapIdx_eq_zipIdx_map, ← hstep,
    ← List.map_congr_left fun x _ ↦ hin x, ← List.map_congr_left fun x _ ↦ hout x]
  rfl

theorem map_relabel_movesAt (model : Net) (label : String) (i : Nat) :
    (movesAt model (label, i)).map relabel =
      ⟨tagged "logt" [i], "LOG", label, .log⟩ ::
        (List.range (matchCount model.transitions label)).map fun k ↦
          ⟨tagged "logs" [i, k], "SYNC", label, .sync⟩ := by
  have hnumbers : (matching model label).zipIdx.map Prod.snd =
      List.range (matchCount model.transitions label) := by
    rw [List.zipIdx_map_snd, length_matching, List.range_eq_range']
  rw [← hnumbers, movesAt, List.map_cons, List.map_map, List.map_map]
  apply congrArg (List.cons _)
  apply List.map_congr_left
  intro move _
  simp only [Function.comp_apply, relabel, syncMoveId_eq]
  rfl

theorem map_places_net (model : Net) (w : LabelTrace) :
    (net model w).places.map ({ · with final := none }) =
      model.places.map ({ · with final := none }) ++
        ⟨tagged "logp" [0], tagged "logp" [0], 1, none, .log⟩ ::
          (List.range w.length).map fun i ↦
            ⟨tagged "logp" [i + 1], tagged "logp" [i + 1], 0, none, .log⟩ := by
  have hchain : (List.range (w.length + 1)).map logPlace =
      ⟨tagged "logp" [0], tagged "logp" [0], 1, none, .log⟩ ::
        (List.range w.length).map fun i ↦
          ⟨tagged "logp" [i + 1], tagged "logp" [i + 1], 0, none, .log⟩ := by
    rw [List.range_succ_eq_map, List.map_cons, List.map_map]
    rfl
  rw [← hchain, net, List.map_map, List.map_append, List.map_map]
  rfl

theorem statistics_net (model : Net) (w : LabelTrace) :
    (net model w).statistics =
      ⟨model.places.length + w.length + 1,
        model.transitions.length + w.length + (w.map (matchCount model.transitions)).sum,
        model.arcs.length + 2 * w.length + (w.map (syncTotal model model.transitions)).sum⟩ := by
  have hmoves := length_flatMap_zipIdx (length_movesAt model) w 0
  have harcs := length_flatMap_zipIdx (length_arcsAt model) w 0
  rw [List.sum_map_add, List.map_const', List.sum_replicate, smul_eq_mul] at hmoves harcs
  simp only [Net.statistics, net, List.length_map, List.length_append, List.length_range, hmoves,
    harcs, Statistics.mk.injEq]
  omega

/-- The product of any model and any trace. -/
theorem hasShape_product (model : Net) (w : LabelTrace) :
    HasShape model w (model.product w).net where
  places := map_places_net model w
  modelTransitions := by
    have htransitions : (model.product w).net.transitions = model.transitions.map relabel ++
        (w.zipIdx.flatMap (movesAt model)).map relabel := List.map_append
    rw [htransitions]
    exact List.prefix_append _ _
  tags t ht := by
    obtain ⟨u, -, rfl⟩ := List.mem_map.1 ht
    rfl
  modelArcs := List.prefix_append _ _
  moves i label hi := by
    rw [← map_relabel_movesAt]
    exact prefix_drop_movesAt hi
  logArcs i hi := by
    have hlabel : w[i]? = some w[i] := List.getElem?_eq_getElem hi
    exact (List.prefix_append _ _).trans (prefix_drop_arcsAt hlabel)
  syncArcs i label before t after hi hsplit ht := by
    obtain ⟨hmatch, htake⟩ := getElem?_matching hsplit ht
    have hblock := prefix_drop_syncArcs hi hmatch
    rw [htake, syncArcs_eq] at hblock
    exact hblock
  statistics := statistics_net model w

end Product

end PetriAlign
