import Mathlib.Data.List.Basic
import Mathlib.Data.List.Nodup
import Mathlib.Data.List.Sigma
import PetriAlign.Product
import PetriAlign.Proofs.Net.Takes
import PetriAlign.Proofs.Text.Tagged

/-!
# The moves of a product

Each transition of a product is a log move, a synchronous move or a move of the model. Its id tells
which: the generated ids are pairwise different, and a model that fits the trace uses none of them.
-/

namespace PetriAlign

namespace Product

/-! ## Generated ids -/

theorem logPlaceId_eq (i : Nat) : logPlaceId i = Text.tagged "logp" [i] := rfl

theorem logMoveId_eq (i : Nat) : logMoveId i = Text.tagged "logt" [i] := rfl

theorem syncMoveId_eq (i k : Nat) : syncMoveId i k = Text.tagged "logs" [i, k] := by
  simp [syncMoveId, Text.tagged, String.append_assoc]

theorem logPlaceId_injective {i j : Nat} (h : logPlaceId i = logPlaceId j) : i = j := by
  rw [logPlaceId_eq, logPlaceId_eq] at h
  have hnumbers := (Text.tagged_inj (by decide) (by decide) (by simp) (by simp) h).2
  exact List.singleton_inj.1 hnumbers

theorem logMoveId_injective {i j : Nat} (h : logMoveId i = logMoveId j) : i = j := by
  rw [logMoveId_eq, logMoveId_eq] at h
  have hnumbers := (Text.tagged_inj (by decide) (by decide) (by simp) (by simp) h).2
  exact List.singleton_inj.1 hnumbers

theorem syncMoveId_injective {i j k l : Nat} (h : syncMoveId i k = syncMoveId j l) :
    i = j ∧ k = l := by
  rw [syncMoveId_eq, syncMoveId_eq] at h
  have hnumbers := (Text.tagged_inj (by decide) (by decide) (by simp) (by simp) h).2
  simpa using hnumbers

theorem logPlaceId_ne_logMoveId (i j : Nat) : logPlaceId i ≠ logMoveId j := by
  rw [logPlaceId_eq, logMoveId_eq]
  exact Text.tagged_ne (by decide) (by decide) (by simp) (by simp) (by decide)

theorem logPlaceId_ne_syncMoveId (i j k : Nat) : logPlaceId i ≠ syncMoveId j k := by
  rw [logPlaceId_eq, syncMoveId_eq]
  exact Text.tagged_ne (by decide) (by decide) (by simp) (by simp) (by decide)

theorem logMoveId_ne_syncMoveId (i j k : Nat) : logMoveId i ≠ syncMoveId j k := by
  rw [logMoveId_eq, syncMoveId_eq]
  exact Text.tagged_ne (by decide) (by decide) (by simp) (by simp) (by decide)

/-- The ids of the places and transitions that a product adds to its model. -/
def generatedIds (model : Net) (w : LabelTrace) : List String :=
  (List.range (w.length + 1)).map logPlaceId ++ (w.zipIdx.flatMap (movesAt model)).map (·.id)

end Product

open Product

/-- The net has the kinds of a model, and its nodes keep apart from each other and from those that
its product with the trace adds. -/
structure Net.IsModelFor (model : Net) (w : LabelTrace) : Prop where
  place_kind : ∀ p ∈ model.places, p.kind = .model
  transition_kind : ∀ t ∈ model.transitions, t.kind = .model ∨ t.kind = .tau
  nodup : (model.placeIds ++ model.transitionIds).Nodup
  fresh : ∀ id ∈ model.placeIds ++ model.transitionIds, id ∉ generatedIds model w
  joined : ∀ a ∈ model.arcs, (a.source ∈ model.placeIds ∧ a.target ∈ model.transitionIds) ∨
    (a.source ∈ model.transitionIds ∧ a.target ∈ model.placeIds)
  final_mem : ∀ mark ∈ model.final, mark.1 ∈ model.placeIds

theorem payment_isModelFor : payment.IsModelFor ["pay"] where
  place_kind := by decide
  transition_kind := by decide
  nodup := by decide
  fresh := by decide +kernel
  joined := by decide
  final_mem := by decide

/-- What a transition of a product does. -/
inductive ProductMove
  /-- The log advances over the label at position `i`. -/
  | log (i : Nat) (label : String)
  /-- The log advances at position `i` together with the `k`-th transition of that name. -/
  | sync (i k : Nat) (label : String) (t : Transition)
  /-- The model advances alone. -/
  | own (t : Transition)
  deriving DecidableEq, Repr

namespace ProductMove

/-- The transition of the product. -/
def transition : ProductMove → Transition
  | log i label => relabel ⟨logMoveId i, label, label, .log⟩
  | sync i k label _ => relabel ⟨syncMoveId i k, label, label, .sync⟩
  | own t => relabel t

def id (move : ProductMove) : String := move.transition.id

/-- The position of the label that is advanced over. -/
def position? : ProductMove → Option Nat
  | log i _ => some i
  | sync i _ _ _ => some i
  | own _ => none

/-- The transition of the model that fires. -/
def image? : ProductMove → Option Transition
  | log _ _ => none
  | sync _ _ _ t => some t
  | own t => some t

/-- The arcs that the product has for the move beside those of the model. -/
def arcs (model : Net) : ProductMove → List Arc
  | log i _ => logArcs i
  | sync i k _ t => syncArcs model i (t, k)
  | own _ => []

/-- The input places, with an entry for each arc. -/
def inputs (model : Net) : ProductMove → List String
  | log i _ => [logPlaceId i]
  | sync i _ _ t => model.preset t.id ++ [logPlaceId i]
  | own t => model.preset t.id

/-- The output places, with an entry for each arc. -/
def outputs (model : Net) : ProductMove → List String
  | log i _ => [logPlaceId (i + 1)]
  | sync i _ _ t => model.postset t.id ++ [logPlaceId (i + 1)]
  | own t => model.postset t.id

end ProductMove

namespace Product

/-- The moves for the label at a position. -/
def movesFor (model : Net) (position : String × Nat) : List ProductMove :=
  .log position.2 position.1 ::
    (matching model position.1).zipIdx.map fun move ↦ .sync position.2 move.2 position.1 move.1

/-- The moves that the product adds to the model. -/
def addedMoves (model : Net) (w : LabelTrace) : List ProductMove :=
  w.zipIdx.flatMap (movesFor model)

/-- All moves, in the order of the transitions of the product. -/
def moves (model : Net) (w : LabelTrace) : List ProductMove :=
  model.transitions.map .own ++ addedMoves model w

/-- The move that an id stands for. -/
def move? (model : Net) (w : LabelTrace) (id : String) : Option ProductMove :=
  (moves model w).find? (·.id = id)

/-- The position that a transition of the product advances over. -/
def position? (model : Net) (w : LabelTrace) (id : String) : Option Nat :=
  (move? model w id).bind ProductMove.position?

/-- The transition of the model that fires with a transition of the product. -/
def image? (model : Net) (w : LabelTrace) (id : String) : Option Transition :=
  (move? model w id).bind ProductMove.image?

variable {model : Net} {w : LabelTrace}

theorem transitions_net : (net model w).transitions = (moves model w).map (·.transition) := by
  simp only [net, moves, addedMoves, movesFor, movesAt, List.map_append, List.map_map,
    List.map_flatMap, List.map_cons]
  rfl

theorem arcs_net :
    (net model w).arcs = model.arcs ++ (addedMoves model w).flatMap (·.arcs model) := by
  simp only [net, addedMoves, movesFor, List.flatMap_assoc, List.flatMap_cons,
    List.flatMap_map]
  rfl

theorem placeIds_net :
    (net model w).placeIds = model.placeIds ++ (List.range (w.length + 1)).map logPlaceId := by
  simp only [net, Net.placeIds, List.map_map, List.map_append]
  rfl

theorem generatedIds_eq : generatedIds model w =
    (List.range (w.length + 1)).map logPlaceId ++ (addedMoves model w).map (·.id) := by
  simp only [generatedIds, addedMoves, movesFor, movesAt, List.map_flatMap, List.map_cons,
    List.map_map]
  rfl

/-! ## Reading ids -/

theorem log_mem_addedMoves {i : Nat} {label : String} :
    .log i label ∈ addedMoves model w ↔ w[i]? = some label := by
  simp [addedMoves, movesFor, List.mem_zipIdx_iff_getElem?]

theorem sync_mem_addedMoves {i k : Nat} {label : String} {t : Transition} :
    .sync i k label t ∈ addedMoves model w ↔
      w[i]? = some label ∧ (matching model label)[k]? = some t := by
  simp [addedMoves, movesFor, List.mem_zipIdx_iff_getElem?]

theorem own_notMem_addedMoves {t : Transition} : .own t ∉ addedMoves model w := by
  simp [addedMoves, movesFor]

theorem own_mem_moves {t : Transition} : .own t ∈ moves model w ↔ t ∈ model.transitions := by
  simp [moves, own_notMem_addedMoves]

theorem log_mem_moves {i : Nat} {label : String} :
    .log i label ∈ moves model w ↔ w[i]? = some label := by
  simp [moves, log_mem_addedMoves]

theorem sync_mem_moves {i k : Nat} {label : String} {t : Transition} :
    .sync i k label t ∈ moves model w ↔
      w[i]? = some label ∧ (matching model label)[k]? = some t := by
  simp [moves, sync_mem_addedMoves]

theorem mem_moves_of_mem_addedMoves {a : ProductMove} (h : a ∈ addedMoves model w) :
    a ∈ moves model w :=
  List.mem_append_right _ h

/-- No node of the model has the id of an added move. -/
theorem id_notMem_of_mem_addedMoves (h : model.IsModelFor w) {a : ProductMove}
    (ha : a ∈ addedMoves model w) : a.id ∉ model.placeIds ++ model.transitionIds := by
  intro hid
  apply h.fresh a.id hid
  rw [generatedIds_eq]
  apply List.mem_append_right
  exact List.mem_map_of_mem ha

/-- Added moves with the same id are the same. -/
theorem eq_of_id_eq_of_added {a b : ProductMove} (ha : a ∈ addedMoves model w)
    (hb : b ∈ addedMoves model w) (heq : a.id = b.id) : a = b := by
  cases a with
  | own t => exact absurd ha own_notMem_addedMoves
  | log i label =>
    cases b with
    | own t => exact absurd hb own_notMem_addedMoves
    | log j label' =>
      obtain rfl := logMoveId_injective heq
      have hlabel : some label = some label' := by
        calc
          some label = w[i]? := (log_mem_addedMoves.1 ha).symm
          _ = some label' := log_mem_addedMoves.1 hb
      rw [Option.some.inj hlabel]
    | sync j l label' t => exact absurd heq (logMoveId_ne_syncMoveId i j l)
  | sync i k label t =>
    cases b with
    | own t => exact absurd hb own_notMem_addedMoves
    | log j label' => exact absurd heq.symm (logMoveId_ne_syncMoveId j i k)
    | sync j l label' u =>
      obtain ⟨rfl, rfl⟩ := syncMoveId_injective heq
      have ha := sync_mem_addedMoves.1 ha
      have hb := sync_mem_addedMoves.1 hb
      have hlabel : some label = some label' := by
        calc
          some label = w[i]? := ha.1.symm
          _ = some label' := hb.1
      obtain rfl := Option.some.inj hlabel
      have ht : some t = some u := by
        calc
          some t = (matching model label)[k]? := ha.2.symm
          _ = some u := hb.2
      rw [Option.some.inj ht]

/-- Moves with the same id are the same. -/
theorem eq_of_id_eq (h : model.IsModelFor w) {a b : ProductMove} (ha : a ∈ moves model w)
    (hb : b ∈ moves model w) (heq : a.id = b.id) : a = b := by
  have hown (t : Transition) (ht : t ∈ model.transitions) :
      (ProductMove.own t).id ∈ model.placeIds ++ model.transitionIds :=
    List.mem_append_right _ (List.mem_map.2 ⟨t, ht, rfl⟩)
  rcases List.mem_append.1 ha with ha | ha
  · obtain ⟨t, ht, rfl⟩ := List.mem_map.1 ha
    rcases List.mem_append.1 hb with hb | hb
    · obtain ⟨u, hu, rfl⟩ := List.mem_map.1 hb
      have hnodup : model.transitionIds.Nodup := (List.nodup_append.1 h.nodup).2.1
      rw [List.inj_on_of_nodup_map hnodup ht hu heq]
    · exact absurd (heq ▸ hown t ht) (id_notMem_of_mem_addedMoves h hb)
  · rcases List.mem_append.1 hb with hb | hb
    · obtain ⟨u, hu, rfl⟩ := List.mem_map.1 hb
      exact absurd (heq ▸ hown u hu) (id_notMem_of_mem_addedMoves h ha)
    · exact eq_of_id_eq_of_added ha hb heq

theorem move?_id (h : model.IsModelFor w) {a : ProductMove} (ha : a ∈ moves model w) :
    move? model w a.id = some a := by
  cases hfound : move? model w a.id with
  | none =>
    rw [move?, List.find?_eq_none] at hfound
    exact absurd (decide_eq_true rfl) (hfound a ha)
  | some b =>
    have hid := List.find?_some hfound
    rw [decide_eq_true_iff] at hid
    rw [eq_of_id_eq h (List.mem_of_find?_eq_some hfound) ha hid]

theorem position?_id (h : model.IsModelFor w) {a : ProductMove} (ha : a ∈ moves model w) :
    position? model w a.id = a.position? := by
  rw [position?, move?_id h ha, Option.bind_some]

theorem image?_id (h : model.IsModelFor w) {a : ProductMove} (ha : a ∈ moves model w) :
    image? model w a.id = a.image? := by
  rw [image?, move?_id h ha, Option.bind_some]

theorem exists_move_of_mem_transitionIds {id : String}
    (hid : id ∈ (net model w).transitionIds) : ∃ a ∈ moves model w, a.id = id := by
  rw [Net.transitionIds, transitions_net, List.map_map] at hid
  exact List.mem_map.1 hid

/-! ## Arcs of moves -/

theorem nodup_movesFor (position : String × Nat) : (movesFor model position).Nodup := by
  have hzip : (matching model position.1).zipIdx.Nodup :=
    .of_map Prod.snd (List.nodup_zipIdx_map_snd _)
  rw [movesFor, List.nodup_cons]
  refine ⟨by simp, hzip.map ?_⟩
  intro x y hxy
  rw [ProductMove.sync.injEq] at hxy
  exact Prod.ext hxy.2.2.2 hxy.2.1

theorem position?_of_mem_movesFor {position : String × Nat} {a : ProductMove}
    (ha : a ∈ movesFor model position) : a.position? = some position.2 := by
  rcases List.mem_cons.1 ha with rfl | ha
  · rfl
  · obtain ⟨move, -, rfl⟩ := List.mem_map.1 ha
    rfl

theorem nodup_addedMoves : (addedMoves model w).Nodup := by
  rw [addedMoves, List.nodup_flatMap]
  refine ⟨fun position _ ↦ nodup_movesFor position, ?_⟩
  have hpositions : w.zipIdx.Pairwise (·.2 ≠ ·.2) :=
    List.pairwise_map.1 (List.nodup_zipIdx_map_snd w)
  apply hpositions.imp
  intro x y hne a hx hy
  apply hne
  have heq : some x.2 = some y.2 := by
    calc
      some x.2 = a.position? := (position?_of_mem_movesFor hx).symm
      _ = some y.2 := position?_of_mem_movesFor hy
  exact Option.some.inj heq

/-- The part of a concatenation that only one element contributes to. -/
theorem flatMap_eq_of_mem {α β : Type} {f : α → List β} {xs : List α} (hxs : xs.Nodup) {a : α}
    (ha : a ∈ xs) (hf : ∀ b ∈ xs, b ≠ a → f b = []) : xs.flatMap f = f a := by
  obtain ⟨before, after, rfl⟩ := List.append_of_mem ha
  have hnotin : a ∉ before ++ after := (List.nodup_middle.1 hxs).notMem
  simp only [List.mem_append, not_or] at hnotin
  have hbefore : before.flatMap f = [] := by
    rw [List.flatMap_eq_nil_iff]
    exact fun b hb ↦ hf b (by simp [hb]) fun heq ↦ hnotin.1 (heq ▸ hb)
  have hafter : after.flatMap f = [] := by
    rw [List.flatMap_eq_nil_iff]
    exact fun b hb ↦ hf b (by simp [hb]) fun heq ↦ hnotin.2 (heq ▸ hb)
  rw [List.flatMap_append, List.flatMap_cons, hbefore, hafter, List.nil_append, List.append_nil]

end Product

end PetriAlign
