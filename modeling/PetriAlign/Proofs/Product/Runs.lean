import PetriAlign.Proofs.Product.Marking

/-!
# The runs of a product

A product runs as its model does, with the token of the chain beside it. So a sequence of
transitions fires exactly if its log and synchronous moves take the labels in order and its model
moves fire in the model.
-/

namespace PetriAlign

/-- What a move does to the marking of the model. -/
def ProductMove.step? (model : Net) (a : ProductMove) (m : Marking) : Option Marking :=
  match a.image? with
  | none => some m
  | some t => model.step? t.id m

namespace Product

/-- The positions that a sequence of transitions advances over. -/
def positions (model : Net) (w : LabelTrace) (ids : List String) : List Nat :=
  ids.filterMap (position? model w)

/-- The transitions of the model that fire in a sequence of transitions of the product. -/
def projection (model : Net) (w : LabelTrace) (ids : List String) : List String :=
  (ids.filterMap (image? model w)).map (·.id)

/-- What the id of a transition of the product tells: its kind, the position that it advances over
and the transition of the model that it fires. -/
inductive ReadsAs (model : Net) (w : LabelTrace) :
    String → TransitionKind → Option Nat → Option Transition → Prop
  | log {i : Nat} {label : String} : w[i]? = some label →
    ReadsAs model w (logMoveId i) .log (some i) none
  | sync {i k : Nat} {label : String} {t : Transition} : w[i]? = some label →
    (matching model label)[k]? = some t → ReadsAs model w (syncMoveId i k) .sync (some i) (some t)
  | own {t : Transition} : t ∈ model.transitions → ReadsAs model w t.id t.kind none (some t)

variable {model : Net} {w : LabelTrace} {m m' : Marking}

theorem positions_append (ids ids' : List String) :
    positions model w (ids ++ ids') = positions model w ids ++ positions model w ids' :=
  List.filterMap_append

theorem projection_append (ids ids' : List String) :
    projection model w (ids ++ ids') = projection model w ids ++ projection model w ids' := by
  rw [projection, List.filterMap_append, List.map_append]
  rfl

/-! ## One step -/

section Step

variable (h : model.IsModelFor w) {t : Transition} (ht : t ∈ model.transitions) {i : Nat}
  (hi : i ≤ w.length)

include h ht hi

theorem logPlaceId_notMem_preset : logPlaceId i ∉ model.preset t.id := by
  intro hmem
  have hid : t.id ∈ model.transitionIds := List.mem_map_of_mem ht
  exact ne_logPlaceId h (Net.mem_placeIds_of_mem_preset (wellJoined_model h) hid hmem) hi rfl

theorem logPlaceId_notMem_postset : logPlaceId i ∉ model.postset t.id := by
  intro hmem
  have hid : t.id ∈ model.transitionIds := List.mem_map_of_mem ht
  exact ne_logPlaceId h (Net.mem_placeIds_of_mem_postset (wellJoined_model h) hid hmem) hi rfl

end Step

theorem logFree_step? (h : model.IsModelFor w) {a : ProductMove} (ha : a ∈ moves model w)
    (hm : LogFree w m) (hstep : a.step? model m = some m') : LogFree w m' := by
  unfold ProductMove.step? at hstep
  split at hstep
  case h_1 =>
    obtain rfl := Option.some.inj hstep
    exact hm
  case h_2 t ht =>
    intro i hi
    rw [Net.step?_eq] at hstep
    have hmem := image_mem ha ht
    rw [Marking.get?_fire? (logPlaceId_notMem_preset h hmem hi)
      (logPlaceId_notMem_postset h hmem hi) hstep, hm i hi]

/-- A move of the model leaves the token of the chain where it is. -/
theorem step?_own (h : model.IsModelFor w) {a : ProductMove} (ha : a ∈ moves model w)
    (hpos : a.position? = none) {c : Nat} (hc : c ≤ w.length) :
    (net model w).step? a.id (withToken m c) = (a.step? model m).map (withToken · c) := by
  rw [Net.step?_eq, preset_net h ha, postset_net h ha]
  cases a with
  | log i label => simp [ProductMove.position?] at hpos
  | sync i k label t => simp [ProductMove.position?] at hpos
  | own t =>
    have ht := own_mem_moves.1 ha
    exact Marking.fire?_insert (logPlaceId_notMem_preset h ht hc)
      (logPlaceId_notMem_postset h ht hc) 1

/-- A move at the position of the token takes it to the next place. -/
theorem step?_at (h : model.IsModelFor w) {a : ProductMove} (ha : a ∈ moves model w) {c : Nat}
    (hpos : a.position? = some c) (hm : LogFree w m) :
    (net model w).step? a.id (withToken m c) = (a.step? model m).map (withToken · (c + 1)) := by
  have hc := position_lt ha hpos
  rw [Net.step?_eq, preset_net h ha, postset_net h ha]
  cases a with
  | own t => simp [ProductMove.position?] at hpos
  | log i label =>
    obtain rfl := Option.some.inj hpos
    have hchain : Marking.fire? ([] ++ [logPlaceId i]) ([] ++ [logPlaceId (i + 1)])
        (m.insert (logPlaceId i) 1) = (m.fire? [] []).map (·.insert (logPlaceId (i + 1)) 1) :=
      Marking.fire?_chain (hm i hc.le) (hm (i + 1) hc) List.not_mem_nil List.not_mem_nil
        List.not_mem_nil
    exact hchain
  | sync i k label t =>
    obtain rfl := Option.some.inj hpos
    have ht := image_mem ha rfl
    exact Marking.fire?_chain (hm i hc.le) (hm (i + 1) hc) (logPlaceId_notMem_preset h ht hc.le)
      (logPlaceId_notMem_preset h ht hc) (logPlaceId_notMem_postset h ht hc)

/-- A move at another position does not fire. -/
theorem step?_elsewhere (h : model.IsModelFor w) {a : ProductMove} (ha : a ∈ moves model w)
    {i c : Nat} (hpos : a.position? = some i) (hne : i ≠ c) (hm : LogFree w m) :
    (net model w).step? a.id (withToken m c) = none := by
  have hi := position_lt ha hpos
  have hnone : (withToken m c).get? (logPlaceId i) = none := by
    rw [get?_withToken fun heq ↦ hne (logPlaceId_injective heq), hm i hi.le]
  have hinput : logPlaceId i ∈ a.inputs model := by
    cases a with
    | own t => simp [ProductMove.position?] at hpos
    | log j label =>
      obtain rfl := Option.some.inj hpos
      exact List.mem_singleton_self _
    | sync j k label t =>
      obtain rfl := Option.some.inj hpos
      exact List.mem_append_right _ (List.mem_singleton_self _)
  rw [Net.step?_eq, preset_net h ha]
  exact Marking.fire?_of_none hnone hinput

/-! ## Whole runs -/

theorem run?_projection_cons (h : model.IsModelFor w) {a : ProductMove} (ha : a ∈ moves model w)
    (ids : List String) :
    model.run? m (projection model w (a.id :: ids)) =
      (a.step? model m).bind (model.run? · (projection model w ids)) := by
  unfold projection ProductMove.step?
  rw [List.filterMap_cons, image?_id h ha]
  cases a.image? <;> rfl

theorem positions_cons (h : model.IsModelFor w) {a : ProductMove} (ha : a ∈ moves model w)
    (ids : List String) :
    positions model w (a.id :: ids) = a.position?.toList ++ positions model w ids := by
  unfold positions
  rw [List.filterMap_cons, position?_id h ha]
  cases a.position? <;> rfl

/-- A sequence of transitions fires from a token at `c` exactly if its positions count up from
there and its projection fires in the model. -/
theorem run?_withToken (h : model.IsModelFor w) {ids : List String}
    (hids : ∀ id ∈ ids, id ∈ (net model w).transitionIds) {c : Nat} (hc : c ≤ w.length)
    (hm : LogFree w m) :
    (net model w).run? (withToken m c) ids = some m' ↔
      positions model w ids = List.range' c (positions model w ids).length ∧
      ∃ after, model.run? m (projection model w ids) = some after ∧
        withToken after (c + (positions model w ids).length) = m' := by
  induction ids generalizing c m with
  | nil => simp [positions, projection, Net.run?]
  | cons id ids ih =>
    obtain ⟨a, ha, rfl⟩ := exists_move_of_mem_transitionIds (hids id List.mem_cons_self)
    have hrest (id : String) (hid : id ∈ ids) : id ∈ (net model w).transitionIds :=
      hids id (List.mem_cons_of_mem _ hid)
    rw [Net.run?_cons, positions_cons h ha, run?_projection_cons h ha]
    cases hpos : a.position? with
    | none =>
      rw [step?_own h ha hpos hc, Option.toList_none, List.nil_append]
      cases hstep : a.step? model m with
      | none => simp
      | some next => exact ih hrest hc (logFree_step? h ha hm hstep)
    | some i =>
      rw [Option.toList_some, List.singleton_append, List.length_cons, List.range'_succ,
        List.cons.injEq]
      by_cases hic : i = c
      · subst hic
        rw [step?_at h ha hpos hm]
        cases hstep : a.step? model m with
        | none => simp
        | some next =>
          have hrun := ih hrest (c := i + 1) (position_lt ha hpos) (logFree_step? h ha hm hstep)
          have hlength : i + ((positions model w ids).length + 1) =
              i + 1 + (positions model w ids).length := by
            omega
          rw [hlength, and_iff_right rfl]
          exact hrun
      · rw [step?_elsewhere h ha hpos hic hm]
        constructor
        · intro hnone
          cases hnone
        · intro heq
          exact absurd heq.1.1 hic

theorem logFree_run? (h : model.IsModelFor w) {ids : List String}
    (hids : ∀ id ∈ ids, id ∈ (net model w).transitionIds) (hm : LogFree w m)
    (hrun : model.run? m (projection model w ids) = some m') : LogFree w m' := by
  induction ids generalizing m with
  | nil =>
    obtain rfl := Option.some.inj hrun
    exact hm
  | cons id ids ih =>
    obtain ⟨a, ha, rfl⟩ := exists_move_of_mem_transitionIds (hids id List.mem_cons_self)
    rw [run?_projection_cons h ha, Option.bind_eq_some_iff] at hrun
    obtain ⟨next, hstep, hrest⟩ := hrun
    exact ih (fun id hid ↦ hids id (List.mem_cons_of_mem _ hid)) (logFree_step? h ha hm hstep) hrest

/-- The positions of transitions of the product lie in the trace. -/
theorem length_positions_le (h : model.IsModelFor w) {ids : List String}
    (hids : ∀ id ∈ ids, id ∈ (net model w).transitionIds)
    (hpos : positions model w ids = List.range (positions model w ids).length) :
    (positions model w ids).length ≤ w.length := by
  by_contra hlt
  have hmem : w.length ∈ positions model w ids := by
    rw [hpos, List.mem_range]
    omega
  obtain ⟨id, hid, hlast⟩ := List.mem_filterMap.1 hmem
  obtain ⟨a, ha, rfl⟩ := exists_move_of_mem_transitionIds (hids id hid)
  rw [position?_id h ha] at hlast
  exact absurd (position_lt ha hlast) (lt_irrefl _)

/-! ## From the initial marking -/

theorem readsAs_id {a : ProductMove} (ha : a ∈ moves model w) :
    ReadsAs model w a.id a.transition.kind a.position? a.image? := by
  cases a with
  | own t => exact .own (own_mem_moves.1 ha)
  | log i label => exact .log (log_mem_moves.1 ha)
  | sync i k label t => exact .sync (sync_mem_moves.1 ha).1 (sync_mem_moves.1 ha).2

theorem exists_move_of_readsAs {id : String} {kind : TransitionKind} {position : Option Nat}
    {image : Option Transition} (hid : ReadsAs model w id kind position image) :
    ∃ a ∈ moves model w, a.id = id ∧ a.transition.kind = kind ∧ a.position? = position ∧
      a.image? = image := by
  cases hid with
  | own ht => exact ⟨.own _, own_mem_moves.2 ht, rfl, rfl, rfl, rfl⟩
  | log hi => exact ⟨.log _ _, log_mem_moves.2 hi, rfl, rfl, rfl, rfl⟩
  | sync hi ht => exact ⟨.sync _ _ _ _, sync_mem_moves.2 ⟨hi, ht⟩, rfl, rfl, rfl, rfl⟩

/-- The transitions of the product are the ones that read as a move. -/
theorem readsAs_iff (h : model.IsModelFor w) {id : String} {kind : TransitionKind}
    {position : Option Nat} {image : Option Transition} :
    ReadsAs model w id kind position image ↔
      (∃ t ∈ (net model w).transitions, t.id = id ∧ t.kind = kind) ∧
        position? model w id = position ∧ image? model w id = image := by
  constructor
  · intro hid
    obtain ⟨a, ha, rfl, rfl, rfl, rfl⟩ := exists_move_of_readsAs hid
    refine ⟨⟨a.transition, ?_, rfl, rfl⟩, position?_id h ha, image?_id h ha⟩
    rw [transitions_net]
    exact List.mem_map_of_mem ha
  · intro hid
    obtain ⟨⟨t, ht, rfl, rfl⟩, rfl, rfl⟩ := hid
    rw [transitions_net] at ht
    obtain ⟨a, ha, rfl⟩ := List.mem_map.1 ht
    have hread := readsAs_id ha
    rw [← position?_id h ha, ← image?_id h ha] at hread
    exact hread

theorem run?_initialMarking (h : model.IsModelFor w) {ids : List String}
    (hids : ∀ id ∈ ids, id ∈ (net model w).transitionIds) :
    (net model w).run? (net model w).initialMarking ids = some m' ↔
      positions model w ids = List.range (positions model w ids).length ∧
      ∃ after, model.run? model.initialMarking (projection model w ids) = some after ∧
        withToken after (positions model w ids).length = m' := by
  rw [initialMarking_net, run?_withToken h hids (Nat.zero_le _) (logFree_initialMarking h),
    List.range_eq_range', Nat.zero_add]

theorem reads_own (h : model.IsModelFor w) {id : String} (hid : id ∈ model.transitionIds) :
    id ∈ (net model w).transitionIds ∧ position? model w id = none ∧
      (image? model w id).map (·.id) = some id := by
  obtain ⟨t, ht, rfl⟩ := List.mem_map.1 hid
  have hown := own_mem_moves (w := w).2 ht
  refine ⟨mem_transitionIds_of_mem_moves hown, position?_id h hown, ?_⟩
  exact congrArg (Option.map (·.id)) (image?_id h hown)

theorem reads_log (h : model.IsModelFor w) {i : Nat} (hi : i < w.length) :
    logMoveId i ∈ (net model w).transitionIds ∧ position? model w (logMoveId i) = some i ∧
      image? model w (logMoveId i) = none := by
  have hlog : .log i w[i] ∈ moves model w :=
    log_mem_moves.2 (List.getElem?_eq_getElem hi)
  exact ⟨mem_transitionIds_of_mem_moves hlog, position?_id h hlog, image?_id h hlog⟩

/-- A run of the model and then all log moves, as transitions of the product. -/
theorem exists_projection_eq (h : model.IsModelFor w) {ids : List String}
    (hids : ∀ id ∈ ids, id ∈ model.transitionIds) :
    ∃ ids', (∀ id ∈ ids', id ∈ (net model w).transitionIds) ∧
      positions model w ids' = List.range w.length ∧ projection model w ids' = ids := by
  have hlog (i : Nat) (hi : i ∈ List.range w.length) := reads_log h (List.mem_range.1 hi)
  have hpos : positions model w ids = [] :=
    List.filterMap_eq_nil_iff.2 fun id hid ↦ (reads_own h (hids id hid)).2.1
  have hproj : projection model w ids = ids := by
    unfold projection
    rw [List.map_filterMap, List.filterMap_congr fun id hid ↦ (reads_own h (hids id hid)).2.2,
      List.filterMap_some]
  have hposLog : positions model w ((List.range w.length).map logMoveId) = List.range w.length := by
    calc
      positions model w ((List.range w.length).map logMoveId) =
          (List.range w.length).filterMap (position? model w ∘ logMoveId) := List.filterMap_map
      _ = (List.range w.length).filterMap some :=
        List.filterMap_congr fun i hi ↦ (hlog i hi).2.1
      _ = List.range w.length := List.filterMap_some
  have hprojLog : projection model w ((List.range w.length).map logMoveId) = [] := by
    unfold projection
    rw [List.filterMap_map]
    exact congrArg (List.map _) (List.filterMap_eq_nil_iff.2 fun i hi ↦ (hlog i hi).2.2)
  refine ⟨ids ++ (List.range w.length).map logMoveId, ?_, ?_, ?_⟩
  · rw [List.forall_mem_append, List.forall_mem_map]
    exact ⟨fun id hid ↦ (reads_own h (hids id hid)).1, fun i hi ↦ (hlog i hi).1⟩
  · rw [positions_append, hpos, hposLog, List.nil_append]
  · rw [projection_append, hproj, hprojLog, List.append_nil]

theorem projection_mem (h : model.IsModelFor w) {ids : List String}
    (hids : ∀ id ∈ ids, id ∈ (net model w).transitionIds) :
    ∀ id ∈ projection model w ids, id ∈ model.transitionIds := by
  intro id hid
  obtain ⟨t, ht, rfl⟩ := List.mem_map.1 hid
  obtain ⟨id, hid, himage⟩ := List.mem_filterMap.1 ht
  obtain ⟨a, ha, rfl⟩ := exists_move_of_mem_transitionIds (hids id hid)
  rw [image?_id h ha] at himage
  exact List.mem_map_of_mem (image_mem ha himage)

/-- What a run of the product reaches, beside what its projection reaches in the model. -/
theorem run?_reaches (h : model.IsModelFor w) {ids : List String}
    (hids : ∀ id ∈ ids, id ∈ (net model w).transitionIds)
    (hrun : (net model w).run? (net model w).initialMarking ids = some m) :
    ∃ after, model.run? model.initialMarking (projection model w ids) = some after ∧
      (positions model w ids).length ≤ w.length ∧
      TokenAt w (positions model w ids).length m ∧
      m.erase (logPlaceId (positions model w ids).length) = after ∧
      ((model.product w).constraint.Holds m ↔
        (positions model w ids).length = w.length ∧ model.IsFinal after) := by
  obtain ⟨hpos, after, hafter, rfl⟩ := (run?_initialMarking h hids).1 hrun
  have hle := length_positions_le h hids hpos
  have hfree := logFree_run? h hids (logFree_initialMarking h) hafter
  have htoken := tokenAt_withToken hfree (positions model w ids).length
  refine ⟨after, hafter, hle, htoken, Table.erase_insert_self (hfree _ hle) 1, ?_⟩
  rw [holds_constraint_iff hle htoken, isFinal_withToken h hle]

/-- The marking that the constraint asks for is reachable exactly if the final marking of the model
is. -/
theorem exists_run?_holds_iff (h : model.IsModelFor w) :
    (∃ ids m, (∀ id ∈ ids, id ∈ (net model w).transitionIds) ∧
      (net model w).run? (net model w).initialMarking ids = some m ∧
      (model.product w).constraint.Holds m) ↔
    ∃ ids m, (∀ id ∈ ids, id ∈ model.transitionIds) ∧
      model.run? model.initialMarking ids = some m ∧ model.IsFinal m := by
  constructor
  · intro hreach
    obtain ⟨ids, m, hids, hrun, hholds⟩ := hreach
    obtain ⟨after, hafter, -, -, -, hfinal⟩ := run?_reaches h hids hrun
    exact ⟨_, after, projection_mem h hids, hafter, (hfinal.1 hholds).2⟩
  · intro hreach
    obtain ⟨ids, after, hids, hrun, hfinal⟩ := hreach
    obtain ⟨ids', hids', hpos, hproj⟩ := exists_projection_eq h hids
    have hlength : (positions model w ids').length = w.length := by
      rw [hpos, List.length_range]
    have hfree : LogFree w after := by
      apply logFree_run? h hids' (logFree_initialMarking h)
      rw [hproj, hrun]
    refine ⟨ids', withToken after w.length, hids', ?_, ?_⟩
    · rw [run?_initialMarking h hids', hlength, hproj]
      exact ⟨hpos, after, hrun, rfl⟩
    · rw [holds_constraint_iff le_rfl (tokenAt_withToken hfree _), isFinal_withToken h le_rfl]
      exact ⟨rfl, hfinal⟩

/-- The runs of a product are the alignments of its trace: a sequence of its transitions fires
exactly if the log and synchronous moves take the positions in order and the rest fires in the
model. It leaves the marking of the model with the token after the labels that were taken, which is
what the constraint asks for if these are all labels and the model is at its final marking. -/
theorem run?_product (h : model.IsModelFor w) :
    (∀ id kind position image, ReadsAs model w id kind position image ↔
      (∃ t ∈ (model.product w).net.transitions, t.id = id ∧ t.kind = kind) ∧
        position? model w id = position ∧ image? model w id = image) ∧
    (∀ ids, (∀ id ∈ ids, id ∈ (model.product w).net.transitionIds) →
      (((model.product w).net.run? (model.product w).net.initialMarking ids).isSome ↔
        positions model w ids = List.range (positions model w ids).length ∧
        (model.run? model.initialMarking (projection model w ids)).isSome) ∧
      ∀ m, (model.product w).net.run? (model.product w).net.initialMarking ids = some m →
        ∃ after, model.run? model.initialMarking (projection model w ids) = some after ∧
          (positions model w ids).length ≤ w.length ∧
          TokenAt w (positions model w ids).length m ∧
          m.erase (logPlaceId (positions model w ids).length) = after ∧
          ((model.product w).constraint.Holds m ↔
            (positions model w ids).length = w.length ∧ model.IsFinal after)) ∧
    ((∃ ids m, (∀ id ∈ ids, id ∈ (model.product w).net.transitionIds) ∧
        (model.product w).net.run? (model.product w).net.initialMarking ids = some m ∧
        (model.product w).constraint.Holds m) ↔
      ∃ ids m, (∀ id ∈ ids, id ∈ model.transitionIds) ∧
        model.run? model.initialMarking ids = some m ∧ model.IsFinal m) := by
  refine ⟨fun id kind position image ↦ readsAs_iff h, ?_, exists_run?_holds_iff h⟩
  intro ids hids
  refine ⟨?_, fun m hrun ↦ run?_reaches h hids hrun⟩
  rw [Option.isSome_iff_exists, Option.isSome_iff_exists]
  constructor
  · intro hfires
    obtain ⟨m, hrun⟩ := hfires
    obtain ⟨hpos, after, hafter, -⟩ := (run?_initialMarking h hids).1 hrun
    exact ⟨hpos, after, hafter⟩
  · intro hfires
    obtain ⟨hpos, after, hafter⟩ := hfires
    exact ⟨_, (run?_initialMarking h hids).2 ⟨hpos, after, hafter, rfl⟩⟩

/-- A silent check and a payment that the log shares are a run of the product. -/
theorem run?_product_payment : payment.IsModelFor ["pay"] ∧
    ((payment.product ["pay"]).net.run? (payment.product ["pay"]).net.initialMarking
      ["check", "logs0n0"]).isSome := by
  refine ⟨payment_isModelFor, ?_⟩
  have hids : ∀ id ∈ ["check", "logs0n0"], id ∈ (payment.product ["pay"]).net.transitionIds := by
    decide +kernel
  rw [((run?_product payment_isModelFor).2.1 ["check", "logs0n0"] hids).1]
  decide +kernel

end Product

end PetriAlign
