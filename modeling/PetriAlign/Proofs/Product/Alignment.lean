import PetriAlign.Proofs.Product.Runs
import PetriAlign.Proofs.Replay.Exactness

/-!
# Replays on a product

A snapshot trace that is accepted on a product splits into its two sides. The log sides of its moves
are the labels of the trace from the first one on, and the other moves are a run of the model
between the markings that the snapshots have on its places.
-/

namespace PetriAlign

/-- The label that the log has on its side. -/
def ProductMove.label? : ProductMove → Option String
  | log _ label => some label
  | sync _ _ label _ => some label
  | own _ => none

namespace Product

/-- The log sides of the log and synchronous steps. -/
def logSide (pairs : List (Step × Move)) : List String :=
  pairs.filterMap fun pair ↦
    if pair.1.kind = .move .log ∨ pair.1.kind = .move .sync then some pair.2.log else none

/-- The transitions of the model behind all steps but log moves, each with the model part of the
marking after the step. The steps are numbered from `s`. -/
def modelSide (model : Net) (w : LabelTrace) (marking : Nat → Marking) (s : Nat)
    (pairs : List (Step × Move)) : List (Transition × Marking) :=
  (pairs.zipIdx s).filterMap fun (pair, s) ↦
    if pair.1.kind = .move .log then none
    else (image? model w pair.2.transition).map fun t ↦ (t, model.part (marking (s + 1)))

variable {model : Net} {w : LabelTrace} {m m' : Marking}

/-! ## One move -/

theorem count_logPlaceId (i j : Nat) :
    [logPlaceId i].count (logPlaceId j) = if i = j then 1 else 0 := by
  rw [List.count_singleton, beq_eq_decide]
  simp only [decide_eq_true_eq]
  exact if_congr ⟨logPlaceId_injective, congrArg _⟩ rfl rfl

theorem count_logPlaceId_model (h : model.IsModelFor w) {p : String} (hp : p ∈ model.placeIds)
    {i : Nat} (hi : i ≤ w.length) : [logPlaceId i].count p = 0 := by
  rw [List.count_eq_zero, List.mem_singleton]
  exact ne_logPlaceId h hp hi

section Move

variable (h : model.IsModelFor w) {a : ProductMove} (ha : a ∈ moves model w)

include h ha

theorem arcCount_to_move (p : String) :
    (net model w).arcCount p a.transition.id = (a.inputs model).count p := by
  rw [← Net.count_preset, ← preset_net h ha]
  rfl

theorem arcCount_from_move (p : String) :
    (net model w).arcCount a.transition.id p = (a.outputs model).count p := by
  rw [← Net.count_postset, ← postset_net h ha]
  rfl

theorem count_inputs_logPlaceId {j : Nat} (hj : j ≤ w.length) :
    (a.inputs model).count (logPlaceId j) = if a.position? = some j then 1 else 0 := by
  have hown (t : Transition) (ht : t ∈ model.transitions) :
      (model.preset t.id).count (logPlaceId j) = 0 :=
    List.count_eq_zero.2 (logPlaceId_notMem_preset h ht hj)
  cases a with
  | log i label => simp [ProductMove.inputs, ProductMove.position?, count_logPlaceId]
  | sync i k label t =>
    simp [ProductMove.inputs, ProductMove.position?, count_logPlaceId, hown t (image_mem ha rfl)]
  | own t => simp [ProductMove.inputs, ProductMove.position?, hown t (image_mem ha rfl)]

theorem count_outputs_logPlaceId {j : Nat} (hj : j ≤ w.length) :
    (a.outputs model).count (logPlaceId j) = if a.position?.map (· + 1) = some j then 1 else 0 := by
  have hown (t : Transition) (ht : t ∈ model.transitions) :
      (model.postset t.id).count (logPlaceId j) = 0 :=
    List.count_eq_zero.2 (logPlaceId_notMem_postset h ht hj)
  cases a with
  | log i label => simp [ProductMove.outputs, ProductMove.position?, count_logPlaceId]
  | sync i k label t =>
    simp [ProductMove.outputs, ProductMove.position?, count_logPlaceId, hown t (image_mem ha rfl)]
  | own t => simp [ProductMove.outputs, ProductMove.position?, hown t (image_mem ha rfl)]

/-- A move at a position needs the token there and takes it to the next place. -/
theorem tokenAt_takes {c : Nat} (hm : TokenAt w c m)
    (htakes : (net model w).Takes a.transition m m') {i : Nat} (hpos : a.position? = some i) :
    i = c ∧ TokenAt w (c + 1) m' := by
  have hi := position_lt ha hpos
  have hcount (j : Nat) (hj : j ≤ w.length) := htakes (logPlaceId j) (logPlaceId_mem_placeIds hj)
  simp only [arcCount_to_move h ha, arcCount_from_move h ha] at hcount
  have hic : i = c := by
    have hneeds := (hcount i hi.le).1
    rw [count_inputs_logPlaceId h ha hi.le, if_pos hpos, hm i hi.le] at hneeds
    by_contra hne
    rw [if_neg hne] at hneeds
    exact absurd hneeds (by decide)
  refine ⟨hic, fun j hj ↦ ?_⟩
  subst hic
  have hleaves := (hcount j hj).2.2
  rw [count_inputs_logPlaceId h ha hj, count_outputs_logPlaceId h ha hj, hm j hj, hpos] at hleaves
  rw [← UInt64.toNat_inj, hleaves]
  simp only [Option.map_some, Option.some_inj, eq_comm (a := i), eq_comm (a := i + 1)]
  by_cases hji : j = i
  · simp [hji]
  · by_cases hjs : j = i + 1 <;> simp [hji, hjs]

/-- A move of the model alone leaves the chain as it is. -/
theorem tokenAt_takes_own {c : Nat} (hm : TokenAt w c m)
    (htakes : (net model w).Takes a.transition m m') (hpos : a.position? = none) :
    TokenAt w c m' := by
  intro j hj
  have hleaves := (htakes (logPlaceId j) (logPlaceId_mem_placeIds hj)).2.2
  rw [arcCount_to_move h ha, arcCount_from_move h ha, count_inputs_logPlaceId h ha hj,
    count_outputs_logPlaceId h ha hj, hpos] at hleaves
  rw [← hm j hj, ← UInt64.toNat_inj, hleaves]
  simp

theorem count_inputs_model {p : String} (hp : p ∈ model.placeIds) :
    (a.inputs model).count p = (a.image?.map fun t ↦ model.arcCount p t.id).getD 0 := by
  have hlog {i : Nat} (hi : i ≤ w.length) := count_logPlaceId_model h hp hi
  cases a with
  | log i label => exact hlog (position_lt ha rfl).le
  | sync i k label t =>
    simp [ProductMove.inputs, ProductMove.image?, Net.count_preset, hlog (position_lt ha rfl).le]
  | own t => simp [ProductMove.inputs, ProductMove.image?, Net.count_preset]

theorem count_outputs_model {p : String} (hp : p ∈ model.placeIds) :
    (a.outputs model).count p = (a.image?.map fun t ↦ model.arcCount t.id p).getD 0 := by
  have hlog {i : Nat} (hi : i ≤ w.length) := count_logPlaceId_model h hp hi
  cases a with
  | log i label => exact hlog (position_lt (i := i) ha rfl)
  | sync i k label t =>
    simp [ProductMove.outputs, ProductMove.image?, Net.count_postset,
      hlog (i := i + 1) (position_lt ha rfl)]
  | own t => simp [ProductMove.outputs, ProductMove.image?, Net.count_postset]

/-- On the places of the model a move does what its image does. -/
theorem takes_image {t : Transition} (himage : a.image? = some t)
    (htakes : (net model w).Takes a.transition m m') : model.Takes t m m' := by
  intro p hp
  have htakes := htakes p (mem_placeIds_of_mem_model hp)
  rw [arcCount_to_move h ha, arcCount_from_move h ha, count_inputs_model h ha hp,
    count_outputs_model h ha hp, himage] at htakes
  exact htakes

/-- A log move leaves the places of the model as they are. -/
theorem agree_takes (himage : a.image? = none)
    (htakes : (net model w).Takes a.transition m m') : model.Agree m m' := by
  intro p hp
  have hleaves := (htakes p (mem_placeIds_of_mem_model hp)).2.2
  rw [arcCount_to_move h ha, arcCount_from_move h ha, count_inputs_model h ha hp,
    count_outputs_model h ha hp, himage] at hleaves
  rw [← UInt64.toNat_inj, hleaves]
  rfl

end Move

/-- The log side of a move at a position is the label there. -/
theorem getElem?_position {a : ProductMove} (ha : a ∈ moves model w) {i : Nat}
    (hi : a.position? = some i) : w[i]? = some (Move.ofTransition a.transition).log := by
  cases a with
  | own t => cases hi
  | log j label =>
    obtain rfl := Option.some.inj hi
    exact log_mem_moves.1 ha
  | sync j k label t =>
    obtain rfl := Option.some.inj hi
    exact (sync_mem_moves.1 ha).1

theorem image?_of_kind_log (h : model.IsModelFor w) {a : ProductMove} (ha : a ∈ moves model w)
    (hkind : a.transition.kind = .log) : a.image? = none := by
  cases a with
  | log i label => rfl
  | sync i k label t => cases hkind
  | own t =>
    have ht : t.kind = .log := hkind
    rcases h.transition_kind t (own_mem_moves.1 ha) with hmodel | htau
    · rw [hmodel] at ht
      cases ht
    · rw [htau] at ht
      cases ht

/-! ## All moves -/

/-- Each step is paired with the move of a transition of its kind that takes the marking before it
to the one after it. The steps are numbered from `s`. -/
def Explains (model : Net) (w : LabelTrace) (marking : Nat → Marking) (s : Nat)
    (pairs : List (Step × Move)) : Prop :=
  ∀ (r : Nat) pair, pairs[r]? = some pair → ∃ a ∈ moves model w,
    pair.1.kind = .move a.transition.kind ∧ pair.2 = Move.ofTransition a.transition ∧
    (net model w).Takes a.transition (marking (s + r)) (marking (s + r + 1))

section Pairs

variable {a : ProductMove} {pair : Step × Move} (hkind : pair.1.kind = .move a.transition.kind)
  (hmove : pair.2 = Move.ofTransition a.transition)

include hkind hmove

theorem logSide_cons (h : model.IsModelFor w) (ha : a ∈ moves model w)
    (pairs : List (Step × Move)) : logSide (pair :: pairs) = a.label?.toList ++ logSide pairs := by
  unfold logSide
  rw [List.filterMap_cons, hkind, hmove]
  cases a with
  | log i label => rfl
  | sync i k label t => rfl
  | own t =>
    rcases h.transition_kind t (own_mem_moves.1 ha) with ht | ht <;>
      simp [ProductMove.transition, ProductMove.label?, relabel, ht]

theorem modelSide_cons (h : model.IsModelFor w) (ha : a ∈ moves model w)
    (marking : Nat → Marking) (s : Nat) (pairs : List (Step × Move)) :
    modelSide model w marking s (pair :: pairs) =
      (a.image?.map fun t ↦ (t, model.part (marking (s + 1)))).toList ++
        modelSide model w marking (s + 1) pairs := by
  have hid : pair.2.transition = a.id := by
    rw [hmove, Move.transition_ofTransition]
    rfl
  unfold modelSide
  rw [List.zipIdx_cons, List.filterMap_cons]
  dsimp only
  rw [hid, image?_id h ha, hkind]
  cases a with
  | log i label => rfl
  | sync i k label t => rfl
  | own t =>
    rcases h.transition_kind t (own_mem_moves.1 ha) with ht | ht <;>
      simp [ProductMove.transition, ProductMove.image?, relabel, ht]

end Pairs

/-- A move takes the label at the token, if it takes one, and moves the token behind it. -/
theorem exists_tokenAt (h : model.IsModelFor w) {a : ProductMove} (ha : a ∈ moves model w) {c : Nat}
    (hc : c ≤ w.length) (hm : TokenAt w c m) (htakes : (net model w).Takes a.transition m m') :
    ∃ c' ≤ w.length, TokenAt w c' m' ∧ w.drop c = a.label?.toList ++ w.drop c' := by
  cases hpos : a.position? with
  | none =>
    refine ⟨c, hc, tokenAt_takes_own h ha hm htakes hpos, ?_⟩
    cases a with
    | own t => rfl
    | log i label => cases hpos
    | sync i k label t => cases hpos
  | some i =>
    obtain ⟨rfl, htoken⟩ := tokenAt_takes h ha hm htakes hpos
    have hi := position_lt ha hpos
    refine ⟨i + 1, hi, htoken, ?_⟩
    have hlabel : a.label? = some w[i] := by
      rw [← List.getElem?_eq_getElem hi, getElem?_position ha hpos]
      cases a with
      | own t => cases hpos
      | log j label => rfl
      | sync j k label t => rfl
    rw [hlabel, List.drop_eq_getElem_cons hi]
    rfl

/-- A move in front of a run of the model makes a run of the model. -/
theorem run_takes (h : model.IsModelFor w) {a : ProductMove} (ha : a ∈ moves model w)
    (htakes : (net model w).Takes a.transition m m') {run : List (Transition × Marking)}
    {last : Marking} (hrun : model.Run (model.part m') run last) :
    model.Run (model.part m) ((a.image?.map fun t ↦ (t, model.part m')).toList ++ run) last := by
  have hnodup := (wellJoined_model h).places_nodup
  cases himage : a.image? with
  | none =>
    rw [Net.part_congr (agree_takes h ha himage htakes)]
    exact hrun
  | some t =>
    have ht := takes_image h ha himage htakes
    rw [← Net.takes_congr (Net.agree_part hnodup m) (Net.agree_part hnodup m')] at ht
    exact .cons (image_mem ha himage) ht hrun

/-- Moves from a token at `c` on take the labels from `c` on, and are a run of the model. -/
theorem sides_of_explains (h : model.IsModelFor w) {marking : Nat → Marking} {s c : Nat}
    {pairs : List (Step × Move)} (hpairs : Explains model w marking s pairs) (hc : c ≤ w.length)
    (htoken : TokenAt w c (marking s)) :
    ∃ c' ≤ w.length, TokenAt w c' (marking (s + pairs.length)) ∧
      w.drop c = logSide pairs ++ w.drop c' ∧
      model.Run (model.part (marking s)) (modelSide model w marking s pairs)
        (model.part (marking (s + pairs.length))) := by
  induction pairs generalizing s c with
  | nil => exact ⟨c, hc, htoken, rfl, .nil _⟩
  | cons pair pairs ih =>
    obtain ⟨a, ha, hkind, hmove, htakes⟩ := hpairs 0 pair rfl
    have hrest : Explains model w marking (s + 1) pairs := by
      intro r next hr
      have hnext := hpairs (r + 1) next hr
      rwa [← Nat.add_assoc, Nat.add_right_comm] at hnext
    obtain ⟨c₁, hc₁, htoken₁, hdrop₁⟩ := exists_tokenAt h ha hc htoken htakes
    obtain ⟨c', hc', htoken', hdrop', hrun⟩ := ih hrest hc₁ htoken₁
    have hlength : s + (pair :: pairs).length = s + 1 + pairs.length := by
      rw [List.length_cons]
      omega
    rw [hlength, logSide_cons hkind hmove h ha, modelSide_cons hkind hmove h ha]
    refine ⟨c', hc', htoken', ?_, run_takes h ha htakes hrun⟩
    rw [hdrop₁, hdrop', List.append_assoc]

/-! ## Accepted replays -/

section Replay

variable {trace : SnapshotTrace} {outcome : ReplayOutcome}

theorem tokenAt_zero
    (hstart : ∀ p ∈ (net model w).places, p.kind = .log → m.count p.id = p.initial) :
    TokenAt w 0 m := by
  intro i hi
  have hplace : { logPlace i with final := finalCount? (net model w).final (logPlaceId i) } ∈
      (net model w).places := by
    apply List.mem_map.2
    refine ⟨logPlace i, List.mem_append_right _ ?_, rfl⟩
    exact List.mem_map_of_mem (List.mem_range.2 (by omega))
  exact hstart _ hplace rfl

/-- An accepted replay explains its steps. -/
theorem explains_of_byVector (h : model.IsModelFor w)
    (hok : Replay.byVector (net model w) trace = .ok outcome) :
    outcome.alignment.length = trace.moves.length ∧
      Explains model w (trace.markingAfter (net model w)) 0
        (trace.moves.zip outcome.alignment) := by
  obtain ⟨-, ts, hlength, -, halign, hfirst⟩ :=
    Replay.firstExplained_of_byVector (wellJoined_net h) hok
  rw [halign]
  refine ⟨by rw [List.length_map, hlength], ?_⟩
  intro r pair hpair
  obtain ⟨step, move⟩ := pair
  obtain ⟨hstep, hmove⟩ := List.getElem?_zip_eq_some.1 hpair
  rw [List.getElem?_map, Option.map_eq_some_iff] at hmove
  obtain ⟨t, ht, rfl⟩ := hmove
  obtain ⟨before, after, heq, ⟨⟨records, hreport⟩, htakes⟩, -⟩ := hfirst r t ht
  have hmem : t ∈ (net model w).transitions := by
    rw [heq]
    exact List.mem_append_right _ List.mem_cons_self
  rw [transitions_net] at hmem
  obtain ⟨a, ha, rfl⟩ := List.mem_map.1 hmem
  rw [SnapshotTrace.getElem?_moves, hreport, Option.some_inj] at hstep
  rw [Nat.zero_add]
  exact ⟨a, ha, by rw [← hstep], rfl, htakes⟩

/-- What an accepted replay on a product finds is an alignment. Each move reads as a log move, a
synchronous move or a move of the model, of the kind of its step. The log sides are labels of the
trace from the first one on, and the other moves are a run of the model through the model parts of
the markings. Once the constraint holds all labels are taken and the model is at its final
marking. -/
theorem byVector_product (h : model.IsModelFor w)
    (hstart : ∀ p ∈ (model.product w).net.places, p.kind = .log →
      (trace.markingAfter (model.product w).net 0).count p.id = p.initial)
    (hok : Replay.byVector (model.product w).net trace = .ok outcome) :
    outcome.alignment.length = trace.moves.length ∧
    (∀ (s : Nat) step move, trace.moves[s]? = some step → outcome.alignment[s]? = some move →
      ∃ kind position image, step.kind = .move kind ∧
        ReadsAs model w move.transition kind position image ∧
        image? model w move.transition = image ∧
        (∀ i, position = some i → w[i]? = some move.log) ∧
        (kind = .log → model.part (trace.markingAfter (model.product w).net (s + 1)) =
          model.part (trace.markingAfter (model.product w).net s))) ∧
    logSide (trace.moves.zip outcome.alignment) <+: w ∧
    model.Run (model.part (trace.markingAfter (model.product w).net 0))
      (modelSide model w (trace.markingAfter (model.product w).net) 0
        (trace.moves.zip outcome.alignment))
      (model.part (trace.markingAfter (model.product w).net trace.moves.length)) ∧
    ((model.product w).constraint.Holds
        (trace.markingAfter (model.product w).net trace.moves.length) →
      logSide (trace.moves.zip outcome.alignment) = w ∧
        model.IsFinal
          (model.part (trace.markingAfter (model.product w).net trace.moves.length))) := by
  obtain ⟨hlength, hpairs⟩ := explains_of_byVector h hok
  obtain ⟨c, hc, htoken, hdrop, hrun⟩ :=
    sides_of_explains h hpairs (Nat.zero_le _) (tokenAt_zero hstart)
  rw [List.length_zip, hlength, min_self, Nat.zero_add] at htoken hrun
  rw [List.drop_zero] at hdrop
  refine ⟨hlength, ?_, ⟨_, hdrop.symm⟩, hrun, ?_⟩
  · intro s step move hstep hmove
    have hpair : (trace.moves.zip outcome.alignment)[s]? = some (step, move) :=
      List.getElem?_zip_eq_some.2 ⟨hstep, hmove⟩
    obtain ⟨a, ha, hkind, rfl, htakes⟩ := hpairs s _ hpair
    rw [Nat.zero_add] at htakes
    rw [Move.transition_ofTransition]
    refine ⟨_, _, _, hkind, readsAs_id ha, image?_id h ha, fun i hi ↦ getElem?_position ha hi, ?_⟩
    intro hlog
    exact (Net.part_congr (agree_takes h ha (image?_of_kind_log h ha hlog) htakes)).symm
  · intro hholds
    obtain ⟨rfl, hfinal⟩ := (holds_constraint_iff hc htoken).1 hholds
    rw [List.drop_length, List.append_nil] at hdrop
    refine ⟨hdrop.symm, fun mark hmark ↦ ?_⟩
    rw [Net.count_part (wellJoined_model h).places_nodup (h.final_mem mark hmark)]
    exact hfinal mark hmark

/-- A report of a silent check and a payment that the log shares. -/
def alignedTrace : SnapshotTrace :=
  ⟨[⟨.initial, []⟩, ⟨.move .tau, [("start", 0), ("ready", 1)]⟩,
    ⟨.move .sync, [("ready", 0), ("end", 1), ("logp0", 0), ("logp1", 1)]⟩]⟩

/-- The report is accepted, and its log side is the trace. -/
theorem byVector_product_payment :
    payment.IsModelFor ["pay"] ∧
    (∀ p ∈ (payment.product ["pay"]).net.places, p.kind = .log →
      (alignedTrace.markingAfter (payment.product ["pay"]).net 0).count p.id = p.initial) ∧
    ∃ outcome, Replay.byVector (payment.product ["pay"]).net alignedTrace = .ok outcome ∧
      logSide (alignedTrace.moves.zip outcome.alignment) = ["pay"] := by
  have hstart : ∀ p ∈ (payment.product ["pay"]).net.places, p.kind = .log →
      (alignedTrace.markingAfter (payment.product ["pay"]).net 0).count p.id = p.initial := by
    decide +kernel
  have haccepted :
      (Replay.byVector (payment.product ["pay"]).net alignedTrace).toOption.isSome := by
    decide +kernel
  have hholds : (payment.product ["pay"]).constraint.Holds
      (alignedTrace.markingAfter (payment.product ["pay"]).net 2) := by
    decide +kernel
  refine ⟨payment_isModelFor, hstart, ?_⟩
  cases hok : Replay.byVector (payment.product ["pay"]).net alignedTrace with
  | error e =>
    rw [hok] at haccepted
    cases haccepted
  | ok outcome =>
    have hsides := byVector_product payment_isModelFor hstart hok
    exact ⟨outcome, rfl, (hsides.2.2.2.2 hholds).1⟩

end Replay

end Product

end PetriAlign
