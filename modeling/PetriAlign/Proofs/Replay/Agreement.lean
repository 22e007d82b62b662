import PetriAlign.Proofs.Replay.Exactness
import PetriAlign.Proofs.Replay.LookUp
import PetriAlign.Proofs.Replay.Signature

/-!
# The two replays

A replay by signatures compares neither the marking before a step nor the one after it. On a net
with plain place ids it still accepts only what a replay by complete markings accepts, step by step
with the same effect. If the signatures of a net tell its transitions apart and none of them both
takes from and gives to a place, the two replays find the same transitions.
-/

namespace PetriAlign

namespace Net

variable {net : Net} {t : Transition}

theorem arcCount_le_length (net : Net) (source target : String) :
    net.arcCount source target ≤ net.arcs.length :=
  List.countP_le_length

theorem mem_of_bySignature? {key : String} (h : net.bySignature? key = some t) :
    t ∈ net.transitions ∧ net.signatureOf t = key := by
  have hkey := List.find?_some h
  exact ⟨List.mem_reverse.1 (List.mem_of_find?_eq_some h), of_decide_eq_true hkey⟩

/-- A transition is found by its signature if it shares it with no other. -/
theorem bySignature?_signatureOf (hsig : (net.transitions.map net.signatureOf).Nodup)
    (ht : t ∈ net.transitions) : net.bySignature? (net.signatureOf t) = some t := by
  obtain ⟨u, hu⟩ : ∃ u, net.bySignature? (net.signatureOf t) = some u := by
    rw [bySignature?, ← Option.isSome_iff_exists, List.find?_isSome]
    exact ⟨t, List.mem_reverse.2 ht, decide_eq_true rfl⟩
  obtain ⟨hmem, hkey⟩ := mem_of_bySignature? hu
  rw [hu, List.inj_on_of_nodup_map hsig hmem ht hkey]

theorem mem_of_explainer? {kind : TransitionKind} {m m' : Marking}
    (h : net.explainer? kind m m' = some t) :
    t ∈ net.transitions ∧ t.kind = kind ∧ net.Takes t m m' := by
  have hfound := List.find?_some h
  exact ⟨List.mem_of_find?_eq_some h, of_decide_eq_true hfound⟩

end Net

namespace Replay

variable {net : Net} {m : Marking} {kind : TransitionKind} {t u : Transition}
  {records : List (String × UInt64)}

/-- A step whose places are declared changes no other count. -/
theorem count_overwrite_of_undeclared (hdeclared : ∀ record ∈ records, record.1 ∈ net.placeIds)
    {p : String} (hp : p ∉ net.placeIds) : (m.overwrite records).count p = m.count p := by
  apply Marking.count_overwrite_of_notMem
  intro hmem
  obtain ⟨record, hrecord, rfl⟩ := List.mem_map.1 hmem
  exact hp (hdeclared record hrecord)

/-- Such a step touches declared places only. -/
theorem mem_placeIds_of_mem_touchedBy (hdeclared : ∀ record ∈ records, record.1 ∈ net.placeIds)
    (hnodup : (records.map (·.1)).Nodup) {p : String}
    (hp : p ∈ (touchedBy m records).inputs ++ (touchedBy m records).outputs) :
    p ∈ net.placeIds := by
  by_contra hnot
  obtain ⟨hin, hout⟩ := count_touchedBy (m := m) hnodup p
  rw [count_overwrite_of_undeclared hdeclared hnot, Nat.sub_self] at hin hout
  rw [← List.count_pos_iff, List.count_append, hin, hout] at hp
  exact Nat.lt_irrefl 0 hp

/-- A transition that is found by what a step touches can take the step. -/
theorem takes_of_bySignature? (hnet : net.WellJoined) (hids : ∀ id ∈ net.placeIds, IsPlainId id)
    (hdeclared : ∀ record ∈ records, record.1 ∈ net.placeIds)
    (hnodup : (records.map (·.1)).Nodup)
    (hu : net.bySignature? (touchedSignature kind m records) = some u) :
    u ∈ net.transitions ∧ u.kind = kind ∧ net.Takes u m (m.overwrite records) := by
  obtain ⟨hmem, hsig⟩ := Net.mem_of_bySignature? hu
  have hid : u.id ∈ net.transitionIds := List.mem_map_of_mem hmem
  obtain ⟨hkind, hin, hout⟩ := perm_of_signature_eq
    (fun p hp ↦ hids p (Net.mem_placeIds_of_mem_preset hnet hid hp))
    (fun p hp ↦ hids p (mem_placeIds_of_mem_touchedBy hdeclared hnodup (List.mem_append_left _ hp)))
    (fun p hp ↦ hids p (Net.mem_placeIds_of_mem_postset hnet hid hp))
    (fun p hp ↦
      hids p (mem_placeIds_of_mem_touchedBy hdeclared hnodup (List.mem_append_right _ hp)))
    hsig
  refine ⟨hmem, hkind, fun p _ ↦ ?_⟩
  obtain ⟨hcountin, hcountout⟩ := count_touchedBy (m := m) hnodup p
  rw [← hin.count_eq, Net.count_preset] at hcountin
  rw [← hout.count_eq, Net.count_postset] at hcountout
  have hlt := ((m.overwrite records).count p).toNat_lt
  omega

/-- A change that a transition explains is no larger than the number of arcs. -/
theorem delta_le_length (htakes : net.Takes t m (m.overwrite records))
    (hnodup : (records.map (·.1)).Nodup) {record : String × UInt64} (hrecord : record ∈ records)
    (hdeclared : record.1 ∈ net.placeIds) :
    (Change.ofRecord m record).delta ≤ net.arcs.length := by
  obtain ⟨hin, -, hout⟩ := htakes record.1 hdeclared
  rw [Marking.count_overwrite_of_mem hnodup hrecord] at hout
  have hinle := net.arcCount_le_length record.1 t.id
  have houtle := net.arcCount_le_length t.id record.1
  unfold Change.delta Change.ofRecord
  dsimp only
  omega

/-- What a step touches has the signature of each transition without self-loops that can take the
step. -/
theorem touchedSignature_of_takes (hnet : net.WellJoined) (ht : t ∈ net.transitions)
    (hloops : ∀ p ∈ net.preset t.id, p ∉ net.postset t.id)
    (hdeclared : ∀ record ∈ records, record.1 ∈ net.placeIds)
    (hnodup : (records.map (·.1)).Nodup) (htakes : net.Takes t m (m.overwrite records)) :
    touchedSignature t.kind m records = net.signatureOf t := by
  have hid : t.id ∈ net.transitionIds := List.mem_map_of_mem ht
  have hcount (p : String) := count_touchedBy (m := m) hnodup p
  -- on a declared place only one of the two arc counts is positive
  have hsides (p : String) :
      (m.count p).toNat - ((m.overwrite records).count p).toNat = (net.preset t.id).count p ∧
      ((m.overwrite records).count p).toNat - (m.count p).toNat = (net.postset t.id).count p := by
    by_cases hp : p ∈ net.placeIds
    · obtain ⟨hin, -, hout⟩ := htakes p hp
      rw [← Net.count_preset] at hin hout
      rw [← Net.count_postset] at hout
      have hone : (net.preset t.id).count p = 0 ∨ (net.postset t.id).count p = 0 := by
        rw [List.count_eq_zero, List.count_eq_zero, ← imp_iff_not_or]
        exact hloops p
      omega
    · rw [count_overwrite_of_undeclared hdeclared hp, Nat.sub_self,
        List.count_eq_zero_of_not_mem (mt (Net.mem_placeIds_of_mem_preset hnet hid) hp),
        List.count_eq_zero_of_not_mem (mt (Net.mem_placeIds_of_mem_postset hnet hid) hp)]
      exact ⟨rfl, rfl⟩
  apply signature_congr <;> rw [List.perm_iff_count] <;> intro p
  · rw [(hcount p).1, (hsides p).1]
  · rw [(hcount p).2, (hsides p).2]

/-! ## Whole traces -/

/-- The step reports the kind of both transitions, and they change each count by the same amount. -/
structure SameMove (net : Net) (step : Step) (t u : Transition) : Prop where
  mem : t ∈ net.transitions
  mem' : u ∈ net.transitions
  kind : step.kind = .move t.kind
  kind' : step.kind = .move u.kind
  effect : net.SameEffect t u

theorem explainSteps_cons_eq_ok_iff {number : Nat} {step : Step} {steps : List Step}
    {ts : List Transition} :
    explainSteps net m number (step :: steps) = .ok ts ↔ ∃ kind t rest, ts = t :: rest ∧
      step.kind = .move kind ∧ (∀ record ∈ step.records, record.1 ∈ net.placeIds) ∧
      net.explainer? kind m (m.overwrite step.records) = some t ∧
      explainSteps net (m.overwrite step.records) (number + 1) steps = .ok rest := by
  have hput (next : Marking) : step.records.foldlM (putRecord net number) m = .ok next ↔
      (∀ record ∈ step.records, record.1 ∈ net.placeIds) ∧ next = m.overwrite step.records := by
    constructor
    · intro h
      have hdeclared := SnapshotTrace.declared_of_foldlM_putRecord h
      rw [SnapshotTrace.foldlM_putRecord hdeclared] at h
      exact ⟨hdeclared, (Except.ok.inj h).symm⟩
    · rintro ⟨hdeclared, rfl⟩
      exact SnapshotTrace.foldlM_putRecord hdeclared
  simp only [explainSteps, bind_eq_ok_iff, Step.moveKind_eq_ok_iff, hput]
  constructor
  · rintro ⟨kind, hkind, next, ⟨hdeclared, rfl⟩, hok⟩
    split at hok
    case h_1 t ht =>
      obtain ⟨rest, hrest, hts⟩ := bind_eq_ok_iff.1 hok
      exact ⟨kind, t, rest, (Except.ok.inj hts).symm, hkind, hdeclared, ht, hrest⟩
    case h_2 => cases hok
  · rintro ⟨kind, t, rest, rfl, hkind, hdeclared, ht, hrest⟩
    refine ⟨kind, hkind, _, ⟨hdeclared, rfl⟩, ?_⟩
    simp only [ht, hrest]
    rfl

/-- If every step is looked up, every step is explained, by a transition with the same effect. -/
theorem explainSteps_of_lookUpSteps (hnet : net.WellJoined)
    (hids : ∀ id ∈ net.placeIds, IsPlainId id) {number : Nat} {steps : List Step}
    (hsteps : ∀ step ∈ steps, (step.records.map (·.1)).Nodup) {us : List Transition}
    (hok : lookUpSteps net m number steps = .ok us) :
    ∃ ts, explainSteps net m number steps = .ok ts ∧ ts.length = steps.length ∧
      us.length = steps.length ∧ ∀ (s : Nat) step t u, steps[s]? = some step → ts[s]? = some t →
        us[s]? = some u → SameMove net step t u := by
  induction steps generalizing m number us with
  | nil =>
    cases hok
    exact ⟨[], rfl, rfl, rfl, nofun⟩
  | cons step steps ih =>
    obtain ⟨hstep, hsteps⟩ := List.forall_mem_cons.1 hsteps
    obtain ⟨kind, u, us, rfl, hkind, hrecords, hu, hrest⟩ :=
      (lookUpSteps_cons_eq_ok_iff hstep).1 hok
    have hdeclared : ∀ record ∈ step.records, record.1 ∈ net.placeIds :=
      fun record hrecord ↦ (hrecords record hrecord).1
    obtain ⟨humem, hukind, hutakes⟩ := takes_of_bySignature? hnet hids hdeclared hstep hu
    obtain ⟨t, ht⟩ : ∃ t, net.explainer? kind m (m.overwrite step.records) = some t := by
      rw [Net.explainer?, ← Option.isSome_iff_exists, List.find?_isSome]
      exact ⟨u, humem, decide_eq_true ⟨hukind, hutakes⟩⟩
    obtain ⟨htmem, htkind, httakes⟩ := Net.mem_of_explainer? ht
    obtain ⟨ts, hts, hlen, hlen', hsame⟩ := ih hsteps hrest
    refine ⟨t :: ts, explainSteps_cons_eq_ok_iff.2 ⟨kind, t, ts, rfl, hkind, hdeclared, ht, hts⟩,
      congrArg (· + 1) hlen, congrArg (· + 1) hlen', fun s other t' u' hs ht' hu' ↦ ?_⟩
    cases s with
    | zero =>
      cases hs
      cases ht'
      cases hu'
      exact ⟨htmem, humem, htkind ▸ hkind, hukind ▸ hkind, Net.sameEffect_of_takes httakes hutakes⟩
    | succ s => exact hsame s other t' u' hs ht' hu'

/-- If every step is explained, every step is looked up, and the same transitions are found. -/
theorem lookUpSteps_of_explainSteps (hnet : net.WellJoined)
    (hloops : ∀ t ∈ net.transitions, ∀ p ∈ net.preset t.id, p ∉ net.postset t.id)
    (hsig : (net.transitions.map net.signatureOf).Nodup) {number : Nat} {steps : List Step}
    (hsteps : ∀ step ∈ steps, (step.records.map (·.1)).Nodup) {ts : List Transition}
    (hok : explainSteps net m number steps = .ok ts) : lookUpSteps net m number steps = .ok ts := by
  induction steps generalizing m number ts with
  | nil => exact hok
  | cons step steps ih =>
    obtain ⟨hstep, hsteps⟩ := List.forall_mem_cons.1 hsteps
    obtain ⟨kind, t, ts, rfl, hkind, hdeclared, ht, hrest⟩ := explainSteps_cons_eq_ok_iff.1 hok
    obtain ⟨hmem, rfl, htakes⟩ := Net.mem_of_explainer? ht
    have hrecords : ∀ record ∈ step.records, record.1 ∈ net.placeIds ∧
        (Change.ofRecord m record).delta ≤ net.arcs.length := by
      intro record hrecord
      have hp := hdeclared record hrecord
      exact ⟨hp, delta_le_length htakes hstep hrecord hp⟩
    have hkey := touchedSignature_of_takes hnet hmem (hloops t hmem) hdeclared hstep htakes
    have hfound := Net.bySignature?_signatureOf hsig hmem
    rw [← hkey] at hfound
    exact (lookUpSteps_cons_eq_ok_iff hstep).2
      ⟨t.kind, t, ts, rfl, hkind, hrecords, hfound, ih hsteps hrest⟩

variable {trace : SnapshotTrace}

theorem explain_eq_ok_iff {ts : List Transition} : explain net trace = .ok ts ↔
    ∃ records, trace.initialRecords = .ok records ∧
      ∃ start, records.foldlM (putRecord net 0) net.initialMarking = .ok start ∧
        explainSteps net start 1 trace.moves = .ok ts := by
  simp only [explain, bind_eq_ok_iff]

theorem lookUp_eq_ok_iff {ts : List Transition} : lookUp net trace = .ok ts ↔
    ∃ records, trace.initialRecords = .ok records ∧
      ∃ start, records.foldlM (putRecord net 0) net.initialMarking = .ok start ∧
        lookUpSteps net start 1 trace.moves = .ok ts := by
  simp only [lookUp, bind_eq_ok_iff, initialRecord_eq_putRecord]

/-- What a replay by signatures accepts, a replay by complete markings accepts too, with as many
moves. Step by step the two transitions are of the reported kind and have the same effect. -/
theorem byVector_of_bySignature (hnet : net.WellJoined)
    (hids : ∀ id ∈ net.placeIds, IsPlainId id)
    (htrace : ∀ step ∈ trace.steps, (step.records.map (·.1)).Nodup) {outcome : ReplayOutcome}
    (hok : bySignature net trace = .ok outcome) :
    ∃ (outcome' : ReplayOutcome) (ts us : List Transition),
      byVector net trace = .ok outcome' ∧
      outcome'.alignment.length = outcome.alignment.length ∧
      outcome' = ts.foldl ReplayOutcome.record {} ∧ outcome = us.foldl ReplayOutcome.record {} ∧
      ts.length = trace.moves.length ∧ us.length = trace.moves.length ∧
      ∀ (s : Nat) step t u, trace.moves[s]? = some step → ts[s]? = some t → us[s]? = some u →
        SameMove net step t u := by
  rw [bySignature_eq_lookUp] at hok
  obtain ⟨us, hus, rfl⟩ := exists_of_map_eq_ok hok
  obtain ⟨records, hrecords, start, hstart, hsteps⟩ := lookUp_eq_ok_iff.1 hus
  have hmoves (step : Step) (hstep : step ∈ trace.moves) : (step.records.map (·.1)).Nodup :=
    htrace step (List.mem_of_mem_drop hstep)
  obtain ⟨ts, hts, hlen, hlen', hsame⟩ := explainSteps_of_lookUpSteps hnet hids hmoves hsteps
  have hexplain := explain_eq_ok_iff.2 ⟨records, hrecords, start, hstart, hts⟩
  refine ⟨ts.foldl ReplayOutcome.record {}, ts, us, ?_, ?_, rfl, rfl, hlen, hlen', hsame⟩
  · rw [byVector_eq_explain hnet, hexplain]
    rfl
  · simp [alignment_foldl_record, hlen, hlen']

/-- A payment with two ways to pay, which have one signature. -/
def twoWays : Net :=
  { payment with
    transitions := payment.transitions ++ [⟨"t2", "pay", "pay cash", .model⟩]
    arcs := payment.arcs ++ [⟨"a5", "ready", "t2"⟩, ⟨"a6", "t2", "end"⟩] }

/-- Of the two ways to pay, the replays choose different ones. -/
theorem byVector_of_bySignature_twoWays :
    let outcome : ReplayOutcome := ⟨[⟨skip, "tau check", "check"⟩, ⟨skip, "pay cash", "t2"⟩],
      .ofList [("check", 1), ("t2", 1)]⟩
    let outcome' : ReplayOutcome := ⟨[⟨skip, "tau check", "check"⟩, ⟨skip, "pay", "t1"⟩],
      .ofList [("check", 1), ("t1", 1)]⟩
    twoWays.WellJoined ∧ (∀ id ∈ twoWays.placeIds, IsPlainId id) ∧
    (∀ step ∈ paymentTrace.steps, (step.records.map (·.1)).Nodup) ∧
    bySignature twoWays paymentTrace = .ok outcome ∧
    byVector twoWays paymentTrace = .ok outcome' ∧
    ∃ ts us : List Transition, outcome' = ts.foldl ReplayOutcome.record {} ∧
      outcome = us.foldl ReplayOutcome.record {} ∧
      ∀ (s : Nat) step t u, paymentTrace.moves[s]? = some step → ts[s]? = some t →
        us[s]? = some u → SameMove twoWays step t u := by
  have hnet : twoWays.WellJoined := by
    constructor <;> decide
  have hids : ∀ id ∈ twoWays.placeIds, IsPlainId id := by decide
  have htrace : ∀ step ∈ paymentTrace.steps, (step.records.map (·.1)).Nodup := by decide
  refine ⟨hnet, hids, htrace, ?_⟩
  have hok : bySignature twoWays paymentTrace = .ok ⟨[⟨skip, "tau check", "check"⟩,
      ⟨skip, "pay cash", "t2"⟩], .ofList [("check", 1), ("t2", 1)]⟩ := by decide +kernel
  have hok' : byVector twoWays paymentTrace = .ok ⟨[⟨skip, "tau check", "check"⟩,
      ⟨skip, "pay", "t1"⟩], .ofList [("check", 1), ("t1", 1)]⟩ := by decide +kernel
  obtain ⟨outcome', ts, us, hvector, -, hts, hus, -, -, hsame⟩ :=
    byVector_of_bySignature hnet hids htrace hok
  rw [hok', Except.ok.injEq] at hvector
  exact ⟨hok, hok', ts, us, hvector ▸ hts, hus, hsame⟩

/-- On a net without self-loops whose transitions all have different signatures, a replay by
signatures finds what a replay by complete markings finds. Its bound on the change of a count
rejects no step that a transition explains. -/
theorem bySignature_of_byVector (hnet : net.WellJoined)
    (hloops : ∀ t ∈ net.transitions, ∀ p ∈ net.preset t.id, p ∉ net.postset t.id)
    (hsig : (net.transitions.map net.signatureOf).Nodup)
    (htrace : ∀ step ∈ trace.steps, (step.records.map (·.1)).Nodup) :
    (∀ outcome, byVector net trace = .ok outcome → bySignature net trace = .ok outcome) ∧
    (∀ s, ∀ t ∈ net.transitions, trace.Explained net s t →
      (∀ record ∈ trace.recordsAt (s + 1), record.1 ∈ net.placeIds) →
      ∃ touched, (trace.recordsAt (s + 1)).foldlM (touch net (s + 1) t.kind)
        ⟨trace.markingAfter net s, [], []⟩ = .ok touched) := by
  constructor
  · intro outcome hok
    rw [byVector_eq_explain hnet] at hok
    obtain ⟨ts, hts, rfl⟩ := exists_of_map_eq_ok hok
    obtain ⟨records, hrecords, start, hstart, hsteps⟩ := explain_eq_ok_iff.1 hts
    have hmoves (step : Step) (hstep : step ∈ trace.moves) : (step.records.map (·.1)).Nodup :=
      htrace step (List.mem_of_mem_drop hstep)
    have hfound := lookUpSteps_of_explainSteps hnet hloops hsig hmoves hsteps
    rw [bySignature_eq_lookUp, lookUp_eq_ok_iff.2 ⟨records, hrecords, start, hstart, hfound⟩]
    rfl
  · rintro s t ht ⟨⟨records, hs⟩, htakes⟩ hdeclared
    have hat : trace.recordsAt (s + 1) = records := by
      rw [SnapshotTrace.recordsAt, hs]
      rfl
    have hnodup : ((trace.recordsAt (s + 1)).map (·.1)).Nodup := by
      rw [hat]
      exact htrace _ (List.mem_of_getElem? hs)
    refine ⟨_, (foldlM_touch_eq_ok_iff hnodup).2 ⟨fun record hrecord ↦ ?_, rfl⟩⟩
    have hp := hdeclared record hrecord
    exact ⟨hp, delta_le_length htakes hnodup hrecord hp⟩

/-- The two replays agree on the run of `payment`. -/
theorem bySignature_of_byVector_payment :
    payment.WellJoined ∧ (∀ t ∈ payment.transitions, ∀ p ∈ payment.preset t.id,
      p ∉ payment.postset t.id) ∧
    (payment.transitions.map payment.signatureOf).Nodup ∧
    (∀ step ∈ paymentTrace.steps, (step.records.map (·.1)).Nodup) ∧
    ∃ outcome, byVector payment paymentTrace = .ok outcome ∧
      bySignature payment paymentTrace = .ok outcome := by
  have hloops : ∀ t ∈ payment.transitions, ∀ p ∈ payment.preset t.id,
      p ∉ payment.postset t.id := by decide
  have hsig : (payment.transitions.map payment.signatureOf).Nodup := by decide +kernel
  have htrace : ∀ step ∈ paymentTrace.steps, (step.records.map (·.1)).Nodup := by decide
  have hok : byVector payment paymentTrace = .ok ⟨payment.transitions.map Move.ofTransition,
      .ofList [("check", 1), ("t1", 1)]⟩ := by decide +kernel
  exact ⟨payment_wellJoined, hloops, hsig, htrace, _, hok,
    (bySignature_of_byVector payment_wellJoined hloops hsig htrace).1 _ hok⟩

end Replay

end PetriAlign
