import PetriAlign.Proofs.Replay.Agreement

/-!
# How snapshots list markings

A snapshot may list all places or only those that changed, in any order. A replay by signatures
depends on the markings alone: two traces with the same kinds of steps, whose markings have the same
counts after each step, are replayed to the same outcome, or both fail at the same step. So records
may be permuted, and places that did not change may be added.
-/

namespace PetriAlign

namespace SnapshotTrace

/-- The trace begins with its only initial step, and each step lists declared places, none of them
twice. -/
structure Lists (trace : SnapshotTrace) (net : Net) : Prop extends trace.Describes net where
  nodup : ∀ step ∈ trace.steps, (step.records.map (·.1)).Nodup

def kinds (trace : SnapshotTrace) : List StepKind := trace.steps.map (·.kind)

/-- The steps are those of another trace with records added, which report the counts that its
markings have. -/
structure Completes (trace' trace : SnapshotTrace) (net : Net) : Prop where
  kinds : trace'.kinds = trace.kinds
  kept : ∀ s, trace.recordsAt s ⊆ trace'.recordsAt s
  added : ∀ s, ∀ record ∈ trace'.recordsAt s,
    (trace.markingAfter net s).count record.1 = record.2

end SnapshotTrace

/-- Both steps report the same kind and the same counts, maybe in another order. -/
structure Step.Permutes (step step' : Step) : Prop where
  kind : step'.kind = step.kind
  records : step.records.Perm step'.records

namespace Replay

/-- Both computations succeed with the same answer, or both miss a transition for the same step. -/
inductive SameVerdict {α : Type} : Except ReplayError α → Except ReplayError α → Prop
  | found (answer : α) : SameVerdict (.ok answer) (.ok answer)
  | missed (step : Nat) (key key' : String) :
    SameVerdict (.error (.unknownSignature step key)) (.error (.unknownSignature step key'))

theorem SameVerdict.map {α β : Type} {x y : Except ReplayError α} (h : SameVerdict x y)
    (f : α → β) : SameVerdict (x.map f) (y.map f) := by
  cases h with
  | found answer => exact .found (f answer)
  | missed step key key' => exact .missed step key key'

theorem SameVerdict.eq_ok {α : Type} {x y : Except ReplayError α} (h : SameVerdict x y) {answer : α}
    (hx : x = .ok answer) : y = .ok answer := by
  cases h with
  | found => exact hx
  | missed => cases hx

theorem SameVerdict.exists_eq_error {α : Type} {x y : Except ReplayError α} (h : SameVerdict x y)
    {step : Nat} {key : String} (hx : x = .error (.unknownSignature step key)) :
    ∃ key', y = .error (.unknownSignature step key') := by
  cases h with
  | found => cases hx
  | missed step _ key' =>
    cases hx
    exact ⟨key', rfl⟩

variable {net : Net} {kind : TransitionKind} {m m' : Marking} {number : Nat}
  {records records' : List (String × UInt64)} {steps : List Step} {t : Transition}

/-! ## One step -/

/-- The transition is looked up for what the records change. -/
def Answers (net : Net) (kind : TransitionKind) (m : Marking) (records : List (String × UInt64))
    (t : Transition) : Prop :=
  (∀ record ∈ records, (Change.ofRecord m record).delta ≤ net.arcs.length) ∧
    net.bySignature? (touchedSignature kind m records) = some t

/-- No change is too large if no count falls or rises by too much: what is not recorded does not
change. -/
theorem forall_delta_le_iff (hdeclared : ∀ record ∈ records, record.1 ∈ net.placeIds)
    (hnodup : (records.map (·.1)).Nodup) (bound : Nat) :
    (∀ record ∈ records, (Change.ofRecord m record).delta ≤ bound) ↔
      ∀ p ∈ net.placeIds, (Change.ofRecord m (p, (m.overwrite records).count p)).delta ≤ bound := by
  constructor
  · intro h p hp
    by_cases hmem : p ∈ records.map (·.1)
    · obtain ⟨record, hrecord, rfl⟩ := List.mem_map.1 hmem
      rw [Marking.count_overwrite_of_mem hnodup hrecord]
      exact h record hrecord
    · rw [Marking.count_overwrite_of_notMem hmem]
      simp [Change.ofRecord, Change.delta]
  · intro h record hrecord
    have hle := h record.1 (hdeclared record hrecord)
    rwa [Marking.count_overwrite_of_mem hnodup hrecord] at hle

/-- What is touched depends on the counts before and after the step. -/
theorem touchedSignature_congr (hdeclared : ∀ record ∈ records, record.1 ∈ net.placeIds)
    (hdeclared' : ∀ record ∈ records', record.1 ∈ net.placeIds)
    (hnodup : (records.map (·.1)).Nodup) (hnodup' : (records'.map (·.1)).Nodup)
    (hbefore : net.Agree m m') (hafter : net.Agree (m.overwrite records) (m'.overwrite records')) :
    touchedSignature kind m records = touchedSignature kind m' records' := by
  have hcount (p : String) := count_touchedBy (m := m) hnodup p
  have hcount' (p : String) := count_touchedBy (m := m') hnodup' p
  have hsides (p : String) :
      (touchedBy m records).inputs.count p = (touchedBy m' records').inputs.count p ∧
      (touchedBy m records).outputs.count p = (touchedBy m' records').outputs.count p := by
    rw [(hcount p).1, (hcount p).2, (hcount' p).1, (hcount' p).2]
    by_cases hp : p ∈ net.placeIds
    · rw [hbefore p hp, hafter p hp]
      exact ⟨rfl, rfl⟩
    · rw [count_overwrite_of_undeclared hdeclared hp, count_overwrite_of_undeclared hdeclared' hp,
        Nat.sub_self, Nat.sub_self]
      exact ⟨rfl, rfl⟩
  apply signature_congr
  · exact List.perm_iff_count.2 fun p ↦ (hsides p).1
  · exact List.perm_iff_count.2 fun p ↦ (hsides p).2

/-- So does the transition that is looked up. -/
theorem answers_congr (hdeclared : ∀ record ∈ records, record.1 ∈ net.placeIds)
    (hdeclared' : ∀ record ∈ records', record.1 ∈ net.placeIds)
    (hnodup : (records.map (·.1)).Nodup) (hnodup' : (records'.map (·.1)).Nodup)
    (hbefore : net.Agree m m') (hafter : net.Agree (m.overwrite records) (m'.overwrite records')) :
    Answers net kind m records t ↔ Answers net kind m' records' t := by
  unfold Answers
  rw [touchedSignature_congr hdeclared hdeclared' hnodup hnodup' hbefore hafter,
    forall_delta_le_iff hdeclared hnodup, forall_delta_le_iff hdeclared' hnodup']
  apply and_congr_left'
  apply forall₂_congr
  intro p hp
  rw [Change.ofRecord, Change.ofRecord, hbefore p hp, hafter p hp]

/-- A step that has an answer is taken. -/
theorem lookUpSteps_of_answers (hdeclared : ∀ record ∈ records, record.1 ∈ net.placeIds)
    (hnodup : (records.map (·.1)).Nodup) (h : Answers net kind m records t) :
    lookUpSteps net m number (⟨.move kind, records⟩ :: steps) =
      (lookUpSteps net (m.overwrite records) (number + 1) steps).map (t :: ·) := by
  have htouch : records.foldlM (touch net number kind) ⟨m, [], []⟩ = .ok (touchedBy m records) :=
    (foldlM_touch_eq_ok_iff hnodup).2 ⟨fun record hrecord ↦
      ⟨hdeclared record hrecord, h.1 record hrecord⟩, rfl⟩
  have hfound := h.2
  rw [touchedSignature] at hfound
  have hmarking : (touchedBy m records).marking = m.overwrite records := marking_foldl_addRecord
  simp only [lookUpSteps, Step.moveKind, bind, Except.bind, htouch, hfound, hmarking]
  cases lookUpSteps net (m.overwrite records) (number + 1) steps <;> rfl

theorem touch_eq_error {s : Touched} {record : String × UInt64} {e : ReplayError}
    (hdeclared : record.1 ∈ net.placeIds) (h : touch net number kind s record = .error e) :
    ∃ key, e = .unknownSignature number key := by
  rw [touch, checkPlace, if_pos (Net.isSome_place?_iff.2 hdeclared)] at h
  dsimp only [bind, Except.bind] at h
  split at h
  case isTrue =>
    cases h
    exact ⟨_, rfl⟩
  case isFalse => cases h

/-- A step without an answer is an error, which says so. -/
theorem lookUpSteps_of_not_answers (number : Nat) (steps : List Step)
    (hdeclared : ∀ record ∈ records, record.1 ∈ net.placeIds)
    (hnodup : (records.map (·.1)).Nodup) (h : ∀ t, ¬ Answers net kind m records t) :
    ∃ key, lookUpSteps net m number (⟨.move kind, records⟩ :: steps) =
      .error (.unknownSignature number key) := by
  simp only [lookUpSteps, Step.moveKind, bind, Except.bind]
  cases htouch : records.foldlM (touch net number kind) ⟨m, [], []⟩ with
  | error e =>
    have hfails : FailsWith (fun e ↦ ∃ key, e = ReplayError.unknownSignature number key)
        (records.foldlM (touch net number kind) ⟨m, [], []⟩) :=
      FailsWith.foldlM (fun s record hrecord e ↦ touch_eq_error (hdeclared record hrecord)) _
    obtain ⟨key, rfl⟩ := hfails e htouch
    exact ⟨key, rfl⟩
  | ok touched =>
    obtain ⟨hsmall, rfl⟩ := (foldlM_touch_eq_ok_iff hnodup).1 htouch
    dsimp only
    split
    case h_1 t hfound =>
      exact absurd ⟨fun record hrecord ↦ (hsmall record hrecord).2, hfound⟩ (h t)
    case h_2 => exact ⟨_, rfl⟩

end Replay

/-! ## Whole traces -/

namespace SnapshotTrace

open Replay

variable {net : Net} {trace trace' : SnapshotTrace} {s : Nat}

/-- The transitions that are looked up for the moves from `s` on. -/
def lookUpFrom (trace : SnapshotTrace) (net : Net) (s : Nat) :
    Except ReplayError (List Transition) :=
  lookUpSteps net (trace.markingAfter net s) (s + 1) (trace.moves.drop s)

theorem lookUp_eq_lookUpFrom (h : trace.Describes net) :
    lookUp net trace = trace.lookUpFrom net 0 := by
  obtain ⟨steps⟩ := trace
  have hstart := h.starts
  cases steps with
  | nil => simp at hstart
  | cons step steps =>
    obtain ⟨kind, records⟩ := step
    simp only [List.head?_cons, Option.map_some, Option.some.injEq] at hstart
    subst hstart
    have hrecords := h.declared ⟨.initial, records⟩ (by simp)
    simp only [lookUp, initialRecords, bind, Except.bind, initialRecord_eq_putRecord,
      foldlM_putRecord hrecords, lookUpFrom, markingAfter, recordsAt, List.drop_zero]
    rfl

/-- A later step of a listing trace, with what is left of the trace from it on. -/
theorem Lists.exists_move (h : trace.Lists net) (hs : s < trace.moves.length) :
    ∃ kind, trace.kinds[s + 1]? = some (.move kind) ∧
      trace.moves.drop s = ⟨.move kind, trace.recordsAt (s + 1)⟩ :: trace.moves.drop (s + 1) := by
  obtain ⟨kind, records, hstep⟩ := h.toDescribes.exists_move hs
  have hmove : trace.moves[s]? = some ⟨.move kind, records⟩ := by
    rw [getElem?_moves, hstep]
  obtain ⟨hlt, hget⟩ := List.getElem?_eq_some_iff.1 hmove
  refine ⟨kind, ?_, ?_⟩
  · rw [kinds, List.getElem?_map, hstep]
    rfl
  · rw [List.drop_eq_getElem_cons hlt, hget, recordsAt, hstep]
    rfl

theorem Lists.declaredAt (h : trace.Lists net) (s : Nat) :
    ∀ record ∈ trace.recordsAt s, record.1 ∈ net.placeIds := by
  unfold recordsAt
  cases hstep : trace.steps[s]? with
  | none => exact nofun
  | some step => exact h.declared step (List.mem_of_getElem? hstep)

theorem Lists.nodupAt (h : trace.Lists net) (s : Nat) :
    ((trace.recordsAt s).map (·.1)).Nodup := by
  unfold recordsAt
  cases hstep : trace.steps[s]? with
  | none => exact List.nodup_nil
  | some step => exact h.nodup step (List.mem_of_getElem? hstep)

theorem length_moves_eq (hkinds : trace'.kinds = trace.kinds) :
    trace'.moves.length = trace.moves.length := by
  have hlength : trace'.steps.length = trace.steps.length := by
    simpa [kinds] using congrArg List.length hkinds
  rw [moves, moves, List.length_drop, List.length_drop, hlength]

/-- Traces with the same markings are looked up alike, from every step on. -/
theorem sameVerdict_lookUpFrom (h : trace.Lists net) (h' : trace'.Lists net)
    (hkinds : trace'.kinds = trace.kinds)
    (hmarkings : ∀ s < trace.steps.length,
      net.Agree (trace.markingAfter net s) (trace'.markingAfter net s)) (s : Nat) :
    SameVerdict (trace.lookUpFrom net s) (trace'.lookUpFrom net s) := by
  have hlength := length_moves_eq hkinds
  -- the induction is on the number of moves from `s` on
  induction hleft : trace.moves.length - s generalizing s with
  | zero =>
    rw [lookUpFrom, lookUpFrom, List.drop_eq_nil_of_le (by omega),
      List.drop_eq_nil_of_le (by omega)]
    exact .found []
  | succ left ih =>
    have hs : s < trace.moves.length := by omega
    have hs' : s + 1 < trace.steps.length := by
      rw [moves, List.length_drop] at hs
      omega
    obtain ⟨kind, hkind, hdrop⟩ := h.exists_move hs
    obtain ⟨kind', hkind', hdrop'⟩ := h'.exists_move (hlength ▸ hs)
    obtain rfl : kind = kind' := by
      rw [hkinds, hkind, Option.some_inj, StepKind.move.injEq] at hkind'
      exact hkind'
    have hcongr (t : Transition) :
        Answers net kind (trace.markingAfter net s) (trace.recordsAt (s + 1)) t ↔
          Answers net kind (trace'.markingAfter net s) (trace'.recordsAt (s + 1)) t :=
      answers_congr (h.declaredAt _) (h'.declaredAt _) (h.nodupAt _) (h'.nodupAt _)
        (hmarkings s (by omega)) (hmarkings (s + 1) hs')
    rw [lookUpFrom, lookUpFrom, hdrop, hdrop']
    by_cases hanswer : ∃ t, Answers net kind (trace.markingAfter net s) (trace.recordsAt (s + 1)) t
    · obtain ⟨t, ht⟩ := hanswer
      rw [lookUpSteps_of_answers (h.declaredAt _) (h.nodupAt _) ht,
        lookUpSteps_of_answers (h'.declaredAt _) (h'.nodupAt _) ((hcongr t).1 ht)]
      exact (ih (s + 1) (by omega)).map _
    · rw [not_exists] at hanswer
      have hanswer' (t : Transition) := mt (hcongr t).2 (hanswer t)
      obtain ⟨key, hkey⟩ := lookUpSteps_of_not_answers (s + 1) (trace.moves.drop (s + 1))
        (h.declaredAt _) (h.nodupAt _) hanswer
      obtain ⟨key', hkey'⟩ := lookUpSteps_of_not_answers (s + 1) (trace'.moves.drop (s + 1))
        (h'.declaredAt _) (h'.nodupAt _) hanswer'
      rw [hkey, hkey']
      exact .missed _ _ _

/-- Added records of counts that a marking has leave it as it is. -/
theorem agree_overwrite {m m' : Marking} {records records' : List (String × UInt64)}
    (hnodup : (records'.map (·.1)).Nodup) (hkept : records ⊆ records')
    (hadded : ∀ record ∈ records', (m.overwrite records).count record.1 = record.2)
    (hbefore : net.Agree m m') : net.Agree (m.overwrite records) (m'.overwrite records') := by
  intro p hp
  by_cases hmem : p ∈ records'.map (·.1)
  · obtain ⟨record, hrecord, rfl⟩ := List.mem_map.1 hmem
    rw [Marking.count_overwrite_of_mem hnodup hrecord]
    exact hadded record hrecord
  · have hnot : p ∉ records.map (·.1) := fun hin ↦ hmem (List.map_subset _ hkept hin)
    rw [Marking.count_overwrite_of_notMem hmem, Marking.count_overwrite_of_notMem hnot]
    exact hbefore p hp

theorem Completes.agree (h : trace'.Completes trace net) (h' : trace'.Lists net) (s : Nat) :
    net.Agree (trace.markingAfter net s) (trace'.markingAfter net s) := by
  induction s with
  | zero => exact agree_overwrite (h'.nodupAt 0) (h.kept 0) (h.added 0) fun _ _ ↦ rfl
  | succ s ih => exact agree_overwrite (h'.nodupAt _) (h.kept _) (h.added _) ih

/-! ## Permuted records -/

theorem exists_permutes {steps steps' : List Step} (h : List.Forall₂ Step.Permutes steps steps')
    {step' : Step} (hmem : step' ∈ steps') : ∃ step ∈ steps, step.Permutes step' := by
  induction h with
  | nil => exact absurd hmem List.not_mem_nil
  | cons hstep _ ih =>
    rcases List.mem_cons.1 hmem with rfl | hmem
    · exact ⟨_, List.mem_cons_self, hstep⟩
    · obtain ⟨step, hin, hpermutes⟩ := ih hmem
      exact ⟨step, List.mem_cons_of_mem _ hin, hpermutes⟩

theorem kinds_of_permutes (h : List.Forall₂ Step.Permutes trace.steps trace'.steps) :
    trace'.kinds = trace.kinds := by
  obtain ⟨steps⟩ := trace
  obtain ⟨steps'⟩ := trace'
  dsimp only [kinds] at h ⊢
  induction h with
  | nil => rfl
  | cons hstep _ ih => rw [List.map_cons, List.map_cons, hstep.kind, ih]

theorem perm_recordsAt (h : List.Forall₂ Step.Permutes trace.steps trace'.steps) (s : Nat) :
    (trace.recordsAt s).Perm (trace'.recordsAt s) := by
  obtain ⟨steps⟩ := trace
  obtain ⟨steps'⟩ := trace'
  dsimp only [recordsAt] at h ⊢
  induction h generalizing s with
  | nil => exact .refl _
  | cons hstep _ ih =>
    cases s with
    | zero => exact hstep.records
    | succ s => exact ih s

theorem Lists.of_permutes (h : trace.Lists net)
    (hpermutes : List.Forall₂ Step.Permutes trace.steps trace'.steps) : trace'.Lists net where
  starts := by
    have hkinds := congrArg List.head? (kinds_of_permutes hpermutes)
    rw [kinds, kinds, List.head?_map, List.head?_map] at hkinds
    rw [hkinds, h.starts]
  moves step' hstep' := by
    obtain ⟨step, hstep, hsame⟩ := exists_permutes (List.forall₂_drop 1 hpermutes) hstep'
    rw [hsame.kind]
    exact h.moves step hstep
  declared step' hstep' record hrecord := by
    obtain ⟨step, hstep, hsame⟩ := exists_permutes hpermutes hstep'
    exact h.declared step hstep record (hsame.records.mem_iff.2 hrecord)
  nodup step' hstep' := by
    obtain ⟨step, hstep, hsame⟩ := exists_permutes hpermutes hstep'
    exact (hsame.records.map _).nodup_iff.1 (h.nodup step hstep)

theorem count_markingAfter (h : trace.Lists net) {record : String × UInt64}
    (hrecord : record ∈ trace.recordsAt s) :
    (trace.markingAfter net s).count record.1 = record.2 := by
  cases s with
  | zero => exact Marking.count_overwrite_of_mem (h.nodupAt 0) hrecord
  | succ s => exact Marking.count_overwrite_of_mem (h.nodupAt _) hrecord

theorem Lists.completes_of_permutes (h : trace.Lists net)
    (hpermutes : List.Forall₂ Step.Permutes trace.steps trace'.steps) :
    trace'.Completes trace net where
  kinds := kinds_of_permutes hpermutes
  kept s := (perm_recordsAt hpermutes s).subset
  added s _ hrecord :=
    count_markingAfter h ((perm_recordsAt hpermutes s).mem_iff.2 hrecord)

end SnapshotTrace

namespace Replay

open SnapshotTrace

variable {trace : SnapshotTrace}

/-- A replay by signatures depends on the kinds of the steps and on the markings after them: traces
that agree on these are replayed to the same outcome, or both fail at the same step. So it does not
matter in which order a step lists its records, nor whether it lists places that did not change. -/
theorem sameVerdict_bySignature (h : trace.Lists net) :
    (∀ trace', trace'.Lists net → trace'.kinds = trace.kinds →
      (∀ s < trace.steps.length,
        net.Agree (trace.markingAfter net s) (trace'.markingAfter net s)) →
      SameVerdict (bySignature net trace) (bySignature net trace')) ∧
    (∀ trace', List.Forall₂ Step.Permutes trace.steps trace'.steps →
      SameVerdict (bySignature net trace) (bySignature net trace')) ∧
    (∀ trace', trace'.Lists net → trace'.Completes trace net →
      SameVerdict (bySignature net trace) (bySignature net trace')) := by
  have hagree (trace' : SnapshotTrace) (h' : trace'.Lists net) (hkinds : trace'.kinds = trace.kinds)
      (hmarkings : ∀ s < trace.steps.length,
        net.Agree (trace.markingAfter net s) (trace'.markingAfter net s)) :
      SameVerdict (bySignature net trace) (bySignature net trace') := by
    rw [bySignature_eq_lookUp, bySignature_eq_lookUp, lookUp_eq_lookUpFrom h.toDescribes,
      lookUp_eq_lookUpFrom h'.toDescribes]
    exact (sameVerdict_lookUpFrom h h' hkinds hmarkings 0).map _
  have hcompletes (trace' : SnapshotTrace) (h' : trace'.Lists net)
      (hcompletes : trace'.Completes trace net) :
      SameVerdict (bySignature net trace) (bySignature net trace') :=
    hagree trace' h' hcompletes.kinds fun s _ ↦ hcompletes.agree h' s
  refine ⟨hagree, fun trace' hpermutes ↦ ?_, hcompletes⟩
  exact hcompletes trace' (h.of_permutes hpermutes) (h.completes_of_permutes hpermutes)

/-- The report of `paymentTrace` with all places in each step. -/
def paymentListing : SnapshotTrace :=
  ⟨[⟨.initial, [("start", 1), ("ready", 0), ("end", 0)]⟩,
    ⟨.move .tau, [("end", 0), ("ready", 1), ("start", 0)]⟩,
    ⟨.move .model, [("end", 1), ("start", 0), ("ready", 0)]⟩]⟩

/-- A move that reports more tokens than `payment` can move. -/
def jumpTrace (records : List (String × UInt64)) : SnapshotTrace :=
  ⟨[⟨.initial, []⟩, ⟨.move .log, records⟩]⟩

/-- The complete report gives the outcome of the sparse one. The error about a jump names the place
that is listed first, and the same step. -/
theorem sameVerdict_bySignature_payment :
    let jump := jumpTrace [("start", 100), ("end", 100)]
    let jump' := jumpTrace [("end", 100), ("start", 100)]
    paymentTrace.Lists payment ∧ paymentListing.Lists payment ∧
    paymentListing.Completes paymentTrace payment ∧
    (∃ outcome, bySignature payment paymentTrace = .ok outcome ∧
      bySignature payment paymentListing = .ok outcome) ∧
    jump.Lists payment ∧ List.Forall₂ Step.Permutes jump.steps jump'.steps ∧
    bySignature payment jump = .error (.unknownSignature 1 "LOG-[start 1 -> 100]") ∧
    ∃ key, bySignature payment jump' = .error (.unknownSignature 1 key) := by
  intro jump jump'
  have hsparse : paymentTrace.Lists payment := ⟨by constructor <;> decide, by decide⟩
  have hlisting : paymentListing.Lists payment := ⟨by constructor <;> decide, by decide⟩
  have hjump : jump.Lists payment := ⟨by constructor <;> decide, by decide⟩
  have hcompletes : paymentListing.Completes paymentTrace payment := by
    refine ⟨rfl, fun s ↦ ?_, fun s ↦ ?_⟩
    · match s with
      | 0 | 1 | 2 => decide
      | s + 3 => exact List.nil_subset _
    · match s with
      | 0 | 1 | 2 => decide +kernel
      | s + 3 => exact nofun
  have hpermutes : List.Forall₂ Step.Permutes jump.steps jump'.steps :=
    .cons ⟨rfl, .refl _⟩ (.cons ⟨rfl, .swap _ _ _⟩ .nil)
  have hfound : bySignature payment paymentTrace = .ok ⟨payment.transitions.map Move.ofTransition,
      .ofList [("check", 1), ("t1", 1)]⟩ := by decide +kernel
  have hmissed : bySignature payment jump =
      .error (.unknownSignature 1 "LOG-[start 1 -> 100]") := by decide +kernel
  have hsame := (sameVerdict_bySignature hsparse).2.2 paymentListing hlisting hcompletes
  have hsame' := (sameVerdict_bySignature hjump).2.1 jump' hpermutes
  exact ⟨hsparse, hlisting, hcompletes, ⟨_, hfound, hsame.eq_ok hfound⟩, hjump, hpermutes, hmissed,
    hsame'.exists_eq_error hmissed⟩

end Replay

end PetriAlign
