import Mathlib.Data.List.Basic
import PetriAlign.Proofs.Except
import PetriAlign.Proofs.Net.Takes
import PetriAlign.Proofs.Replay.Explanation
import PetriAlign.Replay.Signature

/-!
# Looking up what a step touches

The records of a step say by how much each count falls or rises. If no place is recorded twice, the
sides that a replay by signatures collects list each place once for each token, however the records
are ordered. The signature of both sides then finds the transition of the step.
-/

namespace PetriAlign

theorem Step.moveKind_eq_ok_iff {step : Step} {number : Nat} {kind : TransitionKind} :
    step.moveKind number = .ok kind ↔ step.kind = .move kind := by
  rw [moveKind]
  cases step.kind with
  | initial => exact ⟨nofun, nofun⟩
  | move other => rw [Except.ok.injEq, StepKind.move.injEq]

theorem Net.isSome_place?_iff {net : Net} {id : String} :
    (net.place? id).isSome ↔ id ∈ net.placeIds := by
  rw [Net.place?, List.find?_isSome, Net.placeIds, List.mem_map]
  simp only [decide_eq_true_eq]

namespace Replay

variable {net : Net} {number : Nat} {kind : TransitionKind} {p : String} {m : Marking}
  {s s' : Touched} {record : String × UInt64} {records : List (String × UInt64)}

/-- The change that a record reports. -/
def Change.ofRecord (m : Marking) (record : String × UInt64) : Change :=
  ⟨record.1, m.count record.1, record.2⟩

/-- Adds a record, however large the change. -/
def Touched.addRecord (s : Touched) (record : String × UInt64) : Touched :=
  { s.add (.ofRecord s.marking record) with marking := s.marking.insert record.1 record.2 }

theorem initialRecord_eq_putRecord : initialRecord net = putRecord net 0 := by
  funext m record
  rw [initialRecord, checkPlace, putRecord]
  simp only [Net.isSome_place?_iff]
  split <;> rfl

theorem touch_eq_ok_iff : touch net number kind s record = .ok s' ↔
    record.1 ∈ net.placeIds ∧ (Change.ofRecord s.marking record).delta ≤ net.arcs.length ∧
      s' = s.addRecord record := by
  rw [touch, checkPlace]
  simp only [Net.isSome_place?_iff]
  by_cases hp : record.1 ∈ net.placeIds
  · rw [if_pos hp]
    by_cases hdelta : (Change.ofRecord s.marking record).delta ≤ net.arcs.length
    · simp only [hp, hdelta, true_and]
      rw [← Nat.not_lt, Change.ofRecord] at hdelta
      simp only [bind, Except.bind, if_neg hdelta]
      exact ⟨fun h ↦ (Except.ok.inj h).symm, fun h ↦ h ▸ rfl⟩
    · simp only [hdelta, false_and, and_false, iff_false]
      rw [Nat.not_le, Change.ofRecord] at hdelta
      simp only [bind, Except.bind, if_pos hdelta]
      exact nofun
  · simp only [hp, false_and, iff_false]
    exact nofun

/-- A record changes no count but that of its own place. -/
theorem Change.ofRecord_addRecord {later : String × UInt64} (hne : record.1 ≠ later.1) :
    Change.ofRecord (s.addRecord record).marking later = Change.ofRecord s.marking later := by
  rw [Change.ofRecord, Touched.addRecord, Marking.count_insert, if_neg hne, Change.ofRecord]

/-- Touching succeeds exactly if all places are declared and no change is larger than the net
allows. A place that is recorded once changes from its count before the step. -/
theorem foldlM_touch_eq_ok_iff (hrecords : (records.map (·.1)).Nodup) :
    records.foldlM (touch net number kind) s = .ok s' ↔
      (∀ record ∈ records, record.1 ∈ net.placeIds ∧
        (Change.ofRecord s.marking record).delta ≤ net.arcs.length) ∧
      s' = records.foldl Touched.addRecord s := by
  induction records generalizing s with
  | nil =>
    rw [List.foldlM_nil, List.foldl_nil]
    exact ⟨fun h ↦ ⟨nofun, (Except.ok.inj h).symm⟩, fun h ↦ h.2 ▸ rfl⟩
  | cons record records ih =>
    rw [List.map_cons, List.nodup_cons] at hrecords
    have hlater (later : String × UInt64) (hmem : later ∈ records) :
        Change.ofRecord (s.addRecord record).marking later = Change.ofRecord s.marking later := by
      apply Change.ofRecord_addRecord
      intro heq
      exact hrecords.1 (heq ▸ List.mem_map_of_mem hmem)
    have hrest : records.foldlM (touch net number kind) (s.addRecord record) = .ok s' ↔
        (∀ record ∈ records, record.1 ∈ net.placeIds ∧
          (Change.ofRecord s.marking record).delta ≤ net.arcs.length) ∧
        s' = records.foldl Touched.addRecord (s.addRecord record) := by
      rw [ih hrecords.2]
      apply and_congr_left'
      apply forall₂_congr
      intro later hmem
      rw [hlater later hmem]
    rw [List.foldlM_cons, List.foldl_cons, List.forall_mem_cons, and_assoc, ← hrest]
    cases htouch : touch net number kind s record with
    | error e =>
      refine ⟨nofun, fun h ↦ ?_⟩
      rw [touch_eq_ok_iff.2 ⟨h.1.1, h.1.2, rfl⟩] at htouch
      cases htouch
    | ok mid =>
      obtain ⟨hp, hdelta, rfl⟩ := touch_eq_ok_iff.1 htouch
      exact ⟨fun h ↦ ⟨⟨hp, hdelta⟩, h⟩, fun h ↦ h.2⟩

theorem marking_foldl_addRecord :
    (records.foldl Touched.addRecord s).marking = s.marking.overwrite records := by
  induction records generalizing s with
  | nil => rfl
  | cons record records ih => exact ih

/-- A record adds its place to one of the sides, once for each token. -/
theorem count_addRecord (s : Touched) (record : String × UInt64) (p : String) :
    (s.addRecord record).inputs.count p = s.inputs.count p +
      (if record.1 = p then (s.marking.count p).toNat - record.2.toNat else 0) ∧
    (s.addRecord record).outputs.count p = s.outputs.count p +
      (if record.1 = p then record.2.toNat - (s.marking.count p).toNat else 0) := by
  by_cases hp : record.1 = p
  · subst hp
    unfold Touched.addRecord Touched.add Change.ofRecord Change.delta
    dsimp only
    split
    case isTrue hlt =>
      have hfalls := UInt64.lt_iff_toNat_lt.1 hlt
      simp only [List.count_append, List.count_replicate_self, if_true]
      omega
    case isFalse hge =>
      have hrises := UInt64.le_iff_toNat_le.1 (UInt64.not_lt.1 hge)
      simp only [List.count_append, List.count_replicate_self, if_true]
      omega
  · unfold Touched.addRecord Touched.add Change.ofRecord
    dsimp only
    split <;> simp [List.count_replicate, hp]

/-- Together the records of a step list each place on one side, once for each token by which its
count falls or rises. -/
theorem count_foldl_addRecord (hrecords : (records.map (·.1)).Nodup) (p : String) :
    (records.foldl Touched.addRecord s).inputs.count p = s.inputs.count p +
      ((s.marking.count p).toNat - ((s.marking.overwrite records).count p).toNat) ∧
    (records.foldl Touched.addRecord s).outputs.count p = s.outputs.count p +
      (((s.marking.overwrite records).count p).toNat - (s.marking.count p).toNat) := by
  induction records generalizing s with
  | nil => simp [Marking.overwrite]
  | cons record records ih =>
    rw [List.map_cons, List.nodup_cons] at hrecords
    obtain ⟨hin, hout⟩ := ih (s := s.addRecord record) hrecords.2
    obtain ⟨hin', hout'⟩ := count_addRecord s record p
    have hmarking : (s.addRecord record).marking = s.marking.insert record.1 record.2 := rfl
    rw [List.foldl_cons, Marking.overwrite_cons, hin, hout, hin', hout', hmarking]
    by_cases hp : record.1 = p
    · subst hp
      rw [Marking.count_overwrite_of_notMem hrecords.1, Marking.count_insert]
      simp
    · rw [Marking.count_insert]
      simp [hp]

/-- What the records of a step touch. -/
def touchedBy (m : Marking) (records : List (String × UInt64)) : Touched :=
  records.foldl Touched.addRecord ⟨m, [], []⟩

theorem count_touchedBy (hrecords : (records.map (·.1)).Nodup) (p : String) :
    (touchedBy m records).inputs.count p =
      (m.count p).toNat - ((m.overwrite records).count p).toNat ∧
    (touchedBy m records).outputs.count p =
      ((m.overwrite records).count p).toNat - (m.count p).toNat := by
  obtain ⟨hin, hout⟩ := count_foldl_addRecord (s := ⟨m, [], []⟩) hrecords p
  rw [List.count_nil, Nat.zero_add] at hin hout
  exact ⟨hin, hout⟩

/-- The signature of what the records of a step touch. -/
def touchedSignature (kind : TransitionKind) (m : Marking) (records : List (String × UInt64)) :
    String :=
  signature kind (touchedBy m records).inputs (touchedBy m records).outputs

/-! ## The transitions behind the steps -/

/-- The transitions whose signatures the steps from `number` on have. -/
def lookUpSteps (net : Net) (m : Marking) (number : Nat) :
    List Step → Except ReplayError (List Transition)
  | [] => .ok []
  | step :: rest => do
    let kind ← step.moveKind number
    let touched ← step.records.foldlM (touch net number kind) ⟨m, [], []⟩
    let key := signature kind touched.inputs touched.outputs
    match net.bySignature? key with
    | some t => return t :: (← lookUpSteps net touched.marking (number + 1) rest)
    | none => throw (.unknownSignature number key)

/-- The transitions whose signatures the moves of a trace have. -/
def lookUp (net : Net) (trace : SnapshotTrace) : Except ReplayError (List Transition) := do
  let records ← trace.initialRecords
  let start ← records.foldlM (initialRecord net) net.initialMarking
  lookUpSteps net start 1 trace.moves

theorem signatureSteps_eq_lookUpSteps (m : Marking) (outcome : ReplayOutcome) (number : Nat)
    (steps : List Step) :
    (signatureSteps net ⟨m, outcome⟩ number steps).map SignatureState.outcome =
      (lookUpSteps net m number steps).map (List.foldl ReplayOutcome.record outcome) := by
  induction steps generalizing m outcome number with
  | nil => rfl
  | cons step steps ih =>
    rw [signatureSteps, signatureStep, lookUpSteps]
    cases step.moveKind number with
    | error e => rfl
    | ok kind =>
      simp only [bind, Except.bind]
      cases step.records.foldlM (touch net number kind) ⟨m, [], []⟩ with
      | error e => rfl
      | ok touched =>
        dsimp only
        cases net.bySignature? (signature kind touched.inputs touched.outputs) with
        | none => rfl
        | some t =>
          have hrest := ih touched.marking (outcome.record t) (number + 1)
          cases hsteps : lookUpSteps net touched.marking (number + 1) steps with
          | error e =>
            rw [hsteps] at hrest
            exact hrest
          | ok ts =>
            rw [hsteps] at hrest
            exact hrest

/-- A replay by signatures records the transitions that it looks up. -/
theorem bySignature_eq_lookUp (net : Net) (trace : SnapshotTrace) :
    bySignature net trace = (lookUp net trace).map (List.foldl ReplayOutcome.record {}) := by
  rw [bySignature, lookUp]
  cases trace.initialRecords with
  | error e => rfl
  | ok records =>
    simp only [bind, Except.bind]
    cases records.foldlM (initialRecord net) net.initialMarking with
    | error e => rfl
    | ok start =>
      dsimp only
      rw [← signatureSteps_eq_lookUpSteps]
      cases signatureSteps net ⟨start, {}⟩ 1 trace.moves <;> rfl

/-- A step is looked up by what it touches alone. -/
theorem lookUpSteps_cons_eq_ok_iff {step : Step} {steps : List Step} {ts : List Transition}
    (hstep : (step.records.map (·.1)).Nodup) :
    lookUpSteps net m number (step :: steps) = .ok ts ↔ ∃ kind t rest, ts = t :: rest ∧
      step.kind = .move kind ∧
      (∀ record ∈ step.records, record.1 ∈ net.placeIds ∧
        (Change.ofRecord m record).delta ≤ net.arcs.length) ∧
      net.bySignature? (touchedSignature kind m step.records) = some t ∧
      lookUpSteps net (m.overwrite step.records) (number + 1) steps = .ok rest := by
  simp only [lookUpSteps, bind_eq_ok_iff, Step.moveKind_eq_ok_iff, foldlM_touch_eq_ok_iff hstep]
  constructor
  · rintro ⟨kind, hkind, touched, ⟨hrecords, rfl⟩, hok⟩
    split at hok
    case h_1 t ht =>
      obtain ⟨rest, hrest, hts⟩ := bind_eq_ok_iff.1 hok
      rw [marking_foldl_addRecord] at hrest
      exact ⟨kind, t, rest, (Except.ok.inj hts).symm, hkind, hrecords, ht, hrest⟩
    case h_2 => cases hok
  · rintro ⟨kind, t, rest, rfl, hkind, hrecords, ht, hrest⟩
    refine ⟨kind, hkind, _, ⟨hrecords, rfl⟩, ?_⟩
    rw [touchedSignature, touchedBy] at ht
    simp only [ht, marking_foldl_addRecord, hrest]
    rfl

end Replay

end PetriAlign
