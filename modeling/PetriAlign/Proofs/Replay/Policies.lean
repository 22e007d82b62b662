import PetriAlign.Proofs.Net.Firing
import PetriAlign.Proofs.Replay.Vector

/-!
# The two firing policies

The permissive policy moves one token for each place that a transition is joined to, the strict one
moves a token for each arc. Without parallel arcs this is the same: a transition explains a change
of vectors exactly if it fires on the marking and leads to the other vector. With parallel arcs the
strict policy still asks for no less than the permissive one.
-/

namespace PetriAlign

theorem distinct_eq_self {ids : List String} (h : ids.Nodup) : distinct ids = ids := by
  induction ids with
  | nil => rfl
  | cons x ids ih =>
    rw [List.nodup_cons] at h
    rw [distinct_cons, ih h.2, if_neg h.1]

/-! ## Permissive firing as arithmetic -/

namespace Marking

variable {m m' : Marking} {places : List String}

/-- A place without a token stays without. -/
theorem toNat_count_takeToken (m : Marking) (p q : String) :
    ((m.takeToken p).count q).toNat = (m.count q).toNat - if p = q then 1 else 0 := by
  by_cases hpq : p = q
  · subst hpq
    rw [if_pos rfl]
    unfold takeToken
    cases hget : m.get? p with
    | none =>
      rw [count_eq_zero hget]
      rfl
    | some n =>
      have hcount : m.count p = n := by rw [count, hget, Option.getD_some]
      rw [hcount]
      dsimp only
      split
      case isTrue hle =>
        have hnone : count (m.erase p) p = 0 := count_eq_zero (by rw [Table.get?_erase, if_pos rfl])
        have hn : n.toNat ≤ 1 := UInt64.le_iff_toNat_le.1 hle
        rw [hnone]
        change 0 = n.toNat - 1
        omega
      case isFalse hgt =>
        have hn : 1 < n.toNat := UInt64.lt_iff_toNat_lt.1 (UInt64.not_le.1 hgt)
        rw [count_insert, if_pos rfl, UInt64.toNat_sub_of_le]
        · rfl
        · exact UInt64.le_iff_toNat_le.2 (Nat.le_of_lt hn)
  · rw [if_neg hpq, Nat.sub_zero, count, get?_takeToken hpq, count]

theorem toNat_count_foldl_takeToken (places : List String) (m : Marking) (q : String) :
    ((places.foldl takeToken m).count q).toNat = (m.count q).toNat - places.count q := by
  induction places generalizing m with
  | nil => rfl
  | cons p places ih =>
    rw [List.foldl_cons, ih, toNat_count_takeToken, List.count_cons]
    simp only [beq_iff_eq]
    omega

theorem putToken?_eq_some_iff {p : String} :
    m.putToken? p = some m' ↔ (m.count p).toNat + 1 < 2 ^ 64 ∧ m.insert p (m.count p + 1) = m' := by
  have hlt := (m.count p).toNat_lt
  have hmax : m.count p = maxCount ↔ ¬ (m.count p).toNat + 1 < 2 ^ 64 := by
    rw [← UInt64.toNat_inj]
    change (m.count p).toNat = 2 ^ 64 - 1 ↔ _
    omega
  unfold putToken?
  dsimp only
  split
  case isTrue hfull => exact ⟨nofun, fun h ↦ absurd h.1 (hmax.1 hfull)⟩
  case isFalse hfree => rw [Option.some.injEq, and_iff_right (not_not.1 (mt hmax.2 hfree))]

theorem toNat_count_putToken? {p : String} (h : m.putToken? p = some m') (q : String) :
    (m'.count q).toNat = (m.count q).toNat + if p = q then 1 else 0 := by
  obtain ⟨hroom, rfl⟩ := putToken?_eq_some_iff.1 h
  rw [count_insert]
  split
  case isTrue hpq =>
    subst hpq
    rw [UInt64.toNat_add]
    exact Nat.mod_eq_of_lt hroom
  case isFalse => rw [Nat.add_zero]

theorem toNat_count_foldlM_putToken? (h : places.foldlM putToken? m = some m') (q : String) :
    (m'.count q).toNat = (m.count q).toNat + places.count q := by
  induction places generalizing m with
  | nil =>
    obtain rfl := Option.some.inj h
    rfl
  | cons p places ih =>
    rw [List.foldlM_cons, Option.bind_eq_bind, Option.bind_eq_some_iff] at h
    obtain ⟨next, hnext, hrest⟩ := h
    rw [ih hrest, toNat_count_putToken? hnext, List.count_cons]
    simp only [beq_iff_eq]
    omega

/-- Tokens can be put wherever there is room for them. -/
theorem exists_foldlM_putToken?
    (h : ∀ p ∈ places, (m.count p).toNat + places.count p < 2 ^ 64) :
    ∃ m', places.foldlM putToken? m = some m' := by
  induction places generalizing m with
  | nil => exact ⟨m, rfl⟩
  | cons p places ih =>
    have hp := h p List.mem_cons_self
    rw [List.count_cons_self] at hp
    have hnext : m.putToken? p = some (m.insert p (m.count p + 1)) :=
      putToken?_eq_some_iff.2 ⟨by omega, rfl⟩
    rw [List.foldlM_cons, hnext]
    apply ih
    intro q hq
    have hroom := h q (List.mem_cons_of_mem p hq)
    rw [List.count_cons] at hroom
    simp only [beq_iff_eq] at hroom
    rw [toNat_count_putToken? hnext]
    omega

end Marking

/-! ## Nets without parallel arcs -/

/-- Whether there is a token for each input arc. -/
def IndexedTransition.isEnabled (t : IndexedTransition) (v : MarkingVector) : Bool :=
  (t.inputs.foldlM MarkingVector.take? v).isSome

namespace Net

/-- No two arcs have the same source and the same target. -/
def NoParallelArcs (net : Net) : Prop := (net.arcs.map fun a ↦ (a.source, a.target)).Nodup

instance (net : Net) : Decidable net.NoParallelArcs := inferInstanceAs (Decidable (List.Nodup _))

variable {net : Net} {t : Transition} {m m' : Marking} {id p : String}

theorem canFire_iff : net.canFire id m = true ↔ ∀ p ∈ net.preset id, 0 < m.count p := by
  simp [canFire]

/-- Arcs at one node are told apart by their other node. -/
theorem nodup_map_filter (h : net.NoParallelArcs) {touches : Arc → Bool} {other : Arc → String}
    (hother : ∀ a b, touches a = true → touches b = true → other a = other b →
      (a.source, a.target) = (b.source, b.target)) :
    ((net.arcs.filter touches).map other).Nodup := by
  rw [NoParallelArcs, List.Nodup, List.pairwise_map] at h
  rw [List.Nodup, List.pairwise_map]
  apply (h.filter touches).imp_of_mem
  intro a b ha hb hne heq
  exact hne (hother a b (List.mem_filter.1 ha).2 (List.mem_filter.1 hb).2 heq)

theorem nodup_preset (h : net.NoParallelArcs) (id : String) : (net.preset id).Nodup := by
  apply nodup_map_filter h
  intro a b ha hb hsource
  rw [hsource, of_decide_eq_true ha, of_decide_eq_true hb]

theorem nodup_postset (h : net.NoParallelArcs) (id : String) : (net.postset id).Nodup := by
  apply nodup_map_filter h
  intro a b ha hb htarget
  rw [htarget, of_decide_eq_true ha, of_decide_eq_true hb]

theorem fire_eq (h : net.NoParallelArcs) (id : String) (m : Marking) :
    net.fire id m =
      (net.postset id).foldlM Marking.putToken? ((net.preset id).foldl Marking.takeToken m) := by
  rw [fire, distinct_eq_self (nodup_preset h id), distinct_eq_self (nodup_postset h id)]

/-- A firing moves a token for each arc. -/
theorem toNat_count_fire (h : net.NoParallelArcs) (hfire : net.fire id m = some m') (p : String) :
    (m'.count p).toNat = (m.count p).toNat - net.arcCount p id + net.arcCount id p := by
  rw [fire_eq h] at hfire
  rw [Marking.toNat_count_foldlM_putToken? hfire, Marking.toNat_count_foldl_takeToken,
    count_preset, count_postset]

theorem exists_fire (h : net.NoParallelArcs)
    (hroom : ∀ p ∈ net.postset id,
      (m.count p).toNat - net.arcCount p id + net.arcCount id p < 2 ^ 64) :
    ∃ m', net.fire id m = some m' := by
  rw [fire_eq h]
  apply Marking.exists_foldlM_putToken?
  intro p hp
  rw [Marking.toNat_count_foldl_takeToken, count_preset, count_postset]
  exact hroom p hp

/-- An enabled transition has a token on each of its input places. -/
theorem arcCount_le_of_canFire (h : net.NoParallelArcs) (hcan : net.canFire id m = true)
    (p : String) : net.arcCount p id ≤ (m.count p).toNat := by
  rw [← count_preset]
  by_cases hp : p ∈ net.preset id
  · have hpos : 0 < (m.count p).toNat := UInt64.lt_iff_toNat_lt.1 (canFire_iff.1 hcan p hp)
    have hone : (net.preset id).count p ≤ 1 := List.nodup_iff_count_le_one.1 (nodup_preset h id) p
    omega
  · rw [List.count_eq_zero.2 hp]
    exact Nat.zero_le _

/-- With a token for each input arc there is one on each input place. -/
theorem canFire_of_arcCount_le (hnet : net.WellJoined) (ht : t ∈ net.transitions)
    (h : ∀ p ∈ net.placeIds, net.arcCount p t.id ≤ (m.count p).toNat) :
    net.canFire t.id m = true := by
  rw [canFire_iff]
  intro p hp
  have hle := h p (mem_placeIds_of_mem_preset hnet (List.mem_map_of_mem ht) hp)
  have hpos : 0 < net.arcCount p t.id := by
    rw [← count_preset]
    exact List.count_pos_iff.2 hp
  exact UInt64.lt_iff_toNat_lt.2 (Nat.lt_of_lt_of_le hpos hle)

/-- Without parallel arcs the strict rule leads where a permissive firing leads. -/
theorem takes_iff_fires (hnet : net.WellJoined) (h : net.NoParallelArcs)
    (ht : t ∈ net.transitions) {after : Marking} :
    net.Takes t m after ↔
      net.canFire t.id m = true ∧ ∃ m', net.fire t.id m = some m' ∧ net.Agree m' after := by
  constructor
  · intro htakes
    have hroom (p : String) (hp : p ∈ net.postset t.id) :
        (m.count p).toNat - net.arcCount p t.id + net.arcCount t.id p < 2 ^ 64 :=
      (htakes p (mem_placeIds_of_mem_postset hnet (List.mem_map_of_mem ht) hp)).2.1
    obtain ⟨m', hfire⟩ := exists_fire h hroom
    refine ⟨canFire_of_arcCount_le hnet ht fun p hp ↦ (htakes p hp).1, m', hfire, ?_⟩
    intro p hp
    apply UInt64.toNat_inj.1
    rw [toNat_count_fire h hfire, (htakes p hp).2.2]
  · rintro ⟨hcan, m', hfire, hagree⟩ p hp
    have hcount := toNat_count_fire h hfire p
    have hlt := (m'.count p).toNat_lt
    rw [← hagree p hp]
    exact ⟨arcCount_le_of_canFire h hcan p, hcount ▸ hlt, hcount⟩

/-! ## Vectors -/

/-- Strict enabledness as arithmetic. -/
theorem isEnabled_counts_iff (hnet : net.WellJoined) (ht : t ∈ net.transitions) :
    (net.indexTransition net.placeIndex t).isEnabled (net.counts m) = true ↔
      ∀ p ∈ net.placeIds, net.arcCount p t.id ≤ (m.count p).toNat := by
  have hpre (p : String) (hp : p ∈ net.preset t.id) : p ∈ net.placeIds :=
    mem_placeIds_of_mem_preset hnet (List.mem_map_of_mem ht) hp
  rw [IndexedTransition.isEnabled, Option.isSome_iff_exists]
  simp only [indexTransition, foldlM_take?_counts hnet hpre, count_preset]
  constructor
  · rintro ⟨_, m', rfl, hm'⟩ p hp
    exact (hm' p hp).1
  · intro hle
    obtain ⟨m', hm'⟩ := Marking.exists_count_eq net.placeIds
      fun p ↦ UInt64.ofNat ((m.count p).toNat - net.arcCount p t.id)
    refine ⟨_, m', rfl, fun p hp ↦ ⟨hle p hp, ?_⟩⟩
    have hlt := (m.count p).toNat_lt
    rw [hm' p hp]
    exact UInt64.toNat_ofNat_of_lt' (Nat.lt_of_le_of_lt (Nat.sub_le _ _) hlt)

/-- What is explained from the vector of a marking is the vector of a marking. -/
theorem exists_counts_of_explains (hnet : net.WellJoined) (ht : t ∈ net.transitions)
    {v : MarkingVector}
    (h : (net.indexTransition net.placeIndex t).explains (net.counts m) v = true) :
    ∃ after, v = net.counts after := by
  have hid : t.id ∈ net.transitionIds := List.mem_map_of_mem ht
  have hpre (p : String) (hp : p ∈ net.preset t.id) : p ∈ net.placeIds :=
    mem_placeIds_of_mem_preset hnet hid hp
  have hpost (p : String) (hp : p ∈ net.postset t.id) : p ∈ net.placeIds :=
    mem_placeIds_of_mem_postset hnet hid hp
  rw [IndexedTransition.explains, decide_eq_true_iff, IndexedTransition.fire?,
    Option.bind_eq_bind, Option.bind_eq_some_iff] at h
  obtain ⟨_, htake, hput⟩ := h
  obtain ⟨mid, rfl, -⟩ := (foldlM_take?_counts hnet hpre).1 htake
  obtain ⟨after, hafter, -⟩ := (foldlM_put?_counts hnet hpost).1 hput
  exact ⟨after, hafter⟩

/-- Without parallel arcs, a transition explains the change of a marking into a vector exactly if it
can fire and its firing leads to that vector. With parallel arcs, what is enabled for the strict
policy can fire. -/
theorem explains_toVector_iff_fires (hnet : net.WellJoined) (ht : t ∈ net.transitions)
    (m : Marking) :
    (net.NoParallelArcs → ∀ v : MarkingVector,
      (net.indexTransition net.placeIndex t).explains (net.placeIndex.toVector m) v = true ↔
        net.canFire t.id m = true ∧
          ∃ m', net.fire t.id m = some m' ∧ net.placeIndex.toVector m' = v) ∧
    ((net.indexTransition net.placeIndex t).isEnabled (net.placeIndex.toVector m) = true →
      net.canFire t.id m = true) := by
  simp only [toVector_placeIndex hnet]
  constructor
  · intro h v
    constructor
    · intro hexplains
      obtain ⟨after, rfl⟩ := exists_counts_of_explains hnet ht hexplains
      have htakes := (explains_counts_iff hnet ht).1 hexplains
      simpa only [counts_eq_iff] using (takes_iff_fires hnet h ht).1 htakes
    · rintro ⟨hcan, m', hfire, rfl⟩
      apply (explains_counts_iff hnet ht).2
      exact (takes_iff_fires hnet h ht).2 ⟨hcan, m', hfire, fun _ _ ↦ rfl⟩
  · intro henabled
    exact canFire_of_arcCount_le hnet ht ((isEnabled_counts_iff hnet ht).1 henabled)

/-- A pass that is shown `times` times at the gate and kept. -/
def gate (times : Nat) : Net where
  places := [⟨"pass", "pass", 1, none, .model⟩, ⟨"inside", "inside", 0, none, .model⟩]
  transitions := [⟨"enter", "enter", "enter", .model⟩]
  arcs := List.replicate times ⟨"show", "pass", "enter"⟩ ++
    [⟨"keep", "enter", "pass"⟩, ⟨"pass on", "enter", "inside"⟩]

/-- The largest count on a place of a self-loop is no overflow, and an entry of zero is no token. If
the pass has to be shown twice, one token is enough for the permissive policy only. -/
theorem explains_toVector_iff_fires_gate :
    let enter : Transition := ⟨"enter", "enter", "enter", .model⟩
    let full : Marking := .ofList [("inside", 0), ("pass", Marking.maxCount)]
    let pair : Marking := .ofList [("pass", 2)]
    let one : Marking := .ofList [("pass", 1)]
    (gate 1).WellJoined ∧ (gate 2).WellJoined ∧ enter ∈ (gate 1).transitions ∧
    enter ∈ (gate 2).transitions ∧ (gate 1).NoParallelArcs ∧ ¬ (gate 2).NoParallelArcs ∧
    ((gate 1).indexTransition (gate 1).placeIndex enter).explains
      ((gate 1).placeIndex.toVector full) [Marking.maxCount, 1] = true ∧
    ((gate 1).canFire "enter" full = true ∧ ∃ m', (gate 1).fire "enter" full = some m' ∧
      (gate 1).placeIndex.toVector m' = [Marking.maxCount, 1]) ∧
    ((gate 2).indexTransition (gate 2).placeIndex enter).isEnabled
      ((gate 2).placeIndex.toVector pair) = true ∧ (gate 2).canFire "enter" pair = true ∧
    ((gate 2).indexTransition (gate 2).placeIndex enter).isEnabled
      ((gate 2).placeIndex.toVector one) = false ∧ (gate 2).canFire "enter" one = true := by
  intro enter full pair one
  have hnet : (gate 1).WellJoined := by
    constructor <;> decide
  have hnet' : (gate 2).WellJoined := by
    constructor <;> decide
  have ht : enter ∈ (gate 1).transitions := by decide
  have ht' : enter ∈ (gate 2).transitions := by decide
  have hsingle : (gate 1).NoParallelArcs := by decide
  have hexplains : ((gate 1).indexTransition (gate 1).placeIndex enter).explains
      ((gate 1).placeIndex.toVector full) [Marking.maxCount, 1] = true := by decide
  have henabled : ((gate 2).indexTransition (gate 2).placeIndex enter).isEnabled
      ((gate 2).placeIndex.toVector pair) = true := by decide
  exact ⟨hnet, hnet', ht, ht', hsingle, by decide, hexplains,
    ((explains_toVector_iff_fires hnet ht full).1 hsingle _).1 hexplains, henabled,
    (explains_toVector_iff_fires hnet' ht' pair).2 henabled, by decide, by decide⟩

end Net

end PetriAlign
