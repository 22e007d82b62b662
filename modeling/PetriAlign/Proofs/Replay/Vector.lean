import PetriAlign.Proofs.Net.Takes
import PetriAlign.Replay.Vector

/-!
# Markings as vectors

On a net whose places have distinct ids, the vector of a marking lists its counts in declaration
order. Putting records over the vector and firing a transition on it are then the same as on the
marking itself.
-/

namespace PetriAlign

namespace PlaceIndex

theorem lastIndex?_eq_none_iff {id : String} {ids : List String} :
    lastIndex? id ids = none ↔ id ∉ ids := by
  induction ids with
  | nil => simp [lastIndex?]
  | cons x ids ih =>
    cases h : lastIndex? id ids with
    | none => grind [lastIndex?]
    | some i => grind [lastIndex?]

theorem lastIndex?_eq_some_iff {id : String} {ids : List String} (hids : ids.Nodup) {i : Nat} :
    lastIndex? id ids = some i ↔ ids[i]? = some id := by
  induction ids generalizing i with
  | nil => simp [lastIndex?]
  | cons x ids ih =>
    obtain ⟨hx, hrest⟩ := List.nodup_cons.1 hids
    cases h : lastIndex? id ids with
    | none =>
      have hid := lastIndex?_eq_none_iff.1 h
      cases i with
      | zero => simp [lastIndex?, h]
      | succ i =>
        simp only [lastIndex?, h, List.getElem?_cons_succ]
        constructor
        · intro hi
          split at hi <;> simp at hi
        · intro hi
          exact absurd (List.mem_of_getElem? hi) hid
    | some j =>
      have hj := (ih hrest).1 h
      cases i with
      | zero =>
        simp only [lastIndex?, h, List.getElem?_cons_zero, Option.some.injEq]
        constructor
        · intro hi
          omega
        · rintro rfl
          exact absurd (List.mem_of_getElem? hj) hx
      | succ i =>
        rw [List.getElem?_cons_succ, ← ih hrest, h]
        simp [lastIndex?, h]

end PlaceIndex

namespace Net

variable {net : Net} {m m' : Marking} {p : String}

/-- The counts of a marking on the places of the net, in declaration order. -/
def counts (net : Net) (m : Marking) : MarkingVector := net.placeIds.map m.count

theorem counts_eq_iff : net.counts m = net.counts m' ↔ net.Agree m m' := by
  simp [counts, Agree, List.map_inj_left]

theorem position?_eq_none_iff : net.placeIndex.position? p = none ↔ p ∉ net.placeIds :=
  PlaceIndex.lastIndex?_eq_none_iff

theorem getElem?_of_position? (hnet : net.WellJoined) {i : Nat}
    (hi : net.placeIndex.position? p = some i) : net.placeIds[i]? = some p :=
  (PlaceIndex.lastIndex?_eq_some_iff hnet.places_nodup).1 hi

theorem exists_position? (hp : p ∈ net.placeIds) : ∃ i, net.placeIndex.position? p = some i :=
  Option.ne_none_iff_exists'.1 fun h ↦ position?_eq_none_iff.1 h hp

/-- Setting the number of a place in the vector sets its count in the marking. -/
theorem set_counts (hnet : net.WellJoined) {i : Nat} (hi : net.placeIndex.position? p = some i)
    (n : UInt64) : (net.counts m).set i n = net.counts (m.insert p n) := by
  have hp := getElem?_of_position? hnet hi
  apply List.ext_getElem?
  intro j
  rw [List.getElem?_set, counts, counts, List.getElem?_map, List.getElem?_map, List.length_map]
  cases hj : net.placeIds[j]? with
  | none =>
    have hlt : i < net.placeIds.length := (List.getElem?_eq_some_iff.1 hp).1
    have hne : i ≠ j := by
      rintro rfl
      simp [hj] at hp
    simp [hne]
  | some q =>
    have hlt : i < net.placeIds.length := (List.getElem?_eq_some_iff.1 hp).1
    have hiff : i = j ↔ p = q := by
      constructor
      · intro hij
        rw [hij, hj] at hp
        exact (Option.some.inj hp).symm
      · intro hpq
        apply (List.getElem?_inj hlt hnet.places_nodup).1
        rw [hp, hj, hpq]
    by_cases hpq : p = q
    · simp [Marking.count_insert, hiff, hlt, hpq]
    · simp [Marking.count_insert, hiff, hpq]

theorem getElem?_counts (hnet : net.WellJoined) {i : Nat}
    (hi : net.placeIndex.position? p = some i) : (net.counts m)[i]? = some (m.count p) := by
  rw [counts, List.getElem?_map, getElem?_of_position? hnet hi]
  rfl

theorem take?_counts (hnet : net.WellJoined) {i : Nat}
    (hi : net.placeIndex.position? p = some i) :
    MarkingVector.take? (net.counts m) i =
      if m.count p = 0 then none else some (net.counts (m.insert p (m.count p - 1))) := by
  rw [MarkingVector.take?, getElem?_counts hnet hi, ← set_counts hnet hi]

theorem put?_counts (hnet : net.WellJoined) {i : Nat}
    (hi : net.placeIndex.position? p = some i) :
    MarkingVector.put? (net.counts m) i =
      if m.count p = Marking.maxCount then none
      else some (net.counts (m.insert p (m.count p + 1))) := by
  rw [MarkingVector.put?, getElem?_counts hnet hi, ← set_counts hnet hi]

/-- Taking tokens off places one by one takes as many as the list has entries. -/
theorem foldlM_take?_counts (hnet : net.WellJoined) {places : List String}
    (hplaces : ∀ p ∈ places, p ∈ net.placeIds) {v : MarkingVector} :
    (places.filterMap net.placeIndex.position?).foldlM MarkingVector.take? (net.counts m) =
        some v ↔
      ∃ m', v = net.counts m' ∧ ∀ p ∈ net.placeIds, places.count p ≤ (m.count p).toNat ∧
        (m'.count p).toNat = (m.count p).toNat - places.count p := by
  induction places generalizing m with
  | nil =>
    simp only [List.filterMap_nil, List.foldlM_nil, List.count_nil]
    constructor
    · rintro ⟨⟩
      exact ⟨m, rfl, fun p _ ↦ ⟨Nat.zero_le _, rfl⟩⟩
    · rintro ⟨m', rfl, hm⟩
      exact congrArg some (counts_eq_iff.2 fun p hp ↦ UInt64.toNat_inj.1 (hm p hp).2.symm)
  | cons q places ih =>
    obtain ⟨i, hi⟩ := exists_position? (hplaces q (by simp))
    rw [List.filterMap_cons_some hi, List.foldlM_cons, take?_counts hnet hi]
    split
    case isTrue hzero =>
      refine ⟨fun h ↦ by simp at h, ?_⟩
      rintro ⟨m', -, hm⟩
      have hq := (hm q (hplaces q (by simp))).1
      simp [hzero] at hq
    case isFalse hpos =>
      have hlt : 0 < (m.count q).toNat := by
        rw [Nat.pos_iff_ne_zero]
        exact fun h ↦ hpos (UInt64.toNat_inj.1 h)
      have hsub : (m.count q - 1).toNat = (m.count q).toNat - 1 := by
        rw [UInt64.toNat_sub_of_le]
        · rfl
        · exact UInt64.le_iff_toNat_le.2 hlt
      rw [Option.bind_eq_bind, Option.bind_some, ih fun p hp ↦ hplaces p (by simp [hp])]
      apply exists_congr
      intro m'
      apply and_congr_right
      intro _
      apply forall₂_congr
      intro p _
      rw [Marking.count_insert, List.count_cons]
      by_cases hpq : q = p
      · subst hpq
        simp only [if_pos, hsub, beq_self_eq_true]
        omega
      · simp [hpq]

/-- Putting tokens on places one by one puts as many as the list has entries, if all counts stay
within 64 bits. -/
theorem foldlM_put?_counts (hnet : net.WellJoined) {places : List String}
    (hplaces : ∀ p ∈ places, p ∈ net.placeIds) {v : MarkingVector} :
    (places.filterMap net.placeIndex.position?).foldlM MarkingVector.put? (net.counts m) =
        some v ↔
      ∃ m', v = net.counts m' ∧ ∀ p ∈ net.placeIds,
        (m'.count p).toNat = (m.count p).toNat + places.count p := by
  induction places generalizing m with
  | nil =>
    simp only [List.filterMap_nil, List.foldlM_nil, List.count_nil]
    constructor
    · rintro ⟨⟩
      exact ⟨m, rfl, fun p _ ↦ rfl⟩
    · rintro ⟨m', rfl, hm⟩
      exact congrArg some (counts_eq_iff.2 fun p hp ↦ UInt64.toNat_inj.1 (hm p hp).symm)
  | cons q places ih =>
    obtain ⟨i, hi⟩ := exists_position? (hplaces q (by simp))
    rw [List.filterMap_cons_some hi, List.foldlM_cons, put?_counts hnet hi]
    split
    case isTrue hmax =>
      refine ⟨fun h ↦ by simp at h, ?_⟩
      rintro ⟨m', -, hm⟩
      have hq := hm q (hplaces q (by simp))
      have hlt := (m'.count q).toNat_lt
      have hval : Marking.maxCount.toNat = 2 ^ 64 - 1 := by decide
      rw [hmax, List.count_cons_self, hval] at hq
      omega
    case isFalse hroom =>
      have hadd : (m.count q + 1).toNat = (m.count q).toNat + 1 := by
        have hne : (m.count q).toNat ≠ 2 ^ 64 - 1 := fun h ↦ hroom (UInt64.toNat_inj.1 h)
        have hlt := (m.count q).toNat_lt
        rw [UInt64.toNat_add]
        change ((m.count q).toNat + 1) % 2 ^ 64 = (m.count q).toNat + 1
        omega
      rw [Option.bind_eq_bind, Option.bind_some, ih fun p hp ↦ hplaces p (by simp [hp])]
      apply exists_congr
      intro m'
      apply and_congr_right
      intro _
      apply forall₂_congr
      intro p _
      rw [Marking.count_insert, List.count_cons]
      by_cases hpq : q = p
      · subst hpq
        simp only [if_pos, hadd, beq_self_eq_true]
        omega
      · simp [hpq]

theorem mem_placeIds_of_mem_preset (hnet : net.WellJoined) {t : String}
    (ht : t ∈ net.transitionIds) (hp : p ∈ net.preset t) : p ∈ net.placeIds := by
  simp only [preset, List.mem_map, List.mem_filter, decide_eq_true_eq] at hp
  obtain ⟨a, ⟨ha, rfl⟩, rfl⟩ := hp
  rcases hnet.joined a ha with h | h
  · exact h.1
  · exact absurd ht (hnet.apart _ h.2)

theorem mem_placeIds_of_mem_postset (hnet : net.WellJoined) {t : String}
    (ht : t ∈ net.transitionIds) (hp : p ∈ net.postset t) : p ∈ net.placeIds := by
  simp only [postset, List.mem_map, List.mem_filter, decide_eq_true_eq] at hp
  obtain ⟨a, ⟨ha, rfl⟩, rfl⟩ := hp
  rcases hnet.joined a ha with h | h
  · exact absurd ht (hnet.apart _ h.1)
  · exact h.2

/-- A transition explains a change of vectors exactly if it takes one marking to the other. -/
theorem explains_counts_iff (hnet : net.WellJoined) {t : Transition} (ht : t ∈ net.transitions) :
    (net.indexTransition net.placeIndex t).explains (net.counts m) (net.counts m') = true ↔
      net.Takes t m m' := by
  have hid : t.id ∈ net.transitionIds := List.mem_map_of_mem ht
  have hpre (p : String) (hp : p ∈ net.preset t.id) : p ∈ net.placeIds :=
    mem_placeIds_of_mem_preset hnet hid hp
  have hpost (p : String) (hp : p ∈ net.postset t.id) : p ∈ net.placeIds :=
    mem_placeIds_of_mem_postset hnet hid hp
  rw [IndexedTransition.explains, decide_eq_true_iff]
  simp only [IndexedTransition.fire?, indexTransition, Option.bind_eq_bind,
    Option.bind_eq_some_iff, foldlM_take?_counts hnet hpre, count_preset]
  constructor
  · rintro ⟨_, ⟨mid, rfl, hmid⟩, hput⟩
    obtain ⟨m'', heq, hm''⟩ := (foldlM_put?_counts hnet hpost).1 hput
    intro p hp
    have hcount : m'.count p = m''.count p := counts_eq_iff.1 heq p hp
    have hlt := (m'.count p).toNat_lt
    have htake := hmid p hp
    have hput' := hm'' p hp
    rw [count_postset, ← hcount, htake.2] at hput'
    exact ⟨htake.1, by omega, hput'⟩
  · intro h
    obtain ⟨mid, hmid⟩ := Marking.exists_count_eq net.placeIds
      fun p ↦ m.count p - .ofNat (net.arcCount p t.id)
    have htake (p : String) (hp : p ∈ net.placeIds) :
        (mid.count p).toNat = (m.count p).toNat - net.arcCount p t.id := by
      have hle := (h p hp).1
      have hlt := (m.count p).toNat_lt
      have hnat : (UInt64.ofNat (net.arcCount p t.id)).toNat = net.arcCount p t.id :=
        UInt64.toNat_ofNat_of_lt' (Nat.lt_of_le_of_lt hle hlt)
      rw [hmid p hp, UInt64.toNat_sub_of_le _ _ (by rw [UInt64.le_iff_toNat_le, hnat]; exact hle),
        hnat]
    refine ⟨_, ⟨mid, rfl, fun p hp ↦ ⟨(h p hp).1, htake p hp⟩⟩, ?_⟩
    rw [foldlM_put?_counts hnet hpost]
    refine ⟨m', rfl, fun p hp ↦ ?_⟩
    rw [(h p hp).2.2, htake p hp, count_postset]

/-- Entering entries with distinct keys into the vector of a marking. -/
theorem foldl_set_counts (hnet : net.WellJoined) (entries : List (String × UInt64)) :
    entries.foldl (fun v e ↦ match net.placeIndex.position? e.1 with
      | some i => v.set i e.2
      | none => v) (net.counts m) = net.counts (m.overwrite entries) := by
  induction entries generalizing m with
  | nil => rfl
  | cons e entries ih =>
    rw [List.foldl_cons]
    cases hi : net.placeIndex.position? e.1 with
    | none =>
      have hsame : net.counts m = net.counts (m.insert e.1 e.2) := by
        apply counts_eq_iff.2
        intro p hp
        rw [Marking.count_insert, if_neg]
        rintro rfl
        exact position?_eq_none_iff.1 hi hp
      simp only [hsame]
      exact ih
    | some i =>
      simp only [set_counts hnet hi]
      exact ih

theorem toVector_placeIndex (hnet : net.WellJoined) (m : Marking) :
    net.placeIndex.toVector m = net.counts m := by
  have hzero : List.replicate net.placeIndex.size 0 = net.counts ∅ := by
    rw [counts, List.eq_replicate_iff.2 ⟨List.length_map _, ?_⟩]
    · rfl
    · intro n hn
      obtain ⟨p, -, rfl⟩ := List.mem_map.1 hn
      rfl
  have hself : (∅ : Marking).overwrite m.entries = m := Table.ofList_entries m
  rw [PlaceIndex.toVector, hzero]
  calc
    _ = net.counts ((∅ : Marking).overwrite m.entries) := foldl_set_counts hnet m.entries
    _ = net.counts m := by rw [hself]

end Net

end PetriAlign
