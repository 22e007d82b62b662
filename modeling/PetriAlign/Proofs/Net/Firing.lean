import PetriAlign.Proofs.Net.Counts

/-!
# Permissive firing

A firing takes a token off each distinct input place and puts one on each distinct output place. It
depends on no other place and leaves all others alone, so a token on a place of its own can be put
beside a firing, and a step from one such place to the next can be added to it.
-/

namespace PetriAlign

theorem distinct_cons (x : String) (ids : List String) :
    distinct (x :: ids) = if x ∈ distinct ids then distinct ids else x :: distinct ids := rfl

theorem mem_distinct {id : String} {ids : List String} : id ∈ distinct ids ↔ id ∈ ids := by
  induction ids with
  | nil => rfl
  | cons x ids ih =>
    rw [distinct_cons, List.mem_cons, ← ih]
    split
    case isTrue hx =>
      constructor
      · exact .inr
      · intro h
        rcases h with rfl | h
        · exact hx
        · exact h
    case isFalse hx => exact List.mem_cons

theorem distinct_append_singleton {id : String} {ids : List String} (h : id ∉ ids) :
    distinct (ids ++ [id]) = distinct ids ++ [id] := by
  induction ids with
  | nil => rfl
  | cons x ids ih =>
    rw [List.mem_cons, not_or] at h
    have hmem : x ∈ distinct ids ++ [id] ↔ x ∈ distinct ids := by
      simp [Ne.symm h.1]
    rw [List.cons_append, distinct_cons, distinct_cons, ih h.2]
    simp only [hmem]
    split <;> rfl

namespace Table

variable {α : Type} {t : Table α} {p q : String}

theorem insert_comm (h : p ≠ q) (a b : α) :
    (t.insert p a).insert q b = (t.insert q b).insert p a := by
  apply ext_get?
  intro key
  simp only [get?_insert]
  grind

theorem erase_insert_comm (h : p ≠ q) (a : α) :
    (t.insert q a).erase p = (t.erase p).insert q a := by
  apply ext_get?
  intro key
  simp only [get?_insert, get?_erase]
  grind

theorem erase_insert_self (h : t.get? p = none) (a : α) : (t.insert p a).erase p = t := by
  apply ext_get?
  intro key
  simp only [get?_insert, get?_erase]
  grind

end Table

namespace Marking

variable {m m' : Marking} {p q : String} {inputs outputs : List String}

theorem takeToken_insert (h : p ≠ q) (n : UInt64) :
    takeToken (m.insert q n) p = (m.takeToken p).insert q n := by
  unfold takeToken
  rw [Table.get?_insert, if_neg (Ne.symm h)]
  cases m.get? p with
  | none => rfl
  | some k =>
    dsimp only
    split
    · exact Table.erase_insert_comm h n
    · exact Table.insert_comm (Ne.symm h) n (k - 1)

theorem putToken?_insert (h : p ≠ q) (n : UInt64) :
    putToken? (m.insert q n) p = (m.putToken? p).map (·.insert q n) := by
  unfold putToken?
  rw [count_insert, if_neg (Ne.symm h)]
  dsimp only
  split
  · rfl
  · exact congrArg some (Table.insert_comm (Ne.symm h) n _)

theorem get?_takeToken (h : p ≠ q) : (m.takeToken p).get? q = m.get? q := by
  unfold takeToken
  split
  · rfl
  · split
    · rw [Table.get?_erase, if_neg h]
    · rw [Table.get?_insert, if_neg h]

theorem get?_putToken? (h : p ≠ q) (hput : m.putToken? p = some m') : m'.get? q = m.get? q := by
  unfold putToken? at hput
  dsimp only at hput
  split at hput
  · cases hput
  · cases hput
    rw [Table.get?_insert, if_neg h]

theorem count_eq_zero (h : m.get? p = none) : m.count p = 0 := by
  rw [count, h]
  rfl

/-- Fires a transition with these input and output places, if each input place has a token. -/
def fire? (inputs outputs : List String) (m : Marking) : Option Marking :=
  if inputs.all (0 < m.count ·) then
    (distinct outputs).foldlM putToken? ((distinct inputs).foldl takeToken m)
  else none

theorem foldl_takeToken_insert {places : List String} (h : q ∉ places) (n : UInt64) :
    places.foldl takeToken (m.insert q n) = (places.foldl takeToken m).insert q n := by
  induction places generalizing m with
  | nil => rfl
  | cons p places ih =>
    rw [List.mem_cons, not_or] at h
    rw [List.foldl_cons, List.foldl_cons, takeToken_insert (Ne.symm h.1), ih h.2]

theorem foldlM_putToken?_insert {places : List String} (h : q ∉ places) (n : UInt64) :
    places.foldlM putToken? (m.insert q n) = (places.foldlM putToken? m).map (·.insert q n) := by
  induction places generalizing m with
  | nil => rfl
  | cons p places ih =>
    rw [List.mem_cons, not_or] at h
    rw [List.foldlM_cons, List.foldlM_cons, putToken?_insert (Ne.symm h.1)]
    cases m.putToken? p with
    | none => rfl
    | some next => exact ih h.2

theorem get?_foldl_takeToken {places : List String} (h : q ∉ places) :
    (places.foldl takeToken m).get? q = m.get? q := by
  induction places generalizing m with
  | nil => rfl
  | cons p places ih =>
    rw [List.mem_cons, not_or] at h
    rw [List.foldl_cons, ih h.2, get?_takeToken (Ne.symm h.1)]

theorem get?_foldlM_putToken? {places : List String} (h : q ∉ places)
    (hput : places.foldlM putToken? m = some m') : m'.get? q = m.get? q := by
  induction places generalizing m with
  | nil =>
    cases hput
    rfl
  | cons p places ih =>
    rw [List.mem_cons, not_or] at h
    rw [List.foldlM_cons, Option.bind_eq_bind, Option.bind_eq_some_iff] at hput
    obtain ⟨next, hnext, hrest⟩ := hput
    rw [ih h.2 hrest, get?_putToken? (Ne.symm h.1) hnext]

/-- A firing leaves a place alone that is neither an input nor an output. -/
theorem get?_fire? (hin : q ∉ inputs) (hout : q ∉ outputs)
    (hfire : m.fire? inputs outputs = some m') : m'.get? q = m.get? q := by
  unfold fire? at hfire
  split at hfire
  · rw [get?_foldlM_putToken? (mt mem_distinct.1 hout) hfire,
      get?_foldl_takeToken (mt mem_distinct.1 hin)]
  · cases hfire

theorem all_count_insert (hin : q ∉ inputs) (n : UInt64) :
    inputs.all (fun p ↦ 0 < count (m.insert q n) p) = inputs.all (fun p ↦ 0 < m.count p) := by
  rw [Bool.eq_iff_iff, List.all_eq_true, List.all_eq_true]
  apply forall₂_congr
  intro p hp
  rw [count_insert, if_neg (ne_of_mem_of_not_mem hp hin).symm]

/-- A firing does not depend on a place that is neither an input nor an output. -/
theorem fire?_insert (hin : q ∉ inputs) (hout : q ∉ outputs) (n : UInt64) :
    fire? inputs outputs (m.insert q n) = (m.fire? inputs outputs).map (·.insert q n) := by
  unfold fire?
  rw [all_count_insert hin, foldl_takeToken_insert (mt mem_distinct.1 hin),
    foldlM_putToken?_insert (mt mem_distinct.1 hout)]
  split <;> rfl

/-! ## A step beside a firing -/

theorem takeToken_insert_self (h : m.get? p = none) : takeToken (m.insert p 1) p = m := by
  unfold takeToken
  rw [Table.get?_insert, if_pos rfl]
  exact Table.erase_insert_self h 1

theorem putToken?_of_none (h : m.get? p = none) : m.putToken? p = some (m.insert p 1) := by
  unfold putToken?
  rw [count_eq_zero h]
  rfl

/-- A token on a place of its own moves on to another such place beside a firing. -/
theorem fire?_chain (hp : m.get? p = none) (hq : m.get? q = none) (hpin : p ∉ inputs)
    (hqin : q ∉ inputs) (hqout : q ∉ outputs) :
    fire? (inputs ++ [p]) (outputs ++ [q]) (m.insert p 1) =
      (m.fire? inputs outputs).map (·.insert q 1) := by
  have htake : (distinct (inputs ++ [p])).foldl takeToken (m.insert p 1) =
      (distinct inputs).foldl takeToken m := by
    have hp' : ((distinct inputs).foldl takeToken m).get? p = none := by
      rw [get?_foldl_takeToken (mt mem_distinct.1 hpin), hp]
    rw [distinct_append_singleton hpin, List.foldl_append,
      foldl_takeToken_insert (mt mem_distinct.1 hpin)]
    exact takeToken_insert_self hp'
  have hput : (distinct (outputs ++ [q])).foldlM putToken? ((distinct inputs).foldl takeToken m) =
      ((distinct outputs).foldlM putToken? ((distinct inputs).foldl takeToken m)).map
        (·.insert q 1) := by
    rw [distinct_append_singleton hqout, List.foldlM_append]
    cases hrest : (distinct outputs).foldlM putToken? ((distinct inputs).foldl takeToken m) with
    | none => rfl
    | some next =>
      have hq' : next.get? q = none := by
        rw [get?_foldlM_putToken? (mt mem_distinct.1 hqout) hrest,
          get?_foldl_takeToken (mt mem_distinct.1 hqin), hq]
      change (putToken? next q).bind some = some (next.insert q 1)
      rw [putToken?_of_none hq', Option.bind_some]
  have hall : (inputs ++ [p]).all (fun r ↦ 0 < count (m.insert p 1) r) =
      inputs.all (fun r ↦ 0 < m.count r) := by
    rw [List.all_append, all_count_insert hpin]
    simp [count_insert]
  unfold fire?
  rw [hall, htake, hput]
  split <;> rfl

/-- A transition with an input place without tokens does not fire. -/
theorem fire?_of_none (h : m.get? q = none) (hq : q ∈ inputs) : m.fire? inputs outputs = none := by
  unfold fire?
  rw [if_neg]
  intro hall
  have hpos := List.all_eq_true.1 hall q hq
  rw [count_eq_zero h] at hpos
  exact absurd hpos (by decide)

end Marking

namespace Net

variable (net : Net)

/-- The marking after a transition fires, if it can. -/
def step? (id : String) (m : Marking) : Option Marking :=
  if net.canFire id m then net.fire id m else none

/-- The marking after transitions fire one after the other, if all of them can. -/
def run? : Marking → List String → Option Marking
  | m, [] => some m
  | m, id :: ids => (net.step? id m).bind (run? · ids)

variable {net}

theorem step?_eq (id : String) (m : Marking) :
    net.step? id m = m.fire? (net.preset id) (net.postset id) := rfl

theorem run?_cons (m : Marking) (id : String) (ids : List String) :
    net.run? m (id :: ids) = (net.step? id m).bind (net.run? · ids) := rfl

theorem run?_append (m : Marking) (ids ids' : List String) :
    net.run? m (ids ++ ids') = (net.run? m ids).bind (net.run? · ids') := by
  induction ids generalizing m with
  | nil => rfl
  | cons id ids ih =>
    simp only [List.cons_append, run?_cons, ih, Option.bind_assoc]

/-! ## Reachable markings -/

variable (net)

/-- Whether firings of declared transitions lead from the initial marking to this one. -/
def Reachable (m : Marking) : Prop :=
  ∃ ids, (∀ id ∈ ids, id ∈ net.transitionIds) ∧ net.run? net.initialMarking ids = some m

variable {net} {m m' : Marking} {t : Transition}

theorem reachable_initialMarking : net.Reachable net.initialMarking :=
  ⟨[], fun _ hid ↦ absurd hid List.not_mem_nil, rfl⟩

theorem Reachable.step (h : net.Reachable m) (ht : t ∈ net.transitions)
    (hstep : net.step? t.id m = some m') : net.Reachable m' := by
  obtain ⟨ids, hids, hrun⟩ := h
  refine ⟨ids ++ [t.id], ?_, ?_⟩
  · rw [List.forall_mem_append, List.forall_mem_singleton]
    exact ⟨hids, List.mem_map_of_mem ht⟩
  · rw [run?_append, hrun, Option.bind_some, run?_cons, hstep]
    rfl

/-- What holds at the start and is kept by every firing holds of all reachable markings. -/
theorem Reachable.induction {P : Marking → Prop} (hinitial : P net.initialMarking)
    (hstep : ∀ m m' t, P m → t ∈ net.transitions → net.step? t.id m = some m' → P m')
    (h : net.Reachable m) : P m := by
  obtain ⟨ids, hids, hrun⟩ := h
  induction ids using List.reverseRecOn generalizing m with
  | nil =>
    cases hrun
    exact hinitial
  | append_singleton ids id ih =>
    rw [List.forall_mem_append, List.forall_mem_singleton] at hids
    rw [run?_append, Option.bind_eq_some_iff] at hrun
    obtain ⟨before, hbefore, hlast⟩ := hrun
    rw [run?_cons, Option.bind_eq_some_iff] at hlast
    obtain ⟨after, hafter, hend⟩ := hlast
    cases hend
    obtain ⟨t, ht, rfl⟩ := List.mem_map.1 hids.2
    exact hstep before m t (ih hids.1 hbefore) ht hafter

end Net

end PetriAlign
