import PetriAlign.Constraint
import PetriAlign.Proofs.Net.Firing
import PetriAlign.Proofs.Product.Arcs

/-!
# The markings of a product

The log places of a product form a chain with one token on it. The token is on the first place at
the start, and the constraint of the product asks for it on the last one.
-/

namespace PetriAlign

/-- The marking has the count that each term asks for. -/
def Constraint.Holds (c : Constraint) (m : Marking) : Prop :=
  ∀ term ∈ c.terms, m.count term.1 = term.2

instance (c : Constraint) (m : Marking) : Decidable (c.Holds m) :=
  inferInstanceAs (Decidable (∀ term ∈ c.terms, _))

/-- The marking has the counts of the final marking of the net. -/
def Net.IsFinal (net : Net) (m : Marking) : Prop := ∀ mark ∈ net.final, m.count mark.1 = mark.2

instance (net : Net) (m : Marking) : Decidable (net.IsFinal m) :=
  inferInstanceAs (Decidable (∀ mark ∈ net.final, _))

namespace Product

/-- The log places hold one token, after `c` labels. -/
def TokenAt (w : LabelTrace) (c : Nat) (m : Marking) : Prop :=
  ∀ i ≤ w.length, m.count (logPlaceId i) = if i = c then 1 else 0

/-- The marking has no entry for a log place. -/
def LogFree (w : LabelTrace) (m : Marking) : Prop :=
  ∀ i ≤ w.length, m.get? (logPlaceId i) = none

/-- The marking of a model with the token of the chain after `c` labels. -/
def withToken (m : Marking) (c : Nat) : Marking := m.insert (logPlaceId c) 1

variable {model : Net} {w : LabelTrace} {m : Marking}

theorem tokenAt_withToken (hm : LogFree w m) (c : Nat) : TokenAt w c (withToken m c) := by
  intro i hi
  rw [withToken, Marking.count_insert]
  by_cases heq : i = c
  · rw [if_pos (congrArg logPlaceId heq.symm), if_pos heq]
  · rw [if_neg fun hid ↦ heq (logPlaceId_injective hid).symm, if_neg heq,
      Marking.count_eq_zero (hm i hi)]

theorem get?_withToken {c : Nat} {p : String} (hp : p ≠ logPlaceId c) :
    (withToken m c).get? p = m.get? p := by
  rw [withToken, Table.get?_insert, if_neg hp.symm]

theorem ne_logPlaceId (h : model.IsModelFor w) {p : String} (hp : p ∈ model.placeIds) {i : Nat}
    (hi : i ≤ w.length) : p ≠ logPlaceId i := by
  intro heq
  exact logPlaceId_notMem h hi (heq ▸ List.mem_append_left _ hp)

/-! ## The initial marking -/

theorem initialMarking_net : (net model w).initialMarking = withToken model.initialMarking 0 := by
  have hplaces : ((net model w).places.filter (0 < ·.initial)).map (fun p ↦ (p.id, p.initial)) =
      (model.places.filter (0 < ·.initial)).map (fun p ↦ (p.id, p.initial)) ++
        [(logPlaceId 0, 1)] := by
    have hlog : ((List.range (w.length + 1)).map logPlace).filter (0 < ·.initial) =
        [logPlace 0] := by
      rw [List.range_succ_eq_map, List.map_cons, List.filter_cons_of_pos (by decide)]
      congr 1
      rw [List.filter_eq_nil_iff]
      intro p hp
      simp only [List.map_map, List.mem_map] at hp
      obtain ⟨i, -, rfl⟩ := hp
      simp [logPlace]
    simp only [net, List.filter_map, List.map_map]
    change ((model.places ++ (List.range (w.length + 1)).map logPlace).filter (0 < ·.initial)).map
      (fun p ↦ (p.id, p.initial)) = _
    rw [List.filter_append, List.map_append, hlog]
    rfl
  unfold Net.initialMarking withToken
  rw [hplaces, Table.ofList, List.foldl_append]
  rfl

theorem logFree_initialMarking (h : model.IsModelFor w) : LogFree w model.initialMarking := by
  intro i hi
  rw [Net.initialMarking, Table.get?_ofList]
  apply Table.lookup_eq_none_iff.2
  intro hid
  rw [List.map_reverse, List.mem_reverse, List.map_map, List.mem_map] at hid
  obtain ⟨p, hp, heq⟩ := hid
  have hplace : p.id ∈ model.placeIds := List.mem_map_of_mem (List.mem_of_mem_filter hp)
  exact ne_logPlaceId h hplace hi heq

/-! ## The constraint -/

/-- The terms of the log places ask for the token at the end. -/
theorem holds_logFinal_iff {c : Nat} (hc : c ≤ w.length) (hm : TokenAt w c m) :
    (∀ term ∈ logFinal w.length, m.count term.1 = term.2) ↔ c = w.length := by
  unfold logFinal
  rw [List.forall_mem_append, List.forall_mem_singleton, hm w.length le_rfl]
  constructor
  · intro hlog
    by_contra hne
    rw [if_neg (Ne.symm hne)] at hlog
    exact absurd hlog.2 UInt64.zero_ne_one
  · rintro rfl
    refine ⟨fun term hterm ↦ ?_, if_pos rfl⟩
    obtain ⟨i, hi, rfl⟩ := List.mem_map.1 hterm
    have hi := List.mem_range.1 hi
    rw [hm i (by omega), if_neg (by omega)]

/-- With the token on the chain, the constraint asks for the final marking of the model and for
the token at the end. -/
theorem holds_constraint_iff {c : Nat} (hc : c ≤ w.length) (hm : TokenAt w c m) :
    (model.product w).constraint.Holds m ↔ c = w.length ∧ model.IsFinal m := by
  have hterms : (model.product w).constraint.terms = model.final ++ logFinal w.length := rfl
  unfold Constraint.Holds Net.IsFinal
  rw [hterms, List.forall_mem_append, holds_logFinal_iff hc hm, and_comm]

theorem isFinal_withToken (h : model.IsModelFor w) {c : Nat} (hc : c ≤ w.length) :
    model.IsFinal (withToken m c) ↔ model.IsFinal m := by
  unfold Net.IsFinal
  apply forall₂_congr
  intro mark hmark
  have hne := ne_logPlaceId h (h.final_mem mark hmark) hc
  rw [Marking.count, Marking.count, get?_withToken hne]

end Product

end PetriAlign
