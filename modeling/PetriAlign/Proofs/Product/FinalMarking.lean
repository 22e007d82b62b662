import PetriAlign.Proofs.Pnml.WellFormed
import PetriAlign.Proofs.Product.Distinct
import PetriAlign.Proofs.Product.Marking
import PetriAlign.Proofs.Product.Written

/-!
# The final marking of a product

A product says three times which marking it is to reach: in its constraint, in the final marking of
its net and on the places. The counts on the places are those of the first pairs with their ids, and
a net that is read has those of the last pairs. If no place of the model is named twice, all of them
agree, and they still do when the net was written and read.
-/

namespace PetriAlign

/-! ## One partial marking -/

/-- The terms of the constraint, the final marking of the net and the counts on its places are the
same partial marking of declared places, and the constraint asks for the counts on the places. -/
structure Net.MarksFinally (net : Net) (c : Constraint) : Prop where
  final_eq : net.final = c.terms
  nodup : (c.terms.map (·.1)).Nodup
  mem_placeIds : ∀ term ∈ c.terms, term.1 ∈ net.placeIds
  final_eq_some_iff : ∀ p ∈ net.places, ∀ n, p.final = some n ↔ (p.id, n) ∈ c.terms
  final_eq_none_iff : ∀ p ∈ net.places, p.final = none ↔ p.id ∉ c.terms.map (·.1)
  holds_iff : ∀ m, c.Holds m ↔ ∀ p ∈ net.places, ∀ n, p.final = some n → m.count p.id = n

namespace Net

/-- The model fits together, names no node and no final place twice, and uses no id that its product
with the trace adds. -/
structure IsFreshFor (model : Net) (w : LabelTrace) : Prop extends model.IsResolved where
  nodup : (model.placeIds ++ model.transitionIds).Nodup
  fresh : ∀ id ∈ model.placeIds ++ model.transitionIds, id ∉ Product.generatedIds model w
  final_nodup : (model.final.map (·.1)).Nodup

variable {net : Net} {c : Constraint}

/-- It is enough that each place has the count that is looked up in the terms. -/
theorem MarksFinally.of_lookup (hfinal : net.final = c.terms) (hnodup : (c.terms.map (·.1)).Nodup)
    (hmem : ∀ term ∈ c.terms, term.1 ∈ net.placeIds)
    (hplaces : ∀ p ∈ net.places, p.final = Table.lookup p.id c.terms) : net.MarksFinally c where
  final_eq := hfinal
  nodup := hnodup
  mem_placeIds := hmem
  final_eq_some_iff p hp n := by
    rw [hplaces p hp, Table.lookup_eq_some_iff hnodup]
  final_eq_none_iff p hp := by
    rw [hplaces p hp, Table.lookup_eq_none_iff]
  holds_iff m := by
    constructor
    · intro hholds p hp n hn
      rw [hplaces p hp, Table.lookup_eq_some_iff hnodup] at hn
      exact hholds _ hn
    · intro hcounts term hterm
      obtain ⟨p, hp, hid⟩ := List.mem_map.1 (hmem term hterm)
      rw [← hid]
      apply hcounts p hp
      rw [hplaces p hp, Table.lookup_eq_some_iff hnodup, hid]
      exact hterm

theorem MarksFinally.lookup_eq (h : net.MarksFinally c) {p : Place} (hp : p ∈ net.places) :
    p.final = Table.lookup p.id c.terms := by
  apply Option.ext
  intro n
  rw [h.final_eq_some_iff p hp n, Table.lookup_eq_some_iff h.nodup]

theorem place?_eq_some (h : net.placeIds.Nodup) {p : Place} (hp : p ∈ net.places) :
    net.place? p.id = some p := by
  obtain ⟨q, hq⟩ := Option.isSome_iff_exists.1 (isSome_place?_iff.2 (List.mem_map_of_mem hp))
  have hid : q.id = p.id := by simpa using List.find?_some hq
  rw [hq, List.inj_on_of_nodup_map h (List.mem_of_find?_eq_some hq) hp hid]

end Net

/-! ## Written and read -/

namespace Pnml

variable {net : Net} {c : Constraint}

theorem lastCount?_eq_lookup {final : List (String × UInt64)} (h : (final.map (·.1)).Nodup)
    (id : String) : lastCount? final id = Table.lookup id final := by
  rw [lastCount?, ← Table.lookup_eq_find?, Table.lookup_reverse h]

/-- A place that is read back has the count that it was written with, or the last one of the final
marking. -/
theorem exists_of_mem_readBack (hids : net.placeIds.Nodup) {p' : Place}
    (hp' : p' ∈ (readBack net).places) :
    ∃ p ∈ net.places, p'.id = p.id ∧ p'.final = (lastCount? net.final p.id).or p.final := by
  have hids' : (readBack net).placeIds.Nodup := (relabels_readBack net).placeIds ▸ hids
  have hfind := Net.place?_eq_some hids' hp'
  rw [Net.place?, readBack, find?_withFinal List.not_mem_nil] at hfind
  obtain ⟨read, hread, heq⟩ := Option.map_eq_some_iff.1 hfind
  obtain ⟨p, hp, rfl⟩ := List.mem_map.1 (List.mem_of_find?_eq_some hread)
  have hid : (readPlace p).id = p'.id := by simpa using List.find?_some hread
  refine ⟨p, hp, hid.symm, ?_⟩
  calc p'.final = (lastCount? net.final p'.id).or (readPlace p).final :=
        (congrArg Place.final heq).symm
    _ = (lastCount? net.final p.id).or p.final := by
      rw [← hid]
      rfl

/-- What agrees before a net is written agrees when it is read. -/
theorem marksFinally_readBack (h : net.MarksFinally c) (hids : net.placeIds.Nodup) :
    (readBack net).MarksFinally c := by
  refine .of_lookup h.final_eq h.nodup ?_ ?_
  · rw [(relabels_readBack net).placeIds]
    exact h.mem_placeIds
  · intro p' hp'
    obtain ⟨p, hp, hid, hfinal⟩ := exists_of_mem_readBack hids hp'
    rw [hfinal, hid, h.final_eq, lastCount?_eq_lookup h.nodup, h.lookup_eq hp, Option.or_self]

end Pnml

/-! ## Products -/

namespace Product

variable {model : Net} {w : LabelTrace}

theorem map_fst_logFinal (n : Nat) :
    (logFinal n).map (·.1) = (List.range (n + 1)).map logPlaceId := by
  rw [logFinal, List.map_append, List.map_map, List.range_succ, List.map_append]
  rfl

theorem nodup_append_logPlaceIds (h : model.IsFreshFor w) {ids : List String} (hids : ids.Nodup)
    (hplaces : ∀ id ∈ ids, id ∈ model.placeIds) :
    (ids ++ (List.range (w.length + 1)).map logPlaceId).Nodup := by
  rw [nodup_append_iff_of_nodup (List.nodup_range.map fun i j ↦ logPlaceId_injective)]
  refine ⟨hids, fun id hid hlog ↦ ?_⟩
  exact h.fresh id (List.mem_append_left _ (hplaces id hid)) (List.mem_append_left _ hlog)

theorem isResolved_net_of_isFreshFor (h : model.IsFreshFor w) : (net model w).IsResolved :=
  isResolved_net h.toIsResolved fun _ hp ht ↦ List.disjoint_of_nodup_append h.nodup hp ht

theorem marksFinally_net (h : model.IsFreshFor w) :
    (net model w).MarksFinally (model.product w).constraint := by
  have hterms : ((net model w).final.map (·.1)).Nodup := by
    change ((model.final ++ logFinal w.length).map (·.1)).Nodup
    rw [List.map_append, map_fst_logFinal]
    apply nodup_append_logPlaceIds h h.final_nodup
    exact List.forall_mem_map.2 h.final_mem
  refine .of_lookup rfl hterms (isResolved_net_of_isFreshFor h).final_mem fun p hp ↦ ?_
  -- whatever count a place of the model had, the product puts its own there
  obtain ⟨q, -, rfl⟩ := List.mem_map.1 hp
  exact (Table.lookup_eq_find? q.id _).symm

/-- The three copies of the final marking of a product agree, with the pairs of the model in order
and then those of the log places, and they agree in the net that is read when it was written. -/
theorem marksFinally_product (h : model.IsFreshFor w) :
    (model.product w).constraint.terms =
        model.final ++ (List.range w.length).map (fun i ↦ (logPlaceId i, 0)) ++
          [(logPlaceId w.length, 1)] ∧
      (model.product w).net.MarksFinally (model.product w).constraint ∧
      ∃ net', Pnml.read (.ofText (Pnml.write (model.product w).net)) = .ok net' ∧
        net'.MarksFinally (model.product w).constraint := by
  have hnet := marksFinally_net h
  have hids : (net model w).placeIds.Nodup := by
    rw [placeIds_net]
    exact nodup_append_logPlaceIds h (List.nodup_append.1 h.nodup).1 fun _ hid ↦ hid
  have hread := Pnml.read_write_eq_ok_iff.2 ⟨isResolved_net_of_isFreshFor h, rfl⟩
  refine ⟨?_, hnet, _, hread, Pnml.marksFinally_readBack hnet hids⟩
  rw [List.append_assoc]
  rfl

/-- The model of a payment with a count on each place from an earlier final marking. -/
def stalePayment : Net :=
  { payment with places := payment.places.map fun p ↦ { p with final := some 7 } }

theorem marksFinally_product_stale :
    stalePayment.IsFreshFor ["pay"] ∧
      (stalePayment.product ["pay"]).constraint.terms =
        [("end", 1), ("logp0", 0), ("logp1", 1)] ∧
      (stalePayment.product ["pay"]).net.places.map (fun p ↦ (p.id, p.final)) =
        [("start", none), ("ready", none), ("end", some 1), ("logp0", some 0),
          ("logp1", some 1)] ∧
      (stalePayment.product ["pay"]).net.MarksFinally (stalePayment.product ["pay"]).constraint ∧
      ∃ net', Pnml.read (.ofText (Pnml.write (stalePayment.product ["pay"]).net)) = .ok net' ∧
        net'.MarksFinally (stalePayment.product ["pay"]).constraint := by
  have hfresh : stalePayment.IsFreshFor ["pay"] :=
    { joins := by decide
      final_mem := by decide
      nodup := by decide
      fresh := by decide +kernel
      final_nodup := by decide }
  obtain ⟨hterms, hagree⟩ := marksFinally_product hfresh
  exact ⟨hfresh, hterms.trans (by decide +kernel), by decide +kernel, hagree⟩

end Product

end PetriAlign
