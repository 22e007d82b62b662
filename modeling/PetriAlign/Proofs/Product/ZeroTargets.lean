import PetriAlign.Proofs.Product.ConstraintText
import PetriAlign.Proofs.Product.Runs

/-!
# Constraints without zero targets

A constraint may be written without its terms that ask for zero. In a product this loses nothing
about the trace: the token of the chain is always on one place, so a term that asks for it at the
end says that the other log places are empty.
-/

namespace PetriAlign

namespace Product

/-- The place is a log place of the product. -/
def IsLogPlace (model : Net) (w : LabelTrace) (id : String) : Prop :=
  ∃ p ∈ (model.product w).net.places, p.kind = .log ∧ p.id = id

variable {model : Net} {w : LabelTrace} {style : ConstraintStyle} {m : Marking}

theorem isLogPlace_iff (h : model.IsModelFor w) {id : String} :
    IsLogPlace model w id ↔ ∃ i ≤ w.length, logPlaceId i = id := by
  have hplaces : (model.product w).net.places =
      (model.places ++ (List.range (w.length + 1)).map logPlace).map fun p ↦
        { p with final := finalCount? (model.final ++ logFinal w.length) p.id } := rfl
  unfold IsLogPlace
  rw [hplaces]
  constructor
  · rintro ⟨p, hp, hkind, rfl⟩
    obtain ⟨q, hq, rfl⟩ := List.mem_map.1 hp
    rcases List.mem_append.1 hq with hmodel | hlog
    · have hmodelKind : q.kind = .model := h.place_kind q hmodel
      exact absurd (hmodelKind.symm.trans hkind) (by decide)
    · obtain ⟨i, hi, rfl⟩ := List.mem_map.1 hlog
      exact ⟨i, Nat.lt_succ_iff.1 (List.mem_range.1 hi), rfl⟩
  · rintro ⟨i, hi, rfl⟩
    have hlog : logPlace i ∈ model.places ++ (List.range (w.length + 1)).map logPlace :=
      List.mem_append_right _ (List.mem_map_of_mem (List.mem_range.2 (Nat.lt_succ_iff.2 hi)))
    exact ⟨_, List.mem_map_of_mem hlog, rfl, rfl⟩

theorem mem_logFinal (h : model.IsModelFor w) {term : String × UInt64}
    (hterm : term ∈ (model.product w).constraint.terms) (hlog : IsLogPlace model w term.1) :
    term ∈ logFinal w.length := by
  obtain ⟨i, hi, hid⟩ := (isLogPlace_iff h).1 hlog
  have hterms : (model.product w).constraint.terms = model.final ++ logFinal w.length := rfl
  rw [hterms, List.mem_append] at hterm
  refine hterm.resolve_left fun hfinal ↦ ?_
  exact ne_logPlaceId h (h.final_mem term hfinal) hi hid.symm

/-- The term for the end of the chain is written in every style. -/
theorem last_mem_kept (model : Net) (w : LabelTrace) (style : ConstraintStyle) :
    (logPlaceId w.length, 1) ∈ (model.product w).constraint.kept style := by
  have hlast : (logPlaceId w.length, 1) ∈ logFinal w.length :=
    List.mem_append_right _ (List.mem_singleton_self _)
  exact Constraint.mem_kept.2 ⟨List.mem_append_right _ hlast, fun _ ↦ UInt64.zero_ne_one.symm⟩

theorem exists_tokenAt_of_reachable (h : model.IsModelFor w)
    (hm : (model.product w).net.Reachable m) : ∃ c ≤ w.length, TokenAt w c m := by
  obtain ⟨ids, hids, hrun⟩ := hm
  obtain ⟨-, -, hle, htoken, -⟩ := run?_reaches h hids hrun
  exact ⟨_, hle, htoken⟩

/-- In a reachable marking the written terms put the token at the end of the chain. -/
theorem holds_logFinal (h : model.IsModelFor w) (hm : (model.product w).net.Reachable m)
    (hwritten : (model.product w).constraint.HoldsAsWritten style m) :
    ∀ term ∈ logFinal w.length, m.count term.1 = term.2 := by
  obtain ⟨c, hc, htoken⟩ := exists_tokenAt_of_reachable h hm
  have hlast := hwritten _ (last_mem_kept model w style)
  rw [holds_logFinal_iff hc htoken]
  by_contra hne
  rw [htoken w.length le_rfl, if_neg (Ne.symm hne)] at hlast
  exact absurd hlast UInt64.zero_ne_one

/-- If the model asks for no zero count, the terms that are left out are about the log alone. -/
theorem holds_of_holdsAsWritten (h : model.IsModelFor w) (hfinal : ∀ mark ∈ model.final, mark.2 ≠ 0)
    (hm : (model.product w).net.Reachable m)
    (hwritten : (model.product w).constraint.HoldsAsWritten style m) :
    (model.product w).constraint.Holds m := by
  intro term hterm
  rcases List.mem_append.1 hterm with hmodel | hlog
  · exact hwritten term (Constraint.mem_kept.2 ⟨hterm, fun _ ↦ hfinal term hmodel⟩)
  · exact holds_logFinal h hm hwritten term hlog

/-- Then what is written holds exactly if the whole constraint does, in every style. -/
theorem holdsAsWritten_iff_holds (h : model.IsModelFor w)
    (hfinal : ∀ mark ∈ model.final, mark.2 ≠ 0) (hm : (model.product w).net.Reachable m) :
    (model.product w).constraint.HoldsAsWritten style m ↔ (model.product w).constraint.Holds m := by
  constructor
  · exact holds_of_holdsAsWritten h hfinal hm
  · exact fun hholds term hterm ↦ hholds term (Constraint.mem_kept.1 hterm).1

theorem zeroTarget_mem_terms (model : Net) {i : Nat} (hi : i < w.length) :
    (logPlaceId i, 0) ∈ (model.product w).constraint.terms := by
  have hzero : (logPlaceId i, 0) ∈ logFinal w.length :=
    List.mem_append_left _ (List.mem_map_of_mem (List.mem_range.2 hi))
  exact List.mem_append_right _ hzero

theorem notMem_logPlaceId (i : Nat) : ' ' ∉ (logPlaceId i).toList := by
  have hdecimal : ' ' ∉ Text.decimal i := Text.notMem_decimal i (by decide)
  simp [logPlaceId, hdecimal]

/-- Where no place that the model asks for has a blank in its id, no place of the constraint has. -/
theorem notMem_constraint (hfinal : ∀ mark ∈ model.final, ' ' ∉ mark.1.toList) :
    ∀ term ∈ (model.product w).constraint.terms, ' ' ∉ term.1.toList := by
  have hlog : ∀ term ∈ logFinal w.length, ' ' ∉ term.1.toList := by
    intro term hterm
    rcases List.mem_append.1 hterm with hzero | hlast
    · obtain ⟨i, -, rfl⟩ := List.mem_map.1 hzero
      exact notMem_logPlaceId i
    · rw [List.mem_singleton.1 hlast]
      exact notMem_logPlaceId w.length
  exact List.forall_mem_append.2 ⟨hfinal, hlog⟩

/-- The terms that ask log places for zero can be left out of the text of the constraint: a
reachable marking with the counts of the written terms has those of all terms about log places. So
if the model asks for no zero count, the constraint accepts the same reachable markings with and
without its zero targets, and so does a search that reads its texts. -/
theorem accepts_without_zeroTargets (h : model.IsModelFor w) :
    let c := (model.product w).constraint
    (∀ style, c.kept style = if style.omitZero then c.terms.filter (·.2 ≠ 0) else c.terms) ∧
    (∀ style, c.render style = (if style.negate then "!(" else "") ++
      " && ".intercalate ((c.kept style).map fun term ↦ term.1 ++ "==" ++ Text.showCount term.2) ++
      (if style.negate then ")" else "")) ∧
    (∀ i < w.length, (logPlaceId i, 0) ∈ c.terms ∧
      (logPlaceId i, 0) ∉ c.kept { omitZero := true }) ∧
    ((∀ mark ∈ model.final, ' ' ∉ mark.1.toList) → ∀ style m,
      (Constraint.AcceptsText (c.render style) m ↔ c.Accepts style m)) ∧
    ∀ m, (model.product w).net.Reachable m →
      (∀ style, c.HoldsAsWritten style m →
        ∀ term ∈ c.terms, IsLogPlace model w term.1 → m.count term.1 = term.2) ∧
      ((∀ mark ∈ model.final, mark.2 ≠ 0) → ∀ negate,
        (c.Accepts ⟨true, negate⟩ m ↔ c.Accepts ⟨false, negate⟩ m)) := by
  intro c
  refine ⟨c.kept_eq, c.render_eq, fun i hi ↦ ⟨zeroTarget_mem_terms model hi, fun hkept ↦ ?_⟩,
    fun hplain _ _ ↦ Constraint.acceptsText_render_iff (notMem_constraint hplain),
    fun m hm ↦ ⟨?_, fun hfinal negate ↦ ?_⟩⟩
  · exact (Constraint.mem_kept.1 hkept).2 rfl rfl
  · intro style hwritten term hterm hlog
    exact holds_logFinal h hm hwritten term (mem_logFinal h hterm hlog)
  · unfold Constraint.Accepts
    rw [holdsAsWritten_iff_holds h hfinal hm, holdsAsWritten_iff_holds h hfinal hm]

/-- After a silent check and a payment that the log shares, the written terms hold and the log place
that they leave out is empty. The text with all terms is accepted, and the negated one is not. -/
theorem accepts_without_zeroTargets_payment :
    let c := (payment.product ["pay"]).constraint
    payment.IsModelFor ["pay"] ∧ (∀ mark ∈ payment.final, ' ' ∉ mark.1.toList) ∧
    (∀ mark ∈ payment.final, mark.2 ≠ 0) ∧
    c.render ⟨true, false⟩ = "end==1 && logp1==1" ∧
    c.render ⟨false, false⟩ = "end==1 && logp0==0 && logp1==1" ∧
    c.render ⟨true, true⟩ = "!(end==1 && logp1==1)" ∧
    ∃ m, (payment.product ["pay"]).net.Reachable m ∧
      Constraint.AcceptsText "end==1 && logp1==1" m ∧
      Constraint.AcceptsText "end==1 && logp0==0 && logp1==1" m ∧
      ¬ Constraint.AcceptsText "!(end==1 && logp1==1)" m ∧ m.count (logPlaceId 0) = 0 := by
  intro c
  have hplain : ∀ mark ∈ payment.final, ' ' ∉ mark.1.toList := by decide
  have hfinal : ∀ mark ∈ payment.final, mark.2 ≠ 0 := by decide
  have hids : ∀ id ∈ ["check", "logs0n0"], id ∈ (payment.product ["pay"]).net.transitionIds := by
    decide +kernel
  have hreaches : ((payment.product ["pay"]).net.run?
      (payment.product ["pay"]).net.initialMarking ["check", "logs0n0"]).any fun m ↦
        c.HoldsAsWritten ⟨true, false⟩ m := by
    decide +kernel
  have hkept : c.render ⟨true, false⟩ = "end==1 && logp1==1" := by decide +kernel
  have hall : c.render ⟨false, false⟩ = "end==1 && logp0==0 && logp1==1" := by decide +kernel
  have hnegated : c.render ⟨true, true⟩ = "!(end==1 && logp1==1)" := by decide +kernel
  obtain ⟨m, hrun, hwritten⟩ := (Option.any_eq_true _ _).1 hreaches
  have hwritten : c.HoldsAsWritten ⟨true, false⟩ m := of_decide_eq_true hwritten
  have hm : (payment.product ["pay"]).net.Reachable m := ⟨_, hids, hrun⟩
  obtain ⟨-, -, hdropped, htexts, haccepts⟩ := accepts_without_zeroTargets payment_isModelFor
  have hempty := (haccepts m hm).1 _ hwritten _ (hdropped 0 (by decide)).1
    ((isLogPlace_iff payment_isModelFor).2 ⟨0, by decide, rfl⟩)
  refine ⟨payment_isModelFor, hplain, hfinal, hkept, hall, hnegated, m, hm, ?_, ?_, ?_, hempty⟩
  · rw [← hkept, htexts hplain]
    exact hwritten
  · rw [← hall, htexts hplain]
    exact ((haccepts m hm).2 hfinal false).1 hwritten
  · rw [← hnegated, htexts hplain]
    exact not_not_intro hwritten

end Product

end PetriAlign
