import Mathlib.Data.List.Basic
import PetriAlign.Proofs.Text.Strip
import PetriAlign.Replay.Signature

/-!
# Signatures as texts

A signature lists places in the order of their bytes, so it does not depend on the order in which
they are found. It puts blanks between the places and a bracket after them: where no id is empty or
holds one of the two, the text can be taken apart again, and it tells the kind and how often each
place is listed.
-/

namespace PetriAlign

variable {places others : List String}

/-- Whether a signature can tell where an id ends. -/
def IsPlainId (id : String) : Prop := id ≠ "" ∧ ' ' ∉ id.toList ∧ ']' ∉ id.toList

instance (id : String) : Decidable (IsPlainId id) :=
  inferInstanceAs (Decidable (_ ∧ _))

/-! ## The places of one side -/

theorem signaturePart_congr (h : places.Perm others) :
    signaturePart places = signaturePart others := by
  have hsorted (xs : List String) :
      (xs.mergeSort fun a b ↦ a ≤ b).Pairwise fun a b ↦ decide (a ≤ b) = true := by
    apply List.pairwise_mergeSort
    · intro a b c hab hbc
      rw [decide_eq_true_iff] at *
      exact String.le_trans hab hbc
    · intro a b
      rw [Bool.or_eq_true, decide_eq_true_iff, decide_eq_true_iff]
      exact String.le_total a b
  have hperm : (places.mergeSort fun a b ↦ a ≤ b).Perm (others.mergeSort fun a b ↦ a ≤ b) :=
    (List.mergeSort_perm _ _).trans (h.trans (List.mergeSort_perm _ _).symm)
  have hsort : (places.mergeSort fun a b ↦ a ≤ b) = others.mergeSort fun a b ↦ a ≤ b := by
    apply hperm.eq_of_pairwise _ (hsorted places) (hsorted others)
    intro a b _ _ hab hba
    exact String.le_antisymm (of_decide_eq_true hab) (of_decide_eq_true hba)
  rw [signaturePart, signaturePart, hsort]

/-- Texts without blanks between single blanks. -/
theorem splitOn_toList_intercalate (h : ∀ p ∈ places, IsPlainId p) (hne : places ≠ []) :
    (" ".intercalate places).toList.splitOn ' ' = places.map String.toList := by
  rw [String.toList_intercalate]
  apply List.splitOn_intercalate
  · intro cs hcs
    obtain ⟨p, hp, rfl⟩ := List.mem_map.1 hcs
    exact (h p hp).2.1
  · exact mt List.map_eq_nil_iff.1 hne

theorem intercalate_eq_empty_iff (h : ∀ p ∈ places, IsPlainId p) :
    " ".intercalate places = "" ↔ places = [] := by
  constructor
  · intro hempty
    by_contra hne
    -- a text without blanks splits into itself alone, here the empty text
    have hsplit := splitOn_toList_intercalate h hne
    rw [hempty] at hsplit
    have hmem : [] ∈ places.map String.toList := by
      rw [← hsplit]
      exact List.mem_cons_self
    obtain ⟨p, hp, hnil⟩ := List.mem_map.1 hmem
    exact (h p hp).1 (String.toList_eq_nil_iff.1 hnil)
  · rintro rfl
    rfl

theorem intercalate_inj (h : ∀ p ∈ places, IsPlainId p) (h' : ∀ p ∈ others, IsPlainId p)
    (heq : " ".intercalate places = " ".intercalate others) : places = others := by
  by_cases hnil : places = []
  · rw [hnil, eq_comm]
    rw [hnil] at heq
    exact (intercalate_eq_empty_iff h').1 heq.symm
  · have hne : others ≠ [] := by
      intro hnil'
      rw [hnil'] at heq
      exact hnil ((intercalate_eq_empty_iff h).1 heq)
    have hsplit : places.map String.toList = others.map String.toList := by
      calc
        _ = (" ".intercalate places).toList.splitOn ' ' := (splitOn_toList_intercalate h hnil).symm
        _ = (" ".intercalate others).toList.splitOn ' ' := by rw [heq]
        _ = others.map String.toList := splitOn_toList_intercalate h' hne
    exact List.map_injective_iff.2 (fun _ _ ↦ String.toList_inj.1) hsplit

theorem perm_of_signaturePart_eq (h : ∀ p ∈ places, IsPlainId p) (h' : ∀ p ∈ others, IsPlainId p)
    (heq : signaturePart places = signaturePart others) : places.Perm others := by
  have hsort : (places.mergeSort fun a b ↦ a ≤ b) = others.mergeSort fun a b ↦ a ≤ b := by
    apply intercalate_inj _ _ heq
    · intro p hp
      exact h p (List.mem_mergeSort.1 hp)
    · intro p hp
      exact h' p (List.mem_mergeSort.1 hp)
  have hperm := List.mergeSort_perm places fun a b ↦ a ≤ b
  rw [hsort] at hperm
  exact hperm.symm.trans (List.mergeSort_perm others _)

theorem bracket_not_mem_intercalate (h : ∀ p ∈ places, IsPlainId p) :
    ']' ∉ (" ".intercalate places).toList := by
  rw [String.toList_intercalate]
  induction places with
  | nil => exact List.not_mem_nil
  | cons p places ih =>
    obtain ⟨hp, hplaces⟩ := List.forall_mem_cons.1 h
    cases places with
    | nil => simpa using hp.2.2
    | cons q places =>
      have hrest := ih hplaces
      simp only [List.map_cons, List.intercalate_cons_cons, List.mem_append, not_or] at hrest ⊢
      exact ⟨⟨hp.2.2, by decide⟩, hrest⟩

theorem bracket_not_mem_signaturePart (h : ∀ p ∈ places, IsPlainId p) :
    ']' ∉ (signaturePart places).toList := by
  apply bracket_not_mem_intercalate
  intro p hp
  exact h p (List.mem_mergeSort.1 hp)

/-! ## Both sides -/

variable {kind kind' : TransitionKind} {inputs outputs inputs' outputs' : List String}

theorem signature_congr (hin : inputs.Perm inputs') (hout : outputs.Perm outputs') :
    signature kind inputs outputs = signature kind inputs' outputs' := by
  rw [signature, signature, signaturePart_congr hin, signaturePart_congr hout]

theorem toList_signature :
    (signature kind inputs outputs).toList =
      kind.tag.toList ++ '-' :: '[' :: ((signaturePart inputs).toList ++
        ']' :: '-' :: '[' :: ((signaturePart outputs).toList ++ [']'])) := by
  simp [signature]

/-- A signature begins with its kind, and no tag reaches over the dash behind it. -/
theorem kind_eq_of_signature_eq
    (heq : signature kind inputs outputs = signature kind' inputs' outputs') : kind = kind' := by
  have hdash (kind : TransitionKind) : '-' ∉ kind.tag.toList := by
    cases kind <;> decide
  rw [← String.toList_inj, toList_signature, toList_signature] at heq
  have htag := (Text.append_cons_inj (hdash kind) (hdash kind') heq).1
  apply Option.some.inj
  calc
    some kind = TransitionKind.ofTag? kind.tag := (TransitionKind.ofTag?_tag kind).symm
    _ = TransitionKind.ofTag? kind'.tag := by rw [String.toList_inj.1 htag]
    _ = some kind' := TransitionKind.ofTag?_tag kind'

/-- A signature of plain ids tells the kind and the places of both sides. -/
theorem perm_of_signature_eq (hin : ∀ p ∈ inputs, IsPlainId p) (hin' : ∀ p ∈ inputs', IsPlainId p)
    (hout : ∀ p ∈ outputs, IsPlainId p) (hout' : ∀ p ∈ outputs', IsPlainId p)
    (heq : signature kind inputs outputs = signature kind' inputs' outputs') :
    kind = kind' ∧ inputs.Perm inputs' ∧ outputs.Perm outputs' := by
  obtain rfl := kind_eq_of_signature_eq heq
  rw [← String.toList_inj, toList_signature, toList_signature, List.append_cancel_left_eq] at heq
  have hrest := List.tail_eq_of_cons_eq (List.tail_eq_of_cons_eq heq)
  -- behind the tag, each side ends at the first bracket
  obtain ⟨hinputs, hrest⟩ := Text.append_cons_inj (bracket_not_mem_signaturePart hin)
    (bracket_not_mem_signaturePart hin') hrest
  obtain ⟨houtputs, -⟩ := Text.append_cons_inj (bracket_not_mem_signaturePart hout)
    (bracket_not_mem_signaturePart hout') (List.tail_eq_of_cons_eq (List.tail_eq_of_cons_eq hrest))
  exact ⟨rfl, perm_of_signaturePart_eq hin hin' (String.toList_inj.1 hinputs),
    perm_of_signaturePart_eq hout hout' (String.toList_inj.1 houtputs)⟩

/-- Signatures of plain ids are equal exactly if they are of one kind and list the same places on
each side, each as often. -/
theorem signature_eq_iff (hin : ∀ p ∈ inputs, IsPlainId p) (hin' : ∀ p ∈ inputs', IsPlainId p)
    (hout : ∀ p ∈ outputs, IsPlainId p) (hout' : ∀ p ∈ outputs', IsPlainId p) :
    signature kind inputs outputs = signature kind' inputs' outputs' ↔
      kind = kind' ∧ inputs.Perm inputs' ∧ outputs.Perm outputs' := by
  constructor
  · exact perm_of_signature_eq hin hin' hout hout'
  · rintro ⟨rfl, hinputs, houtputs⟩
    exact signature_congr hinputs houtputs

/-- The order of two arcs from one place does not count, but that there are two does; and a place
is not the same on the other side. -/
theorem signature_eq_iff_twoArcs :
    (∀ p ∈ ["p1", "p0", "p1"], IsPlainId p) ∧ (∀ p ∈ ["p0", "p1"], IsPlainId p) ∧
      signature .sync ["p1", "p0", "p1"] [] = signature .sync ["p0", "p1", "p1"] [] ∧
      signature .sync ["p1", "p0", "p1"] [] ≠ signature .sync ["p0", "p1"] [] ∧
      signature .sync ["p0", "p1"] [] ≠ signature .sync [] ["p0", "p1"] := by
  have htwice : ∀ p ∈ ["p1", "p0", "p1"], IsPlainId p := by decide
  have hsorted : ∀ p ∈ ["p0", "p1", "p1"], IsPlainId p := by decide
  have honce : ∀ p ∈ ["p0", "p1"], IsPlainId p := by decide
  have hnone : ∀ p ∈ ([] : List String), IsPlainId p := by decide
  refine ⟨htwice, honce, ?_, ?_, ?_⟩
  · exact (signature_eq_iff htwice hsorted hnone hnone).2 ⟨rfl, by decide, .nil⟩
  · exact mt (signature_eq_iff htwice honce hnone hnone).1 (by decide)
  · exact mt (signature_eq_iff honce hnone hnone honce).1 (by decide)

end PetriAlign
