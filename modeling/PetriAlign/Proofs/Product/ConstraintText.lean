import PetriAlign.Proofs.Product.Marking

/-!
# Constraints as texts

A constraint is handed to a search as a text. What a text asks a marking for is said by a grammar,
apart from how the text was made: terms with ` && ` between them, and all of it in brackets behind
an exclamation mark if not all of them are to hold. Where no place has a blank in its id, a text
asks for one thing alone, so that the search accepts the markings that the written terms do.
-/

namespace PetriAlign

namespace Constraint

variable {c : Constraint} {style : ConstraintStyle} {m : Marking} {term term' : String × UInt64}
  {terms terms' : List (String × UInt64)} {text : List Char}

/-! ## Terms that are written -/

/-- The marking has the count that each written term asks for. -/
def HoldsAsWritten (c : Constraint) (style : ConstraintStyle) (m : Marking) : Prop :=
  ∀ term ∈ c.kept style, m.count term.1 = term.2

instance (c : Constraint) (style : ConstraintStyle) (m : Marking) :
    Decidable (c.HoldsAsWritten style m) :=
  inferInstanceAs (Decidable (∀ term ∈ c.kept style, _))

/-- The marking satisfies what is written: the terms, or their negation. -/
def Accepts (c : Constraint) (style : ConstraintStyle) (m : Marking) : Prop :=
  if style.negate then ¬ c.HoldsAsWritten style m else c.HoldsAsWritten style m

theorem kept_eq (c : Constraint) (style : ConstraintStyle) :
    c.kept style = if style.omitZero then c.terms.filter (·.2 ≠ 0) else c.terms := by
  unfold kept
  cases style.omitZero with
  | true => rfl
  | false => exact List.filter_true _

theorem mem_kept : term ∈ c.kept style ↔ term ∈ c.terms ∧ (style.omitZero = true → term.2 ≠ 0) := by
  rw [kept_eq]
  cases style.omitZero <;> simp

/-! ## What a text asks for -/

/-- A text that asks for a count: the place and the count around two equals signs. -/
def IsTermText (term : String × UInt64) (text : List Char) : Prop :=
  ∃ numeral, Text.IsCount numeral term.2 ∧ text = term.1.toList ++ '=' :: '=' :: numeral

/-- A text that asks for counts, with ` && ` between any two. -/
inductive IsConjunction : List (String × UInt64) → List Char → Prop
  | nil : IsConjunction [] []
  | single {term : String × UInt64} {text : List Char} (h : IsTermText term text) :
    IsConjunction [term] text
  | cons {term : String × UInt64} {terms : List (String × UInt64)} {first rest : List Char}
    (h : IsTermText term first) (hne : terms ≠ []) (hrest : IsConjunction terms rest) :
    IsConjunction (term :: terms) (first ++ ' ' :: '&' :: '&' :: ' ' :: rest)

/-- What a text asks for: all terms, or, if it is negated, not all of them. -/
inductive Asks (text : List Char) : Bool → List (String × UInt64) → Prop
  | all {terms : List (String × UInt64)} (h : IsConjunction terms text) : Asks text false terms
  | notAll {terms : List (String × UInt64)} {body : List Char} (h : IsConjunction terms body)
    (htext : text = '!' :: '(' :: (body ++ [')'])) : Asks text true terms

/-! ## Texts that are written -/

theorem isTermText_termText (term : String × UInt64) : IsTermText term (termText term).toList := by
  refine ⟨Text.decimal term.2.toNat, ?_, ?_⟩
  · exact Text.readCount?_eq_some_iff.1 (Text.readCount?_decimal term.2)
  · simp [termText, Text.showCount]

theorem isConjunction_intercalate (terms : List (String × UInt64)) :
    IsConjunction terms (" && ".intercalate (terms.map termText)).toList := by
  induction terms with
  | nil => exact .nil
  | cons term terms ih =>
    cases terms with
    | nil => simpa using IsConjunction.single (isTermText_termText term)
    | cons term' terms =>
      have hcons := IsConjunction.cons (isTermText_termText term) (List.cons_ne_nil _ _) ih
      simpa using hcons

theorem render_eq (c : Constraint) (style : ConstraintStyle) :
    c.render style = (if style.negate then "!(" else "") ++
      " && ".intercalate ((c.kept style).map fun term ↦ term.1 ++ "==" ++ Text.showCount term.2) ++
      (if style.negate then ")" else "") := by
  unfold render
  cases style.negate with
  | true => rfl
  | false =>
    rw [if_neg Bool.false_ne_true, if_neg Bool.false_ne_true, if_neg Bool.false_ne_true,
      String.empty_append, String.append_empty]
    rfl

/-- The text of a constraint asks for the terms that are kept. -/
theorem asks_render (c : Constraint) (style : ConstraintStyle) :
    Asks (c.render style).toList style.negate (c.kept style) := by
  have hbody := isConjunction_intercalate (c.kept style)
  unfold render
  cases style.negate with
  | false => exact .all hbody
  | true =>
    refine .notAll hbody ?_
    simp

/-! ## Texts that are read -/

theorem IsTermText.notMem (h : IsTermText term text) (hterm : ' ' ∉ term.1.toList) :
    ' ' ∉ text := by
  obtain ⟨numeral, hnumeral, rfl⟩ := h
  have hblank : ' ' ∉ numeral := hnumeral.notMem rfl (by decide)
  simp [hterm, hblank]

/-- A term is cut at its last equals sign. -/
theorem IsTermText.unique (h : IsTermText term text) (h' : IsTermText term' text) :
    term = term' := by
  obtain ⟨numeral, hnumeral, rfl⟩ := h
  obtain ⟨numeral', hnumeral', heq⟩ := h'
  have hreverse := congrArg List.reverse heq
  simp only [List.reverse_append, List.reverse_cons, List.append_assoc,
    List.singleton_append] at hreverse
  obtain ⟨hcount, hplace⟩ := Text.append_cons_inj
    (mt List.mem_reverse.1 (hnumeral.notMem rfl (by decide)))
    (mt List.mem_reverse.1 (hnumeral'.notMem rfl (by decide))) hreverse
  obtain rfl := List.reverse_injective hcount
  have hid := List.reverse_injective (List.tail_eq_of_cons_eq hplace)
  exact Prod.ext (String.toList_inj.1 hid) (hnumeral.unique hnumeral')

theorem IsTermText.getLast?_ne (h : IsTermText term text) : text.getLast? ≠ some ')' := by
  obtain ⟨numeral, hnumeral, rfl⟩ := h
  rw [List.getLast?_append_of_ne_nil _ (List.cons_ne_nil _ _)]
  intro hlast
  have hmem : ')' ∈ numeral := by simpa using List.mem_of_getLast? hlast
  exact hnumeral.notMem rfl (by decide) hmem

/-- What is not negated ends in no bracket. -/
theorem IsConjunction.getLast?_ne (h : IsConjunction terms text) : text.getLast? ≠ some ')' := by
  induction h with
  | nil => exact nofun
  | single h => exact h.getLast?_ne
  | @cons term terms first rest _ _ _ ih =>
    have hlist : first ++ ' ' :: '&' :: '&' :: ' ' :: rest =
        (first ++ [' ', '&', '&', ' ']) ++ rest := by simp
    rw [hlist, List.getLast?_append]
    cases hlast : rest.getLast? with
    | none => simp
    | some c => rwa [hlast] at ih

/-- The first term of a text, and whether there are others behind a blank. -/
theorem IsConjunction.exists_first (h : IsConjunction (term :: terms) text) :
    ∃ first, IsTermText term first ∧ (terms = [] ∧ text = first ∨
      ∃ rest, IsConjunction terms rest ∧ text = first ++ ' ' :: '&' :: '&' :: ' ' :: rest) := by
  cases h with
  | single h => exact ⟨text, h, .inl ⟨rfl, rfl⟩⟩
  | cons h _ hrest => exact ⟨_, h, .inr ⟨_, hrest, rfl⟩⟩

theorem IsConjunction.ne_nil (h : IsConjunction (term :: terms) text) : text ≠ [] := by
  rintro rfl
  obtain ⟨first, ⟨numeral, -, rfl⟩, ⟨-, hnil⟩ | ⟨rest, -, hnil⟩⟩ := h.exists_first
  · simp at hnil
  · simp at hnil

/-- Where no place has a blank in its id, the terms of a text end at the blanks. -/
theorem IsConjunction.unique (h : IsConjunction terms text) (h' : IsConjunction terms' text)
    (hterms : ∀ term ∈ terms, ' ' ∉ term.1.toList)
    (hterms' : ∀ term ∈ terms', ' ' ∉ term.1.toList) : terms = terms' := by
  induction terms generalizing terms' text with
  | nil =>
    cases terms' with
    | nil => rfl
    | cons =>
      cases h
      exact absurd rfl h'.ne_nil
  | cons term terms ih =>
    cases terms' with
    | nil =>
      cases h'
      exact absurd rfl h.ne_nil
    | cons term' terms' =>
      rw [List.forall_mem_cons] at hterms hterms'
      obtain ⟨first, hfirst, hrest⟩ := h.exists_first
      obtain ⟨first', hfirst', hrest'⟩ := h'.exists_first
      have hblank : ' ' ∉ first := hfirst.notMem hterms.1
      have hblank' : ' ' ∉ first' := hfirst'.notMem hterms'.1
      rcases hrest with ⟨rfl, rfl⟩ | ⟨rest, hrest, rfl⟩
      · rcases hrest' with ⟨rfl, rfl⟩ | ⟨rest', -, rfl⟩
        · rw [hfirst.unique hfirst']
        · simp at hblank
      · rcases hrest' with ⟨rfl, rfl⟩ | ⟨rest', hrest', heq⟩
        · simp at hblank'
        · obtain ⟨rfl, hbehind⟩ := Text.append_cons_inj hblank hblank' heq
          obtain rfl : rest = rest' := by simpa using hbehind
          rw [hfirst.unique hfirst', ih hrest hrest' hterms.2 hterms'.2]

/-- Where no place has a blank in its id, a text asks for one thing alone. -/
theorem Asks.unique {negate negate' : Bool} (h : Asks text negate terms)
    (h' : Asks text negate' terms') (hterms : ∀ term ∈ terms, ' ' ∉ term.1.toList)
    (hterms' : ∀ term ∈ terms', ' ' ∉ term.1.toList) : negate = negate' ∧ terms = terms' := by
  have hbracket (body : List Char) : ('!' :: '(' :: (body ++ [')'])).getLast? = some ')' :=
    List.getLast?_concat (l := '!' :: '(' :: body)
  cases h with
  | all h =>
    cases h' with
    | all h' => exact ⟨rfl, h.unique h' hterms hterms'⟩
    | @notAll terms' body h' htext =>
      rw [htext] at h
      exact absurd (hbracket body) h.getLast?_ne
  | @notAll terms body h htext =>
    cases h' with
    | all h' =>
      rw [htext] at h'
      exact absurd (hbracket body) h'.getLast?_ne
    | @notAll terms' body' h' htext' =>
      have heq := htext.symm.trans htext'
      obtain rfl : body = body' := by simpa using heq
      exact ⟨rfl, h.unique h' hterms hterms'⟩

/-- A search for what the text asks for stops at the marking. -/
def AcceptsText (text : String) (m : Marking) : Prop :=
  ∃ negate terms, Asks text.toList negate terms ∧ (∀ term ∈ terms, ' ' ∉ term.1.toList) ∧
    if negate then ¬ Holds ⟨terms⟩ m else Holds ⟨terms⟩ m

/-- A search that reads the text of a constraint accepts what the constraint does. -/
theorem acceptsText_render_iff (h : ∀ term ∈ c.terms, ' ' ∉ term.1.toList) :
    AcceptsText (c.render style) m ↔ c.Accepts style m := by
  have hkept : ∀ term ∈ c.kept style, ' ' ∉ term.1.toList := fun term hterm ↦
    h term (mem_kept.1 hterm).1
  constructor
  · rintro ⟨negate, terms, hasks, hterms, haccepts⟩
    obtain ⟨rfl, rfl⟩ := (asks_render c style).unique hasks hkept hterms
    exact haccepts
  · intro haccepts
    exact ⟨style.negate, c.kept style, asks_render c style, hkept, haccepts⟩

end Constraint

end PetriAlign
