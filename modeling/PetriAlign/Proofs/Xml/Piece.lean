import PetriAlign.Proofs.Xml.Attribute

/-!
# Written tags among other bytes

A written tag is cut out where it was put in: quotation marks come in pairs, and no angle bracket
stands between those of the tag. Text reaches to the next tag.
-/

namespace PetriAlign.Xml

open Markup (renderAttribute renderTag)

/-! ## Tags among the bytes -/

theorem tagFrom_append {quote : Quote} {before content rest : Bytes} (h : 0x3E ∉ content) :
    tagFrom quote before (content ++ rest) =
      tagFrom (content.foldl Quote.after quote) (content.reverse ++ before) rest := by
  induction content generalizing quote before with
  | nil => rfl
  | cons b content ih =>
    rw [List.mem_cons, not_or] at h
    rw [List.cons_append, tagFrom, if_neg fun hb ↦ h.1 hb.2.symm, ih h.2, List.foldl_cons,
      List.reverse_cons, List.append_assoc]
    rfl

/-- A tag ends at the first angle bracket if its quotation marks are in pairs. -/
theorem tagFrom_content {content : Bytes} (h : 0x3E ∉ content)
    (hquote : content.foldl Quote.after .none = .none) (rest : Bytes) :
    tagFrom .none [] (content ++ 0x3E :: rest) = some (content, rest) := by
  rw [tagFrom_append h, hquote, tagFrom, if_pos ⟨rfl, rfl⟩, List.append_nil, List.reverse_reverse]

theorem foldl_after_none {bs : Bytes} (h : ∀ b ∈ bs, b ≠ 0x27 ∧ b ≠ 0x22) :
    bs.foldl Quote.after .none = .none := by
  induction bs with
  | nil => rfl
  | cons b bs ih =>
    obtain ⟨hsingle, hdouble⟩ := h b List.mem_cons_self
    rw [List.foldl_cons, Quote.after, if_neg hsingle, if_neg hdouble]
    exact ih fun c hc ↦ h c (List.mem_cons_of_mem b hc)

theorem foldl_after_double {bs : Bytes} (h : 0x22 ∉ bs) :
    bs.foldl Quote.after .double = .double := by
  induction bs with
  | nil => rfl
  | cons b bs ih =>
    rw [List.mem_cons, not_or] at h
    rw [List.foldl_cons, Quote.after, if_neg (Ne.symm h.1), ih h.2]

theorem notMem_encodeChars_escape {c : Char} (hc : isClaimed c = true) (hascii : c.toNat < 0x80)
    (s : String) : UInt8.ofNat c.toNat ∉ Utf8.encodeChars (escape s) := by
  intro h
  exact claimed_notMem_escape hc s ((Utf8.mem_encodeChars hascii).1 h)

theorem foldl_after_bytesOf {s : String} (h : IsName s) :
    (bytesOf s).foldl Quote.after .none = .none := by
  apply foldl_after_none
  intro b hb
  exact ⟨ne_of_isLetter (h.isLetter_of_mem hb) rfl, ne_of_isLetter (h.isLetter_of_mem hb) rfl⟩

theorem foldl_after_renderAttribute {a : String × String} (h : IsName a.1) :
    (Utf8.encodeChars (renderAttribute a)).foldl Quote.after .none = .none := by
  rw [encodeChars_renderAttribute h, List.foldl_append, List.foldl_append, List.foldl_cons,
    List.foldl_cons, List.foldl_cons]
  change [0x22].foldl Quote.after ((Utf8.encodeChars (escape a.2)).foldl Quote.after
    (Quote.after (Quote.after ((bytesOf a.1).foldl Quote.after .none) 0x3D) 0x22)) = .none
  rw [foldl_after_bytesOf h]
  change [0x22].foldl Quote.after
    ((Utf8.encodeChars (escape a.2)).foldl Quote.after .double) = .none
  rw [foldl_after_double (notMem_encodeChars_escape (c := '\x22') rfl (by decide) a.2)]
  rfl

/-- What begins with a letter is a start tag. -/
theorem pieceOf_renderTag {name : String} (hname : IsName name)
    (attributes : List (String × String)) (rest : Bytes) :
    pieceOf (0x3C :: (Utf8.encodeChars (renderTag name attributes) ++ rest)) =
      openingPiece (Utf8.encodeChars (renderTag name attributes) ++ rest) := by
  obtain ⟨b, bs, hbs⟩ := hname.exists_cons
  have hb : isLetter b = true := hname.isLetter_of_mem (hbs ▸ List.mem_cons_self)
  rw [renderTag, Utf8.encodeChars_append, hname.encodeChars_eq, hbs, List.cons_append,
    List.cons_append, pieceOf, if_pos rfl, markupPiece, if_neg (ne_of_isLetter hb rfl),
    if_neg (ne_of_isLetter hb rfl), if_neg (ne_of_isLetter hb rfl)]

section Tags

variable {name : String} {attributes : List (String × String)} (hname : IsName name)
  (hattributes : ∀ a ∈ attributes, IsName a.1)

include hname hattributes

theorem foldl_after_renderTag :
    (Utf8.encodeChars (renderTag name attributes)).foldl Quote.after .none = .none := by
  rw [renderTag, Utf8.encodeChars_append, List.foldl_append, hname.encodeChars_eq,
    foldl_after_bytesOf hname]
  induction attributes with
  | nil => rfl
  | cons a attributes ih =>
    rw [List.flatMap_cons, Utf8.encodeChars_append, List.foldl_append,
      foldl_after_renderAttribute (hattributes a List.mem_cons_self)]
    exact ih fun b hb ↦ hattributes b (List.mem_cons_of_mem a hb)

/-- No angle bracket stands in a tag. -/
theorem notMem_renderTag : 0x3E ∉ Utf8.encodeChars (renderTag name attributes) := by
  intro h
  have hclose : '>' ∈ renderTag name attributes := (Utf8.mem_encodeChars (by decide)).1 h
  have hletters {s : String} (hs : IsName s) : '>' ∉ s.toList := by
    intro hmem
    exact absurd (hs.2 '>' hmem) (by decide)
  rw [renderTag, List.mem_append, List.mem_flatMap] at hclose
  rcases hclose with hclose | hclose
  · exact hletters hname hclose
  · obtain ⟨a, ha, hclose⟩ := hclose
    simp only [renderAttribute, List.cons_append, List.mem_cons, List.mem_append,
      List.not_mem_nil, or_false] at hclose
    rcases hclose with heq | ((hkey | heq | heq | hvalue) | heq)
    · exact absurd heq (by decide)
    · exact hletters (hattributes a ha) hkey
    · exact absurd heq (by decide)
    · exact absurd heq (by decide)
    · exact claimed_notMem_escape rfl a.2 hvalue
    · exact absurd heq (by decide)

/-- A tag does not end with a slash. -/
theorem getLast?_renderTag :
    (Utf8.encodeChars (renderTag name attributes)).getLast? ≠ some 0x2F := by
  rcases List.eq_nil_or_concat' attributes with rfl | hlast
  · intro h
    rw [renderTag, List.flatMap_nil, List.append_nil, hname.encodeChars_eq] at h
    exact ne_of_isLetter (hname.isLetter_of_mem (List.mem_of_getLast? h)) rfl rfl
  · obtain ⟨others, a, rfl⟩ := hlast
    have ha := hattributes a (List.mem_append_right _ (List.mem_singleton_self a))
    rw [renderTag, List.flatMap_append, List.flatMap_singleton, ← List.append_assoc,
      Utf8.encodeChars_append, encodeChars_renderAttribute ha, ← List.append_assoc,
      List.getLast?_concat]
    decide

/-! ## Pieces -/

theorem pieceOf_opening (rest : Bytes) :
    pieceOf (0x3C :: (Utf8.encodeChars (renderTag name attributes) ++ 0x3E :: rest)) =
      .event (.opening ⟨Utf8.encodeChars (renderTag name attributes)⟩) rest := by
  have htag := tagFrom_content (notMem_renderTag hname hattributes)
    (foldl_after_renderTag hname hattributes) rest
  have hopen : openingPiece (Utf8.encodeChars (renderTag name attributes) ++ 0x3E :: rest) =
      .event (.opening ⟨Utf8.encodeChars (renderTag name attributes)⟩) rest := by
    rw [openingPiece, htag]
    dsimp only
    rw [openingEvent, if_neg (getLast?_renderTag hname hattributes)]
  rw [pieceOf_renderTag hname, hopen]

theorem pieceOf_empty (rest : Bytes) :
    pieceOf (0x3C :: (Utf8.encodeChars (renderTag name attributes) ++ 0x2F :: 0x3E :: rest)) =
      .event (.empty ⟨Utf8.encodeChars (renderTag name attributes)⟩) rest := by
  have hslash : 0x3E ∉ Utf8.encodeChars (renderTag name attributes) ++ [0x2F] := by
    rw [List.mem_append, not_or]
    exact ⟨notMem_renderTag hname hattributes, by decide⟩
  have hquote : (Utf8.encodeChars (renderTag name attributes) ++ [0x2F]).foldl Quote.after .none =
      .none := by
    rw [List.foldl_append, foldl_after_renderTag hname hattributes]
    rfl
  have htag := tagFrom_content hslash hquote rest
  rw [List.append_assoc, List.singleton_append] at htag
  have hopen : openingPiece (Utf8.encodeChars (renderTag name attributes) ++ 0x2F :: 0x3E :: rest) =
      .event (.empty ⟨Utf8.encodeChars (renderTag name attributes)⟩) rest := by
    rw [openingPiece, htag]
    dsimp only
    rw [openingEvent, if_pos List.getLast?_concat, List.dropLast_concat]
  rw [pieceOf_renderTag hname, hopen]

end Tags

theorem pieceOf_closing {name : String} (hname : IsName name) (rest : Bytes) :
    pieceOf (0x3C :: 0x2F :: (bytesOf name ++ 0x3E :: rest)) =
      .event (.closing (bytesOf name)) rest := by
  have hclose : 0x3E ∉ bytesOf name := by
    intro h
    exact ne_of_isLetter (hname.isLetter_of_mem h) rfl rfl
  have hclosing : closingName (bytesOf name) = bytesOf name := by
    have hreverse : ∀ b ∈ (bytesOf name).reverse, isSpace b = false := by
      intro b hb
      exact hname.isSpace_of_mem (List.mem_reverse.1 hb)
    unfold closingName stripEnd
    rw [Text.dropWhile_eq_self hreverse, List.reverse_reverse, ite_self]
  rw [pieceOf, if_pos rfl, markupPiece, if_neg (by decide), if_pos rfl, closingPiece,
    tagFrom_content hclose (foldl_after_bytesOf hname)]
  dsimp only
  rw [hclosing]

/-- Text reaches to the next tag. -/
theorem pieceOf_text {b : UInt8} {bs rest : Bytes} (h : 0x3C ∉ b :: bs) :
    pieceOf (b :: bs ++ 0x3C :: rest) = .event (.text (stripEnd (b :: bs))) (0x3C :: rest) := by
  have hinside : ∀ d ∈ b :: bs, decide (d ≠ 0x3C) = true := by
    intro d hd
    rw [decide_eq_true_iff]
    exact ne_of_mem_of_not_mem hd h
  have hb : b ≠ 0x3C := of_decide_eq_true (hinside b List.mem_cons_self)
  have hdrop : (b :: bs ++ 0x3C :: rest).dropWhile (· ≠ 0x3C) = 0x3C :: rest :=
    Text.dropWhile_until hinside (by decide)
  have htake : (b :: bs ++ 0x3C :: rest).takeWhile (· ≠ 0x3C) = b :: bs :=
    Text.takeWhile_until hinside (by decide)
  rw [List.cons_append] at *
  rw [pieceOf, if_neg hb, hdrop, htake]

/-- Text after the last tag reaches to the end. -/
theorem pieceOf_last {b : UInt8} {bs : Bytes} (h : 0x3C ∉ b :: bs) :
    pieceOf (b :: bs) = .last (stripEnd (b :: bs)) := by
  have hb : b ≠ 0x3C := fun heq ↦ h (List.mem_cons.2 (.inl heq.symm))
  have hdrop : (b :: bs).dropWhile (· ≠ 0x3C) = [] := by
    rw [List.dropWhile_eq_nil_iff]
    intro d hd
    rw [decide_eq_true_iff]
    exact ne_of_mem_of_not_mem hd h
  rw [pieceOf, if_neg hb, hdrop]

/-! ## The declaration -/

theorem cutFrom_append {before bs rest : Bytes} (h : 0x3F ∉ bs) :
    Text.cutFrom [0x3F, 0x3E] before (bs ++ rest) =
      Text.cutFrom [0x3F, 0x3E] (bs.reverse ++ before) rest := by
  induction bs generalizing before with
  | nil => rfl
  | cons b bs ih =>
    rw [List.mem_cons, not_or] at h
    have hprefix : List.isPrefixOf [0x3F, 0x3E] (b :: (bs ++ rest)) = false := by
      rw [List.isPrefixOf_cons_cons, beq_false_of_ne h.1, Bool.false_and]
    rw [List.cons_append, Text.cutFrom, hprefix, if_neg Bool.false_ne_true, ih h.2,
      List.reverse_cons, List.append_assoc]
    rfl

/-- A processing instruction reaches to the first question mark after its own. -/
theorem pieceOf_instruction {b : UInt8} {bs : Bytes} (hb : b ≠ 0x3E) (h : 0x3F ∉ b :: bs)
    (rest : Bytes) :
    pieceOf (0x3C :: 0x3F :: (b :: bs ++ 0x3F :: 0x3E :: rest)) = .skipped rest := by
  have hfirst :
      List.isPrefixOf [0x3F, 0x3E] (0x3F :: (b :: bs ++ 0x3F :: 0x3E :: rest)) = false := by
    rw [List.cons_append, List.isPrefixOf_cons_cons, List.isPrefixOf_cons_cons,
      beq_false_of_ne hb.symm, Bool.false_and, Bool.and_false]
  have hlast : List.isPrefixOf [0x3F, 0x3E] (0x3F :: 0x3E :: rest) = true := rfl
  have hcut : Text.cut (bytesOf "?>") (0x3F :: (b :: bs ++ 0x3F :: 0x3E :: rest)) =
      some (0x3F :: b :: bs, rest) := by
    change Text.cutFrom [0x3F, 0x3E] [] _ = _
    rw [Text.cutFrom, hfirst, if_neg Bool.false_ne_true, cutFrom_append h, Text.cutFrom, hlast,
      if_pos rfl, List.reverse_append, List.reverse_reverse]
    rfl
  rw [pieceOf, if_pos rfl, markupPiece, if_neg (by decide), if_neg (by decide), if_pos rfl,
    instructionPiece, hcut]

end PetriAlign.Xml
