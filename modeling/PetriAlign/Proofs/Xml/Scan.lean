import PetriAlign.Proofs.Text.Search
import PetriAlign.Proofs.Xml.Source

/-!
# Written markup among other bytes

A tag is cut out at its own brackets, because quotation marks hide those of attribute values, and
has its name and its attributes again. Comments and processing instructions end at their first end
mark.
-/

namespace PetriAlign

namespace Xml

/-! ## Names and white space -/

namespace Name

variable (n : Name)

theorem exists_cons : ∃ b bs, n.bytes = b :: bs := List.exists_cons_of_ne_nil n.ne_nil

variable {n}

theorem ne_of_mem {b d : UInt8} (hb : b ∈ n.bytes) (hd : isSpace d = true ∨ isDivider d = true) :
    b ≠ d := by
  rintro rfl
  obtain ⟨hspace, hdivider⟩ := n.plain b hb
  simp [hspace, hdivider] at hd

theorem not_isSpace : ∀ b ∈ n.bytes, (!isSpace b) = true := by
  intro b hb
  rw [(n.plain b hb).1]
  rfl

end Name

theorem not_isSpace_byte (m : QuotationMark) : isSpace m.byte = false := by
  cases m <;> rfl

/-- White space is no divider. -/
theorem ne_of_isSpace {b d : UInt8} (hb : isSpace b = true) (hd : isSpace d = false) : b ≠ d := by
  rintro rfl
  simp [hb] at hd

/-! ## Attributes -/

namespace AttributeSource

variable (a : AttributeSource) (rest : Bytes)

theorem valueAttempt_source (name : Bytes) :
    valueAttempt name (a.beforeValue.1 ++ (a.quoted ++ rest)) =
      ⟨some ⟨name, a.value⟩, some name, rest⟩ := by
  have hinside : ∀ b ∈ a.value, decide (b ≠ a.mark.byte) = true := by
    intro b hb
    rw [decide_eq_true_iff]
    exact ne_of_mem_of_not_mem hb a.mark_notMem
  have hmark : a.mark.byte = 0x22 ∨ a.mark.byte = 0x27 := by
    cases a.mark
    · exact .inr rfl
    · exact .inl rfl
  unfold valueAttempt
  rw [quoted, List.cons_append, List.append_assoc, List.singleton_append,
    Text.dropWhile_until a.beforeValue.2 (not_isSpace_byte a.mark)]
  dsimp only
  rw [if_pos hmark, Text.dropWhile_until hinside (by simp), Text.takeWhile_until hinside (by simp)]

/-- What follows a name ends it. -/
theorem exists_end : ∃ x xs, a.afterName.1 ++ 0x3D :: rest = x :: xs ∧
    (!(decide (x = 0x3D) || isSpace x)) = false := by
  cases h : a.afterName.1 with
  | nil => exact ⟨0x3D, rest, rfl, rfl⟩
  | cons b bs =>
    have hb : isSpace b = true := a.afterName.2 b (h ▸ List.mem_cons_self)
    exact ⟨b, bs ++ 0x3D :: rest, rfl, by simp [hb]⟩

theorem attempt_source {seen : List Bytes} (h : a.name.bytes ∉ seen) {b : UInt8} {bs : Bytes}
    (hname : a.name.bytes = b :: bs) :
    attempt seen b (bs ++ (a.afterName.1 ++ 0x3D :: (a.beforeValue.1 ++ (a.quoted ++ rest)))) =
      ⟨some a.read, some a.name.bytes, rest⟩ := by
  have hinside : ∀ d ∈ bs, (!(decide (d = 0x3D) || isSpace d)) = true := by
    intro d hd
    have hmem : d ∈ a.name.bytes := hname ▸ List.mem_cons_of_mem b hd
    simp [(a.name.plain d hmem).1, Name.ne_of_mem hmem (d := 0x3D) (.inr rfl)]
  obtain ⟨x, xs, hcons, hx⟩ := a.exists_end (a.beforeValue.1 ++ (a.quoted ++ rest))
  unfold attempt
  dsimp only
  rw [hcons, Text.dropWhile_until hinside hx, Text.takeWhile_until hinside hx, ← hcons,
    Text.dropWhile_until a.afterName.2 (by decide), ← hname]
  dsimp only
  rw [if_pos rfl, namedAttempt, if_neg h, valueAttempt_source]
  rfl

theorem attempts_source (strict : Bool) {seen : List Bytes} (h : a.name.bytes ∉ seen) :
    attempts strict seen (a.bytes ++ rest) =
      some a.read :: attempts strict (if strict then a.name.bytes :: seen else seen) rest := by
  obtain ⟨b, bs, hbs⟩ := a.name.exists_cons
  have hb : isSpace b = false := (a.name.plain b (hbs ▸ List.mem_cons_self)).1
  have hdrop : (a.bytes ++ rest).dropWhile isSpace =
      b :: (bs ++ (a.afterName.1 ++ 0x3D :: (a.beforeValue.1 ++ (a.quoted ++ rest)))) := by
    rw [bytes, hbs]
    simp only [List.append_assoc, List.cons_append]
    exact Text.dropWhile_until a.before.2 hb
  rw [attempts]
  split
  case h_1 hnil => simp [hdrop] at hnil
  case h_2 first following hcons =>
    rw [hdrop, List.cons.injEq] at hcons
    obtain ⟨rfl, rfl⟩ := hcons
    dsimp only
    rw [a.attempt_source rest h hbs]
    rfl

/-- All attributes are read, as long as their names differ from each other and from those seen. -/
theorem attempts_sources (strict : Bool) (seen : List Bytes) (as : List AttributeSource)
    (after : Space) (hseen : ∀ a ∈ as, a.name.bytes ∉ seen)
    (hnodup : (as.map (·.name.bytes)).Nodup) :
    attempts strict seen (as.flatMap bytes ++ after.1) = as.map fun a ↦ some a.read := by
  induction as generalizing seen with
  | nil =>
    have hdrop : after.1.dropWhile isSpace = [] := List.dropWhile_eq_nil_iff.2 after.2
    rw [attempts, List.flatMap_nil, List.nil_append]
    split
    · rfl
    · simp_all
  | cons a as ih =>
    rw [List.map_cons, List.nodup_cons] at hnodup
    rw [List.forall_mem_cons] at hseen
    rw [List.flatMap_cons, List.append_assoc, a.attempts_source _ strict hseen.1, ih _ _ hnodup.2]
    · rfl
    · intro a' ha'
      have hne : a'.name.bytes ≠ a.name.bytes :=
        ne_of_mem_of_not_mem (List.mem_map.2 ⟨a', ha', rfl⟩) hnodup.1
      cases strict with
      | false => exact hseen.2 a' ha'
      | true => exact List.not_mem_cons_of_ne_of_not_mem hne (hseen.2 a' ha')

end AttributeSource

/-! ## Tags -/

namespace TagSource

variable (tag : TagSource)

/-- White space follows the name, if anything does. -/
theorem attributePart_eq : tag.attributePart = [] ∨
    ∃ b rest, tag.attributePart = b :: rest ∧ isSpace b = true := by
  unfold attributePart
  cases tag.attributes with
  | nil =>
    cases h : tag.after.1 with
    | nil => exact .inl rfl
    | cons b bs => exact .inr ⟨b, bs, rfl, tag.after.2 b (h ▸ List.mem_cons_self)⟩
  | cons a as =>
    obtain ⟨b, bs, hbs⟩ := List.exists_cons_of_ne_nil a.before_ne_nil
    have hb : isSpace b = true := a.before.2 b (hbs ▸ List.mem_cons_self)
    right
    rw [List.flatMap_cons, AttributeSource.bytes, hbs]
    exact ⟨b, _, rfl, hb⟩

theorem name_read : tag.read.name = tag.name.bytes := by
  rw [Tag.name, read, content]
  rcases tag.attributePart_eq with h | ⟨b, rest, h, hb⟩
  · rw [h, List.append_nil]
    exact List.takeWhile_eq_self_iff.2 Name.not_isSpace
  · rw [h]
    exact Text.takeWhile_until Name.not_isSpace (by simp [hb])

theorem attributePart_read : tag.read.attributePart = tag.attributePart := by
  rw [Tag.attributePart, read, content]
  rcases tag.attributePart_eq with h | ⟨b, rest, h, hb⟩
  · rw [h, List.append_nil]
    exact List.dropWhile_eq_nil_iff.2 Name.not_isSpace
  · rw [h]
    exact Text.dropWhile_until Name.not_isSpace (by simp [hb])

theorem attempts_read (strict : Bool) : attempts strict [] tag.read.attributePart =
    tag.attributes.map fun a ↦ some a.read := by
  rw [attributePart_read]
  exact AttributeSource.attempts_sources strict [] _ _ (fun _ _ ↦ List.not_mem_nil) tag.nodup

theorem attributes_read : tag.read.attributes = tag.attributes.map (·.read) := by
  rw [Tag.attributes, attempts_read, List.filterMap_map]
  exact congrFun List.filterMap_eq_map tag.attributes

theorem attribute?_read (key : String) : tag.read.attribute? key = tag.attribute? key := by
  have hsome : ∀ r ∈ tag.attributes.map fun a ↦ some a.read, r.isSome = true := by
    rw [List.forall_mem_map]
    exact fun _ _ ↦ rfl
  rw [Tag.attribute?, attempts_read, List.takeWhile_eq_self_iff.2 hsome, List.filterMap_map]
  exact congrArg (List.find? _) (congrFun List.filterMap_eq_map tag.attributes)

end TagSource

/-! ## Tags among other bytes -/

theorem tagFrom_plain {before bs rest : Bytes}
    (h : ∀ b ∈ bs, b ≠ 0x27 ∧ b ≠ 0x22 ∧ b ≠ 0x3E) :
    tagFrom .none before (bs ++ rest) = tagFrom .none (bs.reverse ++ before) rest := by
  rw [tagFrom_append fun hmem ↦ (h _ hmem).2.2 rfl,
    foldl_after_none fun b hb ↦ ⟨(h b hb).1, (h b hb).2.1⟩]

theorem Name.tagFrom_bytes (n : Name) (before rest : Bytes) :
    tagFrom .none before (n.bytes ++ rest) = tagFrom .none (n.bytes.reverse ++ before) rest :=
  tagFrom_plain fun _ hb ↦
    ⟨ne_of_mem hb (.inr rfl), ne_of_mem hb (.inr rfl), ne_of_mem hb (.inr rfl)⟩

theorem tagFrom_space (s : Space) (before rest : Bytes) :
    tagFrom .none before (s.1 ++ rest) = tagFrom .none (s.1.reverse ++ before) rest :=
  tagFrom_plain fun b hb ↦
    ⟨ne_of_isSpace (s.2 b hb) rfl, ne_of_isSpace (s.2 b hb) rfl, ne_of_isSpace (s.2 b hb) rfl⟩

/-- Between quotation marks nothing but the closing one counts. -/
theorem tagFrom_inside (m : QuotationMark) {before bs : Bytes} (h : m.byte ∉ bs) (rest : Bytes) :
    tagFrom m.quote before (bs ++ rest) = tagFrom m.quote (bs.reverse ++ before) rest := by
  induction bs generalizing before with
  | nil => rfl
  | cons b bs ih =>
    rw [List.mem_cons, not_or] at h
    have hopen : ¬ (m.quote = .none ∧ b = 0x3E) := by
      rintro ⟨hquote, -⟩
      cases m <;> cases hquote
    have hafter : m.quote.after b = m.quote := by
      cases m <;> exact if_neg (Ne.symm h.1)
    rw [List.cons_append, tagFrom, if_neg hopen, hafter, ih h.2, List.reverse_cons,
      List.append_assoc]
    rfl

namespace AttributeSource

variable (a : AttributeSource) (before rest : Bytes)

theorem tagFrom_quoted :
    tagFrom .none before (a.quoted ++ rest) = tagFrom .none (a.quoted.reverse ++ before) rest := by
  have hopen (more : Bytes) : tagFrom .none before (a.mark.byte :: more) =
      tagFrom a.mark.quote (a.mark.byte :: before) more := by
    cases a.mark <;> rfl
  have hclose (before more : Bytes) : tagFrom a.mark.quote before (a.mark.byte :: more) =
      tagFrom .none (a.mark.byte :: before) more := by
    cases a.mark <;> rfl
  rw [quoted, List.cons_append, hopen, List.append_assoc, tagFrom_inside a.mark a.mark_notMem,
    List.singleton_append, hclose]
  simp

theorem tagFrom_bytes :
    tagFrom .none before (a.bytes ++ rest) = tagFrom .none (a.bytes.reverse ++ before) rest := by
  have hequals (before more : Bytes) : tagFrom .none before (0x3D :: more) =
      tagFrom .none (0x3D :: before) more := rfl
  simp only [bytes, List.append_assoc, List.cons_append]
  rw [tagFrom_space, Name.tagFrom_bytes, tagFrom_space, hequals, tagFrom_space, tagFrom_quoted]
  simp

end AttributeSource

namespace TagSource

variable (tag : TagSource) (rest : Bytes)

/-- A tag is passed through as a whole. -/
theorem tagFrom_content :
    tagFrom .none [] (tag.content ++ rest) = tagFrom .none tag.content.reverse rest := by
  have hattributes (as : List AttributeSource) (before rest : Bytes) :
      tagFrom .none before (as.flatMap AttributeSource.bytes ++ rest) =
        tagFrom .none ((as.flatMap AttributeSource.bytes).reverse ++ before) rest := by
    induction as generalizing before with
    | nil => rfl
    | cons a as ih =>
      rw [List.flatMap_cons, List.append_assoc, a.tagFrom_bytes, ih, List.reverse_append,
        List.append_assoc]
  rw [content, attributePart, List.append_assoc, List.append_assoc, Name.tagFrom_bytes,
    hattributes, tagFrom_space]
  simp

/-- A tag does not end in a slash. -/
theorem getLast?_content : tag.content.getLast? ≠ some 0x2F := by
  have hconcat {bs : Bytes} {b : UInt8} (hb : b ≠ 0x2F) : (bs ++ [b]).getLast? ≠ some 0x2F := by
    rw [List.getLast?_concat]
    exact fun h ↦ hb (Option.some.inj h)
  rw [content, attributePart]
  rcases List.eq_nil_or_concat' tag.after.1 with hafter | ⟨bs, b, hafter⟩
  · rw [hafter, List.append_nil]
    rcases List.eq_nil_or_concat' tag.attributes with has | ⟨as, a, has⟩
    · rw [has, List.flatMap_nil, List.append_nil]
      exact fun h ↦ Name.ne_of_mem (List.mem_of_getLast? h) (.inr rfl) rfl
    · rw [has, List.flatMap_append, List.flatMap_singleton, AttributeSource.bytes,
        AttributeSource.quoted]
      simp only [← List.append_assoc, ← List.cons_append]
      apply hconcat
      cases a.mark <;> decide
  · rw [hafter, ← List.append_assoc, ← List.append_assoc]
    apply hconcat
    exact ne_of_isSpace (tag.after.2 b (hafter ▸ List.mem_append_right bs List.mem_cons_self)) rfl

theorem pieceOf_content :
    pieceOf (0x3C :: (tag.content ++ rest)) = openingPiece (tag.content ++ rest) := by
  obtain ⟨b, bs, hbs⟩ := tag.name.exists_cons
  have hb {d : UInt8} (hd : isDivider d = true) : b ≠ d :=
    Name.ne_of_mem (hbs ▸ List.mem_cons_self) (.inr hd)
  rw [content, hbs, List.cons_append, List.cons_append, pieceOf, if_pos rfl, markupPiece,
    if_neg (hb rfl), if_neg (hb rfl), if_neg (hb rfl)]

theorem pieceOf_opening :
    pieceOf (0x3C :: (tag.content ++ 0x3E :: rest)) = .event (.opening tag.read) rest := by
  rw [pieceOf_content, openingPiece, tagFrom_content, tagFrom, if_pos ⟨rfl, rfl⟩,
    List.reverse_reverse]
  dsimp only
  rw [openingEvent, if_neg tag.getLast?_content]
  rfl

theorem pieceOf_short :
    pieceOf (0x3C :: (tag.content ++ 0x2F :: 0x3E :: rest)) = .event (.empty tag.read) rest := by
  have hslash : tagFrom .none tag.content.reverse (0x2F :: 0x3E :: rest) =
      some (tag.content ++ [0x2F], rest) := by
    change some ((0x2F :: tag.content.reverse).reverse, rest) = _
    rw [List.reverse_cons, List.reverse_reverse]
  rw [pieceOf_content, openingPiece, tagFrom_content, hslash]
  dsimp only
  rw [openingEvent, if_pos List.getLast?_concat, List.dropLast_concat]
  rfl

end TagSource

theorem Name.pieceOf_closing (n : Name) (rest : Bytes) :
    pieceOf (0x3C :: 0x2F :: (n.bytes ++ 0x3E :: rest)) = .event (.closing n.bytes) rest := by
  have hspace : ∀ b ∈ n.bytes.reverse, isSpace b = false := by
    intro b hb
    exact (n.plain b (List.mem_reverse.1 hb)).1
  have hclosing : closingName n.bytes = n.bytes := by
    unfold closingName stripEnd
    rw [Text.dropWhile_eq_self hspace, List.reverse_reverse, ite_self]
  rw [pieceOf, if_pos rfl, markupPiece, if_neg (by decide), if_pos rfl, closingPiece,
    n.tagFrom_bytes, List.append_nil, tagFrom, if_pos ⟨rfl, rfl⟩, List.reverse_reverse]
  dsimp only
  rw [hclosing]

theorem pieceOf_comment {body : Bytes} (h : ¬ bytesOf "-->" <:+: body) (rest : Bytes) :
    pieceOf (bytesOf "<!--" ++ (body ++ bytesOf "-->") ++ rest) = .skipped rest := by
  have hcut : Text.cut (bytesOf "-->") (body ++ (bytesOf "-->" ++ rest)) = some (body, rest) :=
    Text.cut_append [0x2D, 0x2D] (by decide) h rest
  have hbytes : bytesOf "<!--" ++ (body ++ bytesOf "-->") ++ rest =
      0x3C :: 0x21 :: 0x2D :: 0x2D :: (body ++ (bytesOf "-->" ++ rest)) := by
    rw [List.append_assoc, List.append_assoc]
    rfl
  have hcomment : commentPiece (0x2D :: 0x2D :: (body ++ (bytesOf "-->" ++ rest))) =
      .skipped rest := by
    unfold commentPiece
    rw [show (0x2D :: 0x2D :: (body ++ (bytesOf "-->" ++ rest))).drop 2 =
      body ++ (bytesOf "-->" ++ rest) from rfl, hcut]
    rfl
  rw [hbytes, pieceOf, if_pos rfl, markupPiece, if_pos rfl, declarationPiece]
  exact hcomment

theorem pieceOf_processing {body : Bytes} (h : ¬ bytesOf "?>" <:+: 0x3F :: body) (rest : Bytes) :
    pieceOf (bytesOf "<?" ++ (body ++ bytesOf "?>") ++ rest) = .skipped rest := by
  have hcut : Text.cut (bytesOf "?>") (0x3F :: body ++ (bytesOf "?>" ++ rest)) =
      some (0x3F :: body, rest) :=
    Text.cut_append [0x3F] (by decide) h rest
  have hbytes : bytesOf "<?" ++ (body ++ bytesOf "?>") ++ rest =
      0x3C :: (0x3F :: body ++ (bytesOf "?>" ++ rest)) := by
    rw [List.append_assoc, List.append_assoc]
    rfl
  rw [hbytes, pieceOf, if_pos rfl, List.cons_append, markupPiece, if_neg (by decide),
    if_neg (by decide), if_pos rfl, instructionPiece, ← List.cons_append, hcut]

end Xml

end PetriAlign
