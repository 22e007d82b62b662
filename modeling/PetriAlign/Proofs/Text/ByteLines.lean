import PetriAlign.Proofs.Text.Search
import PetriAlign.Proofs.Text.Utf8

/-!
# Lines before and after decoding

A line ends in ASCII characters, whose bytes stand in no other character. So a text has the same
lines whether it is cut as bytes or as characters. Bytes that are no text have a first line that is
none, and all the lines before it are cut off as lines of a text.
-/

namespace PetriAlign.Text

open Utf8

/-! ## The end of a line -/

section Chomp

variable {α : Type} [DecidableEq α] {mark : α}

theorem chomp_concat (mark : α) (line : List α) : chomp mark (line ++ [mark]) = line := by
  rw [chomp, List.reverse_concat, dropMark, if_pos rfl, List.reverse_reverse]

theorem chomp_append {line tail : List α} (h : mark ∉ tail) (hne : tail ≠ []) :
    chomp mark (line ++ tail) = line ++ tail := by
  obtain ⟨start, x, rfl⟩ := (List.eq_nil_or_concat' tail).resolve_left hne
  have hx : x ≠ mark := ne_of_mem_of_not_mem (List.mem_append_right _ (List.mem_singleton_self x)) h
  rw [← List.append_assoc, chomp, List.reverse_concat, dropMark, if_neg hx, ← List.reverse_concat,
    List.reverse_reverse]

/-- At most the mark is taken off. -/
theorem chomp_eq_or (mark : α) (line : List α) :
    chomp mark line = line ∨ chomp mark line ++ [mark] = line := by
  rcases List.eq_nil_or_concat' line with rfl | ⟨start, x, rfl⟩
  · exact .inl rfl
  by_cases hx : x = mark
  · rw [hx, chomp_concat]
    exact .inr rfl
  · left
    exact chomp_append (by simpa using Ne.symm hx) (List.cons_ne_nil x [])

end Chomp

/-! ## Lines of a text -/

theorem chomp_encodeChars (cs : List Char) :
    chomp 13 (encodeChars cs) = encodeChars (chomp '\r' cs) := by
  rcases List.eq_nil_or_concat' cs with rfl | ⟨start, c, rfl⟩
  · rfl
  by_cases hc : c = '\r'
  · rw [hc, chomp_concat, encodeChars_append]
    exact chomp_concat 13 (encodeChars start)
  · have hmark : 13 ∉ encodeChar c := fun hmem ↦
      hc (eq_of_mem_encodeChar (d := '\r') (by decide) hmem)
    rw [chomp_append (by simpa using Ne.symm hc) (List.cons_ne_nil c []), encodeChars_append,
      encodeChars_singleton]
    exact chomp_append hmark (encodeChar_ne_nil c)

theorem linesFrom_encodeChars (line cs : List Char) :
    linesFrom 10 13 (encodeChars line.reverse).reverse (encodeChars cs) =
      (linesFrom '\n' '\r' line cs).map encodeChars := by
  induction cs generalizing line with
  | nil =>
    rw [encodeChars_eq_nil_iff.2 rfl, linesFrom, linesFrom, List.reverse_reverse]
    cases line with
    | nil => rfl
    | cons c line =>
      have hne : (encodeChars (c :: line).reverse).reverse ≠ [] := by
        rw [ne_eq, List.reverse_eq_nil_iff, encodeChars_eq_nil_iff, List.reverse_eq_nil_iff]
        exact List.cons_ne_nil c line
      rw [List.isEmpty_eq_false_iff.2 hne]
      rfl
  | cons c cs ih =>
    rw [encodeChars_cons, linesFrom]
    by_cases hc : c = '\n'
    · have hchomp := chomp_encodeChars line.reverse
      rw [chomp, chomp, List.reverse_reverse] at hchomp
      rw [if_pos hc, hc, List.map_cons, ← hchomp, ← ih []]
      rfl
    · have hfeed : 10 ∉ encodeChar c := fun hmem ↦
        hc (eq_of_mem_encodeChar (d := '\n') (by decide) hmem)
      rw [if_neg hc, linesFrom_append hfeed, ← ih (c :: line), ← List.reverse_append,
        List.reverse_cons, encodeChars_append, encodeChars_singleton]

/-- The lines of a text are the same before and after decoding. -/
theorem byteLines_encodeChars (cs : List Char) :
    byteLines (encodeChars cs) = (lines cs).map encodeChars :=
  linesFrom_encodeChars [] cs

/-! ## The first line that is no text -/

theorem notMem_of_mem_splitOn {α : Type} [DecidableEq α] {separator : α} {piece xs : List α}
    (h : piece ∈ xs.splitOn separator) : separator ∉ piece := by
  induction xs generalizing piece with
  | nil =>
    rw [List.splitOn_nil, List.mem_singleton] at h
    rw [h]
    exact List.not_mem_nil
  | cons x xs ih =>
    rw [List.splitOn_cons_eq_if_modifyHead] at h
    split at h
    case isTrue =>
      rcases List.mem_cons.1 h with rfl | h
      · exact List.not_mem_nil
      · exact ih h
    case isFalse hx =>
      obtain ⟨first, others, hsplit⟩ := List.exists_cons_of_ne_nil
        (List.splitOn_ne_nil separator xs)
      rw [hsplit] at ih
      rw [hsplit, List.modifyHead_cons] at h
      rcases List.mem_cons.1 h with rfl | h
      · rw [List.mem_cons, not_or]
        exact ⟨fun heq ↦ hx (beq_iff_eq.2 heq.symm), ih List.mem_cons_self⟩
      · exact ih (List.mem_cons_of_mem _ h)

/-- `line` is the first of the lines, cut at line feeds, that is not UTF-8, and `before` are the
lines before it. -/
structure BreaksAt (bytes : Bytes) (before : List Bytes) (line : Bytes) : Prop where
  splitOn_eq : ∃ after, bytes.splitOn 10 = before ++ line :: after
  isUtf8_before : ∀ other ∈ before, IsUtf8 other
  not_isUtf8 : ¬ IsUtf8 line

theorem intercalate_append_cons {α : Type} {separator piece : List α}
    {before after : List (List α)} : separator.intercalate (before ++ piece :: after) =
      before.flatMap (· ++ separator) ++ separator.intercalate (piece :: after) := by
  induction before with
  | nil => rfl
  | cons first before ih =>
    obtain ⟨next, others, hnext⟩ := List.exists_cons_of_ne_nil
      (List.append_ne_nil_of_right_ne_nil before (List.cons_ne_nil piece after))
    rw [hnext] at ih
    rw [List.cons_append, hnext, List.intercalate_cons_cons, ih, List.flatMap_cons,
      ← List.append_assoc]

/-- Lines that are texts are a text with their ends. -/
theorem isUtf8_flatMap {lines : List Bytes} (h : ∀ line ∈ lines, IsUtf8 line) :
    IsUtf8 (lines.flatMap (· ++ [10])) := by
  induction lines with
  | nil => exact isUtf8_encodeChars []
  | cons line lines ih =>
    rw [List.forall_mem_cons] at h
    rw [List.flatMap_cons]
    exact (h.1.append (isUtf8_encodeChars ['\n'])).append (ih h.2)

theorem isUtf8_intercalate {lines : List Bytes} (h : ∀ line ∈ lines, IsUtf8 line) :
    IsUtf8 ([10].intercalate lines) := by
  rcases List.eq_nil_or_concat' lines with rfl | ⟨before, last, rfl⟩
  · exact isUtf8_encodeChars []
  · rw [List.forall_mem_append, List.forall_mem_singleton] at h
    rw [intercalate_append_cons, List.intercalate_singleton]
    exact (isUtf8_flatMap h.1).append h.2

theorem exists_breaksAt {bytes : Bytes} (h : ¬ IsUtf8 bytes) :
    ∃ before line, BreaksAt bytes before line := by
  cases hfind : (bytes.splitOn 10).find? fun line ↦ ¬ IsUtf8 line with
  | none =>
    rw [List.find?_eq_none] at hfind
    have hjoin : [10].intercalate (bytes.splitOn 10) = bytes := List.intercalate_splitOn 10
    refine absurd ?_ h
    rw [← hjoin]
    exact isUtf8_intercalate fun piece hpiece ↦ by simpa using hfind piece hpiece
  | some line =>
    obtain ⟨hline, before, after, hsplit, hbefore⟩ := List.find?_eq_some_iff_append.1 hfind
    exact ⟨before, line, ⟨after, hsplit⟩, by simpa using hbefore, by simpa using hline⟩

variable {bytes line : Bytes} {before : List Bytes}

/-- The lines before it, each with its end, are a text. -/
theorem BreaksAt.exists_text (h : BreaksAt bytes before line) :
    ∃ text, encode text = before.flatMap (· ++ [10]) :=
  isUtf8_flatMap h.isUtf8_before

/-- The lines of that text stand before a line that is not decoded. -/
theorem BreaksAt.byteLines_eq (h : BreaksAt bytes before line) {text : String}
    (htext : encode text = before.flatMap (· ++ [10])) :
    ∃ bad more, byteLines bytes = (lines text.toList).map encodeChars ++ bad :: more ∧
      ¬ IsUtf8 bad := by
  obtain ⟨after, hsplit⟩ := h.splitOn_eq
  have hfeed (piece) (hpiece : piece ∈ before ++ line :: after) : 10 ∉ piece :=
    notMem_of_mem_splitOn (hsplit ▸ hpiece)
  have hbefore (piece) (hpiece : piece ∈ before) : 10 ∉ piece :=
    hfeed piece (List.mem_append_left _ hpiece)
  have hline : 10 ∉ line := hfeed line (List.mem_append_right _ List.mem_cons_self)
  have hlines : (lines text.toList).map encodeChars = before.map (chomp 13) := by
    rw [← byteLines_encodeChars]
    exact (congrArg byteLines htext).trans (linesFrom_flatMap hbefore)
  have hbytes : bytes = before.flatMap (· ++ [10]) ++ [10].intercalate (line :: after) := by
    have hjoin : [10].intercalate (bytes.splitOn 10) = bytes := List.intercalate_splitOn 10
    rw [← hjoin, hsplit]
    exact intercalate_append_cons
  rw [hlines, hbytes, byteLines, linesFrom_flatMap_append hbefore]
  -- the last line is kept whole, any other one without the mark before its end
  cases after with
  | nil =>
    have hne : line ≠ [] := fun hnil ↦ h.not_isUtf8 (hnil ▸ isUtf8_encodeChars [])
    refine ⟨line, [], congrArg _ ?_, h.not_isUtf8⟩
    rw [List.intercalate_singleton, linesFrom_unended hline hne]
  | cons next after =>
    refine ⟨chomp 13 line, linesFrom 10 13 [] ([10].intercalate (next :: after)), congrArg _ ?_, ?_⟩
    · rw [List.intercalate_cons_cons, List.append_assoc, List.singleton_append,
        linesFrom_append_feed hline, List.append_nil]
      rfl
    · intro hchomp
      rcases chomp_eq_or 13 line with heq | heq
      · exact h.not_isUtf8 (heq ▸ hchomp)
      · exact h.not_isUtf8 (heq ▸ hchomp.append (isUtf8_encodeChars ['\r']))

end PetriAlign.Text
