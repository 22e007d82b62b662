import Mathlib.Data.List.Infix
import PetriAlign.Text.Search

/-!
# Lines and search

A pattern does not reach over an element that is not in it, and a text is cut at the first pattern.
Lines that are written with their ends are cut apart where they were joined.
-/

namespace PetriAlign.Text

variable {α : Type} [DecidableEq α]

/-! ## Patterns -/

theorem occurs_iff {pattern xs : List α} : occurs pattern xs = true ↔ pattern <:+: xs := by
  induction xs with
  | nil => rw [occurs, List.isEmpty_iff, List.infix_nil]
  | cons x xs ih =>
    rw [occurs, Bool.or_eq_true, ih, List.isPrefixOf_iff_prefix, List.infix_cons_iff]

omit [DecidableEq α] in
/-- A pattern stands on one side of an element that is not in it. -/
theorem infix_append_cons_iff {pattern xs ys : List α} {x : α} (hx : x ∉ pattern) :
    pattern <:+: xs ++ x :: ys ↔ pattern <:+: xs ∨ pattern <:+: ys := by
  -- what begins with the element and is part of the pattern is empty
  have hnil {part : List α} (hpart : part ⊆ pattern) (h : part <+: x :: ys) : part = [] := by
    cases part with
    | nil => rfl
    | cons y part =>
      obtain ⟨rfl, -⟩ := List.cons_prefix_cons.1 h
      exact absurd (hpart List.mem_cons_self) hx
  constructor
  · intro h
    rcases List.infix_append_iff.1 h with h | h | ⟨left, right, rfl, hleft, hright⟩
    · exact .inl h
    · rcases List.infix_cons_iff.1 h with h | h
      · rw [hnil (List.Subset.refl _) h]
        exact .inl List.nil_infix
      · exact .inr h
    · rw [hnil (List.subset_append_right _ _) hright, List.append_nil]
      exact .inl hleft.isInfix
  · rintro (h | h)
    · exact List.infix_append_of_infix_left h
    · exact List.infix_append_of_infix_right (List.infix_cons h)

/-- A text is cut at its first `pattern`. Of a pattern whose last element stands nowhere else in it,
none begins in what comes before and ends in the pattern itself. -/
theorem cut_append (start : List α) {body : List α} {x : α}
    (hx : x ∉ start) (h : ¬ start ++ [x] <:+: body) (rest : List α) :
    cut (start ++ [x]) (body ++ (start ++ [x] ++ rest)) = some (body, rest) := by
  suffices hfrom : ∀ before, cutFrom (start ++ [x]) before (body ++ (start ++ [x] ++ rest)) =
      some (before.reverse ++ body, rest) from hfrom []
  induction body with
  | nil =>
    intro before
    have hprefix : (start ++ [x]).isPrefixOf (start ++ [x] ++ rest) = true :=
      List.isPrefixOf_iff_prefix.2 (List.prefix_append _ rest)
    obtain ⟨b, bs, hcons⟩ := List.exists_cons_of_ne_nil
      (List.append_ne_nil_of_left_ne_nil (List.concat_ne_nil x start) rest)
    rw [List.nil_append, List.append_nil]
    rw [hcons] at hprefix ⊢
    rw [cutFrom, if_pos hprefix, ← hcons, List.drop_left]
  | cons b body ih =>
    intro before
    have hprefix : ¬ start ++ [x] <+: b :: body ++ (start ++ [x] ++ rest) := by
      intro hpre
      by_cases hlen : (start ++ [x]).length ≤ (b :: body).length
      · exact h (List.prefix_of_prefix_length_le hpre (List.prefix_append _ _) hlen).isInfix
      · obtain ⟨more, hmore⟩ := hpre
        simp only [List.length_append, List.length_cons, List.length_nil] at hlen
        have hlast : (b :: body ++ (start ++ [x] ++ rest))[start.length]? = some x := by
          rw [← hmore, List.append_assoc, List.getElem?_append_right le_rfl, Nat.sub_self]
          rfl
        have hle : (b :: body).length ≤ start.length := by
          rw [List.length_cons]
          omega
        rw [List.getElem?_append_right hle, List.append_assoc, List.getElem?_append_left] at hlast
        · exact hx (List.mem_of_getElem? hlast)
        · rw [List.length_cons]
          omega
    have hbody : ¬ start ++ [x] <:+: body :=
      fun hin ↦ h (hin.trans (List.suffix_cons b body).isInfix)
    rw [List.cons_append, cutFrom, if_neg (by rwa [List.isPrefixOf_iff_prefix]), ih hbody,
      List.reverse_cons, List.append_assoc]
    rfl

/-! ## Lines -/

/-- The line without a mark that belongs to its end. -/
def chomp (mark : α) (line : List α) : List α := (dropMark mark line.reverse).reverse

theorem chomp_prefix (mark : α) (line : List α) : chomp mark line <+: line := by
  rw [← List.reverse_suffix, chomp, List.reverse_reverse]
  cases line.reverse with
  | nil => exact List.suffix_rfl
  | cons x xs =>
    rw [dropMark]
    split
    · exact List.suffix_cons x xs
    · exact List.suffix_rfl

theorem chomp_eq_self {mark : α} {line : List α} (h : mark ∉ line) : chomp mark line = line := by
  rw [chomp, List.reverse_eq_iff]
  cases hline : line.reverse with
  | nil => rfl
  | cons x xs =>
    have hx : x ∈ line := List.mem_reverse.1 (hline ▸ List.mem_cons_self)
    rw [dropMark, if_neg (ne_of_mem_of_not_mem hx h)]

variable {feed mark : α}

/-- What does not end a line is part of it. -/
theorem linesFrom_append {line body rest : List α} (h : feed ∉ body) :
    linesFrom feed mark line (body ++ rest) =
      linesFrom feed mark (body.reverse ++ line) rest := by
  induction body generalizing line with
  | nil => rfl
  | cons x body ih =>
    rw [List.mem_cons, not_or] at h
    rw [List.cons_append, linesFrom, if_neg (Ne.symm h.1), ih h.2, List.reverse_cons,
      List.append_assoc, List.singleton_append]

/-- A line without an end is kept as it is. -/
theorem linesFrom_unended {line : List α} (h : feed ∉ line) (hne : line ≠ []) :
    linesFrom feed mark [] line = [line] := by
  have hreverse : (line.reverse ++ []).isEmpty = false := by
    rw [List.append_nil, List.isEmpty_eq_false_iff, ne_eq, List.reverse_eq_nil_iff]
    exact hne
  calc linesFrom feed mark [] line
      = linesFrom feed mark [] (line ++ []) := by rw [List.append_nil]
    _ = linesFrom feed mark (line.reverse ++ []) [] := linesFrom_append h
    _ = [(line.reverse ++ []).reverse] := by
      rw [linesFrom, hreverse]
      rfl
    _ = [line] := by rw [List.append_nil, List.reverse_reverse]

theorem linesFrom_append_feed {line body rest : List α} (h : feed ∉ body) :
    linesFrom feed mark line (body ++ feed :: rest) =
      (dropMark mark (body.reverse ++ line)).reverse :: linesFrom feed mark [] rest := by
  rw [linesFrom_append h, linesFrom, if_pos rfl]

/-- Lines that are ended one by one are read one by one. -/
theorem linesFrom_flatMap_append {lines : List (List α)} (h : ∀ line ∈ lines, feed ∉ line)
    (rest : List α) : linesFrom feed mark [] (lines.flatMap (· ++ [feed]) ++ rest) =
      lines.map (chomp mark) ++ linesFrom feed mark [] rest := by
  induction lines with
  | nil => rfl
  | cons line lines ih =>
    rw [List.forall_mem_cons] at h
    rw [List.flatMap_cons, List.append_assoc, List.append_assoc, List.singleton_append,
      linesFrom_append_feed h.1, List.append_nil, ih h.2]
    rfl

theorem linesFrom_flatMap {lines : List (List α)} (h : ∀ line ∈ lines, feed ∉ line) :
    linesFrom feed mark [] (lines.flatMap (· ++ [feed])) = lines.map (chomp mark) := by
  calc linesFrom feed mark [] (lines.flatMap (· ++ [feed]))
      = linesFrom feed mark [] (lines.flatMap (· ++ [feed]) ++ []) := by rw [List.append_nil]
    _ = lines.map (chomp mark) ++ linesFrom feed mark [] [] := linesFrom_flatMap_append h []
    _ = lines.map (chomp mark) := List.append_nil _

end PetriAlign.Text
