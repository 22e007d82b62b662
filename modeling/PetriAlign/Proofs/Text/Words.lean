import Mathlib.Data.List.Basic
import PetriAlign.Text.Blank

/-!
# The words of a text

A text falls apart into words at each of its blanks, and what has no blanks is one word.
-/

namespace PetriAlign.Text

variable {cs ds word : List Char} {c : Char}

theorem any_isBlank_eq_false_iff : cs.any isBlank = false ↔ ∀ c ∈ cs, isBlank c = false := by
  simp only [List.any_eq_false, Bool.not_eq_true]

/-- A blank ends the word at hand. -/
theorem wordsFrom_blank (hc : isBlank c = true) :
    wordsFrom word (c :: cs) = wordsFrom word [] ++ words cs := by
  simp only [wordsFrom, if_pos hc]
  cases word <;> rfl

theorem wordsFrom_notBlank (hc : isBlank c = false) :
    wordsFrom word (c :: cs) = wordsFrom (c :: word) cs := by
  simp only [wordsFrom, hc, Bool.false_eq_true, if_false]

/-- The pieces between blanks that are not empty, the first one continuing the word at hand. -/
theorem wordsFrom_eq_filter_splitOnP : wordsFrom word cs =
    ((cs.splitOnP isBlank).modifyHead (word.reverse ++ ·)).filter (!·.isEmpty) := by
  induction cs generalizing word with
  | nil =>
    rw [wordsFrom, List.splitOnP_nil, List.modifyHead_cons, List.append_nil]
    cases word <;> simp
  | cons c cs ih =>
    rw [List.splitOnP_cons_eq_if_modifyHead]
    cases hc : isBlank c with
    | true =>
      have hwords : words cs = (cs.splitOnP isBlank).filter (!·.isEmpty) :=
        ih.trans (congrArg _ (congrFun List.modifyHead_id _))
      rw [wordsFrom_blank hc, hwords, if_pos rfl, List.modifyHead_cons, List.append_nil, wordsFrom]
      cases word <;> simp
    | false =>
      rw [wordsFrom_notBlank hc, ih, if_neg Bool.false_ne_true, List.modifyHead_modifyHead]
      simp only [List.reverse_cons, List.append_assoc, List.singleton_append]
      rfl

/-- The words are the pieces between blanks that are not empty. -/
theorem words_eq_filter_splitOnP (cs : List Char) :
    words cs = (cs.splitOnP isBlank).filter (!·.isEmpty) :=
  wordsFrom_eq_filter_splitOnP.trans (congrArg _ (congrFun List.modifyHead_id _))

/-- A blank parts the words before it from those behind it. -/
theorem words_append_blank (hc : isBlank c = true) (cs ds : List Char) :
    words (cs ++ c :: ds) = words cs ++ words ds := by
  simp only [words_eq_filter_splitOnP, List.splitOnP_append_cons cs ds hc, List.filter_append]

/-- A text without blanks is one word. -/
theorem words_eq_singleton (hne : cs ≠ []) (h : ∀ c ∈ cs, isBlank c = false) :
    words cs = [cs] := by
  rw [words_eq_filter_splitOnP, List.splitOnP_eq_singleton h]
  simp [hne]

theorem notBlank_of_mem_wordsFrom_nil (hword : ∀ c ∈ word, isBlank c = false)
    (h : ds ∈ wordsFrom word []) : ∀ c ∈ ds, isBlank c = false := by
  rw [wordsFrom] at h
  split at h
  · exact absurd h List.not_mem_nil
  · rw [List.mem_singleton.1 h]
    exact fun c hc ↦ hword c (List.mem_reverse.1 hc)

theorem notBlank_of_mem_wordsFrom (hword : ∀ c ∈ word, isBlank c = false)
    (h : ds ∈ wordsFrom word cs) : ∀ c ∈ ds, isBlank c = false := by
  induction cs generalizing word with
  | nil => exact notBlank_of_mem_wordsFrom_nil hword h
  | cons c cs ih =>
    cases hc : isBlank c with
    | true =>
      rw [wordsFrom_blank hc, List.mem_append] at h
      rcases h with h | h
      · exact notBlank_of_mem_wordsFrom_nil hword h
      · exact ih (by simp) h
    | false =>
      rw [wordsFrom_notBlank hc] at h
      exact ih (List.forall_mem_cons.2 ⟨hc, hword⟩) h

/-- No word has a blank in it. -/
theorem notBlank_of_mem_words (h : word ∈ words cs) : ∀ c ∈ word, isBlank c = false :=
  notBlank_of_mem_wordsFrom (by simp) h

end PetriAlign.Text
