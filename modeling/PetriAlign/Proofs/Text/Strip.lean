import Mathlib.Data.List.TakeWhile
import Mathlib.Data.List.Basic
import PetriAlign.Text.Blank

/-!
# Cutting off the ends of a text

What is cut off the ends depends only on which elements are to go. So cutting can be done before or
after each element is written out, if the written elements go or stay as a whole.
-/

namespace PetriAlign.Text

variable {α β : Type} {p : α → Bool} {q : β → Bool} {f : α → List β}

theorem dropWhile_until {body rest : List α} {x : α} (hbody : ∀ y ∈ body, p y = true)
    (hx : p x = false) : (body ++ x :: rest).dropWhile p = x :: rest := by
  rw [List.dropWhile_append_of_pos hbody, List.dropWhile_cons_of_neg (by simp [hx])]

theorem takeWhile_until {body rest : List α} {x : α} (hbody : ∀ y ∈ body, p y = true)
    (hx : p x = false) : (body ++ x :: rest).takeWhile p = body := by
  rw [List.takeWhile_append_of_pos hbody, List.takeWhile_cons_of_neg (by simp [hx]),
    List.append_nil]

/-- Where an element stands for the first time, the lists before it and behind it are told apart. -/
theorem append_cons_inj {x : α} {xs ys rest rest' : List α} (hxs : x ∉ xs) (hys : x ∉ ys)
    (h : xs ++ x :: rest = ys ++ x :: rest') : xs = ys ∧ rest = rest' := by
  classical
  have hbody (zs : List α) (hzs : x ∉ zs) (y : α) (hy : y ∈ zs) : decide (y ≠ x) = true :=
    decide_eq_true (ne_of_mem_of_not_mem hy hzs)
  have hx : decide (x ≠ x) = false := decide_eq_false fun hne ↦ hne rfl
  constructor
  · rw [← takeWhile_until (hbody xs hxs) hx, h, takeWhile_until (hbody ys hys) hx]
  · rw [← List.cons_inj_right x, ← dropWhile_until (hbody xs hxs) hx, h,
      dropWhile_until (hbody ys hys) hx]

theorem dropWhile_eq_self {xs : List α} (h : ∀ x ∈ xs, p x = false) : xs.dropWhile p = xs := by
  cases xs with
  | nil => rfl
  | cons x xs => rw [List.dropWhile_cons_of_neg (by simp [h x List.mem_cons_self])]

/-- Where nothing is to go, nothing is cut off. -/
theorem strip_eq_self {xs : List α} (h : ∀ x ∈ xs, p x = false) : strip p xs = xs := by
  have hreverse : ∀ x ∈ xs.reverse, p x = false := by
    intro x hx
    exact h x (List.mem_reverse.1 hx)
  rw [strip, dropWhile_eq_self h, dropWhile_eq_self hreverse, List.reverse_reverse]

theorem dropWhile_flatMap (hgo : ∀ a, p a = true → ∀ b ∈ f a, q b = true)
    (hstay : ∀ a, p a = false → f a ≠ [] ∧ ∀ b ∈ f a, q b = false) (xs : List α) :
    (xs.flatMap f).dropWhile q = (xs.dropWhile p).flatMap f := by
  induction xs with
  | nil => rfl
  | cons x xs ih =>
    rw [List.flatMap_cons]
    cases hx : p x with
    | true =>
      rw [List.dropWhile_cons_of_pos hx, List.dropWhile_append_of_pos (hgo x hx), ih]
    | false =>
      obtain ⟨hne, hall⟩ := hstay x hx
      rw [List.dropWhile_cons_of_neg (by simp [hx]), List.flatMap_cons]
      cases hf : f x with
      | nil => exact absurd hf hne
      | cons b bs =>
        rw [hf] at hall
        rw [List.cons_append, List.dropWhile_cons_of_neg (by simp [hall b List.mem_cons_self])]

/-- Elements that are written out as blanks or without blanks can be cut off before. -/
theorem strip_flatMap (hgo : ∀ a, p a = true → ∀ b ∈ f a, q b = true)
    (hstay : ∀ a, p a = false → f a ≠ [] ∧ ∀ b ∈ f a, q b = false) (xs : List α) :
    strip q (xs.flatMap f) = (strip p xs).flatMap f := by
  have hgo' (a : α) (ha : p a = true) (b : β) (hb : b ∈ (f a).reverse) : q b = true :=
    hgo a ha b (List.mem_reverse.1 hb)
  have hstay' (a : α) (ha : p a = false) :
      (f a).reverse ≠ [] ∧ ∀ b ∈ (f a).reverse, q b = false := by
    refine ⟨fun hnil ↦ (hstay a ha).1 (List.reverse_eq_nil_iff.1 hnil), fun b hb ↦ ?_⟩
    exact (hstay a ha).2 b (List.mem_reverse.1 hb)
  have hreverse (ys : List α) : (ys.flatMap f).reverse = ys.reverse.flatMap (List.reverse ∘ f) :=
    List.reverse_flatMap
  calc strip q (xs.flatMap f)
      = (((xs.dropWhile p).flatMap f).reverse.dropWhile q).reverse := by
        rw [strip, dropWhile_flatMap hgo hstay]
    _ = (((xs.dropWhile p).reverse.dropWhile p).flatMap (List.reverse ∘ f)).reverse := by
        rw [hreverse, dropWhile_flatMap (f := List.reverse ∘ f) hgo' hstay']
    _ = (strip p xs).flatMap f := by
        rw [← List.reverse_reverse ((xs.dropWhile p).reverse.dropWhile p), ← hreverse,
          List.reverse_reverse]
        rfl

/-- Nothing is left where everything is to go. -/
theorem strip_eq_nil_iff {xs : List α} : strip p xs = [] ↔ xs.dropWhile p = [] := by
  unfold strip
  rw [List.reverse_eq_nil_iff]
  constructor
  · intro h
    cases hdrop : xs.dropWhile p with
    | nil => rfl
    | cons x rest =>
      have hx : p x = true := by
        apply List.dropWhile_eq_nil_iff.1 h x
        rw [hdrop]
        exact List.mem_reverse.2 List.mem_cons_self
      have hstays := List.head_dropWhile_not p (l := xs) (by simp [hdrop])
      simp [hdrop, hx] at hstays
  · intro h
    rw [h]
    rfl

/-- What is left after both ends are cut off stands in the text. -/
theorem strip_infix (p : α → Bool) (xs : List α) : strip p xs <:+: xs := by
  have hend : strip p xs <+: xs.dropWhile p := by
    rw [← List.reverse_suffix, strip, List.reverse_reverse]
    exact List.dropWhile_suffix p
  exact hend.isInfix.trans (List.dropWhile_suffix p).isInfix

end PetriAlign.Text
