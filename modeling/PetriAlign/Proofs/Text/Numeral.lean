import Mathlib.Tactic
import PetriAlign.Proofs.Text.Strip
import PetriAlign.Text.Numeral

/-!
# Decimal numerals read back

The decimal text of a number consists of digits, and reading it gives the number again. Two
numbers with one text are therefore equal, which is what keeps numbered ids apart. What is read as
a count is any text of digits with the value of the count, and a plus sign may stand before it.
-/

namespace PetriAlign.Text

theorem toNat_digitChar {d : Nat} (h : d < 10) : (digitChar d).toNat = 48 + d := by
  have hvalid : (48 + d).isValidChar := by
    left
    omega
  rw [digitChar, Char.ofNat, dif_pos hvalid]
  rfl

theorem digit?_digitChar {d : Nat} (h : d < 10) : digit? (digitChar d) = some d := by
  have hlow : '0' ≤ digitChar d := by
    rw [Char.le_def, UInt32.le_iff_toNat_le]
    change 48 ≤ (digitChar d).toNat
    rw [toNat_digitChar h]
    omega
  have hhigh : digitChar d ≤ '9' := by
    rw [Char.le_def, UInt32.le_iff_toNat_le]
    change (digitChar d).toNat ≤ 57
    rw [toNat_digitChar h]
    omega
  simp [digit?, hlow, hhigh, toNat_digitChar h]

/-- The characters of a decimal numeral. -/
theorem exists_digit_of_mem_decimal {n : Nat} {c : Char} (h : c ∈ decimal n) :
    ∃ d < 10, c = digitChar d := by
  induction n using Nat.strong_induction_on with
  | _ n ih =>
    rw [decimal] at h
    split at h
    · rename_i hn
      exact ⟨n, hn, List.mem_singleton.1 h⟩
    · rename_i hn
      rcases List.mem_append.1 h with h | h
      · exact ih (n / 10) (by omega) h
      · exact ⟨n % 10, Nat.mod_lt _ (by omega), List.mem_singleton.1 h⟩

theorem decimal_ne_nil (n : Nat) : decimal n ≠ [] := by
  rw [decimal]
  split <;> simp

theorem digitsFrom_append (value : Nat) (left right : List Char) :
    digitsFrom value (left ++ right) = (digitsFrom value left).bind (digitsFrom · right) := by
  induction left generalizing value with
  | nil => rfl
  | cons c left ih =>
    simp only [List.cons_append, digitsFrom]
    cases digit? c with
    | none => rfl
    | some d => exact ih _

theorem digitsFrom_decimal (n : Nat) : digitsFrom 0 (decimal n) = some n := by
  induction n using Nat.strong_induction_on with
  | _ n ih =>
    rw [decimal]
    split
    · rename_i hn
      simp [digitsFrom, digit?_digitChar hn]
    · rename_i hn
      rw [digitsFrom_append, ih (n / 10) (by omega)]
      simp only [Option.bind_some, digitsFrom, digit?_digitChar (Nat.mod_lt n (by omega : 10 > 0))]
      congr 1
      omega

theorem decimal_injective : Function.Injective decimal := by
  intro m n h
  have hm := digitsFrom_decimal m
  rw [h, digitsFrom_decimal n] at hm
  exact (Option.some.inj hm).symm

@[simp] theorem toList_showNat (n : Nat) : (showNat n).toList = decimal n := by
  simp [showNat]

/-- No numeral contains a character that is not a digit. -/
theorem notMem_decimal {c : Char} (n : Nat) (h : digit? c = none) : c ∉ decimal n := by
  intro hc
  obtain ⟨d, hd, rfl⟩ := exists_digit_of_mem_decimal hc
  simp [digit?_digitChar hd] at h

/-! ## What is read as a count -/

/-- The digits write a number, the highest digit first. -/
def digitsValue (digits : List Char) : Nat :=
  Nat.ofDigits 10 (digits.reverse.map fun c ↦ c.toNat - 48)

theorem digitsValue_cons (c : Char) (digits : List Char) :
    digitsValue (c :: digits) = (c.toNat - 48) * 10 ^ digits.length + digitsValue digits := by
  rw [digitsValue, List.reverse_cons, List.map_append, Nat.ofDigits_append, List.map_singleton,
    Nat.ofDigits_singleton, List.length_map, List.length_reverse, digitsValue]
  ring

/-- The word is a decimal count: digits with the value of the count, with or without a plus sign
before them. -/
def IsCount (word : List Char) (n : UInt64) : Prop :=
  ∃ digits, (word = digits ∨ word = '+' :: digits) ∧ digits ≠ [] ∧
    (∀ c ∈ digits, c.isDigit) ∧ digitsValue digits = n.toNat

theorem digit?_eq_some_iff {c : Char} {d : Nat} :
    digit? c = some d ↔ c.isDigit ∧ c.toNat - 48 = d := by
  have hdigit : ('0' ≤ c && c ≤ '9') = true ↔ c.isDigit := by
    rw [Bool.and_eq_true, decide_eq_true_iff, decide_eq_true_iff, Char.isDigit_iff_toNat,
      Char.le_def, Char.le_def, UInt32.le_iff_toNat_le, UInt32.le_iff_toNat_le]
    rfl
  simp only [digit?, hdigit]
  split <;> simp_all

theorem digitsFrom_eq_some_iff {value n : Nat} {digits : List Char} :
    digitsFrom value digits = some n ↔ (∀ c ∈ digits, c.isDigit) ∧
      value * 10 ^ digits.length + digitsValue digits = n := by
  induction digits generalizing value with
  | nil => simp [digitsFrom, digitsValue]
  | cons c digits ih =>
    have hvalue (d : Nat) : (value * 10 + d) * 10 ^ digits.length + digitsValue digits =
        value * 10 ^ (c :: digits).length + (d * 10 ^ digits.length + digitsValue digits) := by
      rw [List.length_cons]
      ring
    simp only [digitsFrom, Option.bind_eq_some_iff, digit?_eq_some_iff, ih, hvalue,
      digitsValue_cons, List.forall_mem_cons]
    constructor
    · rintro ⟨d, ⟨hc, rfl⟩, hdigits, hn⟩
      exact ⟨⟨hc, hdigits⟩, hn⟩
    · rintro ⟨⟨hc, hdigits⟩, hn⟩
      exact ⟨_, ⟨hc, rfl⟩, hdigits, hn⟩

theorem count?_eq_some_iff {m : Nat} {n : UInt64} : count? m = some n ↔ m = n.toNat := by
  have hlt : n.toNat < UInt64.size := n.toNat_lt
  rw [count?]
  split
  · rename_i hm
    rw [Option.some.injEq, ← UInt64.toNat_inj, UInt64.toNat_ofNat_of_lt' hm]
  · simp only [reduceCtorEq, false_iff]
    omega

theorem bind_natural?_eq_some_iff {digits : List Char} {n : UInt64} :
    (natural? digits).bind count? = some n ↔ digits ≠ [] ∧
      (∀ c ∈ digits, c.isDigit) ∧ digitsValue digits = n.toNat := by
  cases digits with
  | nil => simp [natural?]
  | cons c digits =>
    simp only [natural?, Option.bind_eq_some_iff, digitsFrom_eq_some_iff, count?_eq_some_iff,
      Nat.zero_mul, Nat.zero_add, ne_eq, reduceCtorEq, not_false_eq_true, true_and]
    constructor
    · rintro ⟨m, ⟨hdigits, rfl⟩, hn⟩
      exact ⟨hdigits, hn⟩
    · rintro ⟨hdigits, hn⟩
      exact ⟨_, ⟨hdigits, rfl⟩, hn⟩

/-- A word is read as a count exactly if it writes the count. -/
theorem readCount?_eq_some_iff {word : List Char} {n : UInt64} :
    readCount? word = some n ↔ IsCount word n := by
  have hplus {digits : List Char} (h : ∀ c ∈ '+' :: digits, c.isDigit) : False :=
    absurd (h '+' List.mem_cons_self) (by decide)
  unfold readCount?
  split
  · rename_i rest
    rw [bind_natural?_eq_some_iff]
    constructor
    · exact fun h ↦ ⟨rest, .inr rfl, h⟩
    · rintro ⟨digits, rfl | hword, hne, hdigits, hn⟩
      · exact (hplus hdigits).elim
      · rw [(List.cons.inj hword).2]
        exact ⟨hne, hdigits, hn⟩
  · rename_i hword
    rw [bind_natural?_eq_some_iff]
    constructor
    · exact fun h ↦ ⟨word, .inl rfl, h⟩
    · rintro ⟨digits, rfl | rfl, h⟩
      · exact h
      · exact (hword digits rfl).elim

theorem IsCount.unique {word : List Char} {n n' : UInt64} (h : IsCount word n)
    (h' : IsCount word n') : n = n' :=
  Option.some.inj ((readCount?_eq_some_iff.2 h).symm.trans (readCount?_eq_some_iff.2 h'))

/-- A count consists of digits and a plus sign. -/
theorem IsCount.notMem {word : List Char} {n : UInt64} {c : Char} (h : IsCount word n)
    (hdigit : c.isDigit = false) (hplus : c ≠ '+') : c ∉ word := by
  obtain ⟨digits, hword, -, hdigits, -⟩ := h
  have hc : c ∉ digits := by
    intro hmem
    rw [hdigits c hmem] at hdigit
    cases hdigit
  rcases hword with rfl | rfl
  · exact hc
  · exact List.not_mem_cons_of_ne_of_not_mem hplus hc

theorem readCount?_decimal (n : UInt64) : readCount? (decimal n.toNat) = some n := by
  have hdigits := digitsFrom_eq_some_iff.1 (digitsFrom_decimal n.toNat)
  rw [Nat.zero_mul, Nat.zero_add] at hdigits
  exact readCount?_eq_some_iff.2 ⟨_, .inl rfl, decimal_ne_nil _, hdigits⟩

/-! ## Numerals among other characters -/

theorem notBlank_decimal (n : Nat) : ∀ c ∈ decimal n, isBlank c = false := by
  intro c hc
  obtain ⟨d, hd, rfl⟩ := exists_digit_of_mem_decimal hc
  simp only [isBlank, toNat_digitChar hd]
  interval_cases d <;> decide

/-- Digits are not blank, so that nothing of a numeral is stripped. -/
theorem strip_decimal (n : Nat) : strip isBlank (decimal n) = decimal n :=
  strip_eq_self (notBlank_decimal n)

end PetriAlign.Text
