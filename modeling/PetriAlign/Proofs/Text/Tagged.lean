import PetriAlign.Proofs.Text.Numeral

/-!
# Numbers behind a tag

Ids that are made of a tag and some numbers can be taken apart again: the tag ends at the first
digit, and no numeral holds the letter that stands between two numbers. So different tags or
different numbers give different ids.
-/

namespace PetriAlign.Text

/-- Numbers behind a tag, with an `n` between any two. -/
def tagged (tag : String) (numbers : List Nat) : String :=
  tag ++ "n".intercalate (numbers.map showNat)

/-- Whether the numbers behind a tag can be told from it. -/
def IsTag (tag : String) : Prop := ∀ c ∈ tag.toList, digit? c = none

instance (tag : String) : Decidable (IsTag tag) :=
  decidable_of_iff (tag.toList.all fun c ↦ (digit? c).isNone) (by simp [IsTag])

/-- The numbers of an id, as characters. -/
def numerals (numbers : List Nat) : List Char := ['n'].intercalate (numbers.map decimal)

variable {tag tag' : String} {numbers numbers' : List Nat}

theorem toList_tagged (tag : String) (numbers : List Nat) :
    (tagged tag numbers).toList = tag.toList ++ numerals numbers := by
  simp [tagged, numerals, String.toList_intercalate, Function.comp_def]

theorem splitOn_numerals (hne : numbers ≠ []) :
    (numerals numbers).splitOn 'n' = numbers.map decimal := by
  apply List.splitOn_intercalate
  · intro cs hcs
    obtain ⟨n, -, rfl⟩ := List.mem_map.1 hcs
    exact notMem_decimal n (by decide)
  · exact mt List.map_eq_nil_iff.1 hne

theorem numerals_inj (hne : numbers ≠ []) (hne' : numbers' ≠ [])
    (h : numerals numbers = numerals numbers') : numbers = numbers' := by
  have hsplit : numbers.map decimal = numbers'.map decimal := by
    calc
      _ = (numerals numbers).splitOn 'n' := (splitOn_numerals hne).symm
      _ = (numerals numbers').splitOn 'n' := by rw [h]
      _ = numbers'.map decimal := splitOn_numerals hne'
  exact List.map_injective_iff.2 decimal_injective hsplit

theorem exists_numerals_eq_cons (hne : numbers ≠ []) :
    ∃ c rest, numerals numbers = c :: rest ∧ digit? c ≠ none := by
  obtain ⟨n, others, rfl⟩ := List.exists_cons_of_ne_nil hne
  obtain ⟨c, cs, hcs⟩ := List.exists_cons_of_ne_nil (decimal_ne_nil n)
  obtain ⟨d, hd, rfl⟩ := exists_digit_of_mem_decimal (hcs ▸ List.mem_cons_self)
  have hdigit : digit? (digitChar d) ≠ none := by
    rw [digit?_digitChar hd]
    exact Option.some_ne_none d
  cases others with
  | nil => exact ⟨digitChar d, cs, by simp [numerals, hcs], hdigit⟩
  | cons m others =>
    refine ⟨digitChar d, cs ++ 'n' :: numerals (m :: others), ?_, hdigit⟩
    simp [numerals, hcs]

theorem takeWhile_tagged (htag : IsTag tag) (hne : numbers ≠ []) :
    (tagged tag numbers).toList.takeWhile (digit? · = none) = tag.toList := by
  obtain ⟨c, rest, hnumerals, hc⟩ := exists_numerals_eq_cons hne
  rw [toList_tagged, hnumerals]
  apply takeWhile_until
  · exact fun c hc ↦ decide_eq_true (htag c hc)
  · exact decide_eq_false hc

/-- An id tells its tag and its numbers. -/
theorem tagged_inj (htag : IsTag tag) (htag' : IsTag tag') (hne : numbers ≠ [])
    (hne' : numbers' ≠ []) (h : tagged tag numbers = tagged tag' numbers') :
    tag = tag' ∧ numbers = numbers' := by
  have heq : tag = tag' := by
    apply String.toList_inj.1
    calc
      _ = (tagged tag numbers).toList.takeWhile (digit? · = none) :=
        (takeWhile_tagged htag hne).symm
      _ = (tagged tag' numbers').toList.takeWhile (digit? · = none) := by rw [h]
      _ = tag'.toList := takeWhile_tagged htag' hne'
  subst heq
  have hlist := congrArg String.toList h
  rw [toList_tagged, toList_tagged] at hlist
  exact ⟨rfl, numerals_inj hne hne' (List.append_cancel_left hlist)⟩

theorem tagged_ne (htag : IsTag tag) (htag' : IsTag tag') (hne : numbers ≠ [])
    (hne' : numbers' ≠ []) (h : tag ≠ tag') : tagged tag numbers ≠ tagged tag' numbers' :=
  fun heq ↦ h (tagged_inj htag htag' hne hne' heq).1

end PetriAlign.Text
