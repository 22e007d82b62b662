import Mathlib.Algebra.Ring.Parity
import PetriAlign.Proofs.Dot.Quoted

/-!
# Escaped labels

A label is escaped by doubling its backslashes and by putting one more before each of its quotation
marks. So an even number of backslashes stands at its end and an odd number before each mark in it:
whatever follows, the quoted string ends at the mark that was put behind the label, and the label
can be taken back from what was read.
-/

namespace PetriAlign.Dot

variable {c : Char} {before content after cs : List Char}

/-! ## Where a quoted string ends -/

/-- The number of backslashes at the end of a text. -/
def slashes (cs : List Char) : Nat := (cs.reverse.takeWhile (· = '\\')).length

theorem slashes_concat (cs : List Char) (c : Char) :
    slashes (cs ++ [c]) = if c = '\\' then slashes cs + 1 else 0 := by
  by_cases hc : c = '\\' <;> simp [slashes, hc]

/-- A quoted string goes up to the first mark with an even number of backslashes right before it.
Of the string, `before` was read already. -/
structure EndsBehind (before content after cs : List Char) : Prop where
  eq_append : cs = content ++ '\x22' :: after
  even : Even (slashes (before ++ content))
  odd : ∀ front rest, content = front ++ '\x22' :: rest → Odd (slashes (before ++ front))

theorem endsBehind_mark (heven : Even (slashes before)) :
    EndsBehind before content after ('\x22' :: cs) ↔ content = [] ∧ after = cs := by
  constructor
  · rintro ⟨hcs, -, hodd⟩
    cases content with
    | nil => exact ⟨rfl, (List.cons.inj hcs).2.symm⟩
    | cons d content =>
      obtain rfl := (List.cons.inj hcs).1
      have hfirst := hodd [] content rfl
      rw [List.append_nil] at hfirst
      exact absurd heven (Nat.not_even_iff_odd.2 hfirst)
  · rintro ⟨rfl, rfl⟩
    refine ⟨rfl, by rwa [List.append_nil], fun front rest hcontent ↦ ?_⟩
    exact absurd hcontent.symm (List.append_ne_nil_of_right_ne_nil _ (List.cons_ne_nil _ _))

theorem endsBehind_cons (hmark : c = '\x22' → Odd (slashes before)) :
    EndsBehind before content after (c :: cs) ↔
      ∃ content', content = c :: content' ∧ EndsBehind (before ++ [c]) content' after cs := by
  constructor
  · rintro ⟨hcs, heven, hodd⟩
    cases content with
    | nil =>
      rw [List.append_nil] at heven
      exact absurd heven (Nat.not_even_iff_odd.2 (hmark (List.cons.inj hcs).1))
    | cons d content =>
      obtain ⟨rfl, htail⟩ := List.cons.inj hcs
      refine ⟨content, rfl, htail, by rwa [List.append_assoc], fun front rest hcontent ↦ ?_⟩
      rw [List.append_assoc]
      exact hodd (c :: front) rest (congrArg (c :: ·) hcontent)
  · rintro ⟨content', rfl, rfl, heven, hodd⟩
    rw [List.append_assoc] at heven
    refine ⟨rfl, heven, fun front rest hcontent ↦ ?_⟩
    cases front with
    | nil =>
      rw [List.append_nil]
      exact hmark (List.cons.inj hcontent).1
    | cons d front =>
      obtain ⟨rfl, htail⟩ := List.cons.inj hcontent
      have hfront := hodd front rest htail
      rwa [List.append_assoc] at hfront

/-- The scanner keeps no more of what it has read than the parity of the backslashes at its end. -/
theorem contentFrom_eq_some_iff :
    contentFrom (decide (Odd (slashes before))) cs = some (content, after) ↔
      EndsBehind before content after cs := by
  induction cs generalizing before content with
  | nil =>
    refine ⟨nofun, fun h ↦ ?_⟩
    exact absurd h.eq_append.symm (List.append_ne_nil_of_right_ne_nil _ (List.cons_ne_nil _ _))
  | cons c cs ih =>
    rw [contentFrom]
    split
    case isTrue hend =>
      obtain ⟨rfl, heven⟩ := hend
      rw [decide_eq_false_iff_not, Nat.not_odd_iff_even] at heven
      rw [endsBehind_mark heven, Option.some.injEq, Prod.mk.injEq, eq_comm, @eq_comm _ cs]
    case isFalse hend =>
      rw [not_and, Bool.not_eq_false, decide_eq_true_iff] at hend
      have hparity : (decide (c = '\\') && !decide (Odd (slashes before))) =
          decide (Odd (slashes (before ++ [c]))) := by
        rw [slashes_concat]
        by_cases hc : c = '\\'
        · rw [if_pos hc, decide_eq_true hc, Bool.true_and, ← decide_not]
          exact decide_eq_decide.2 Nat.odd_add_one.symm
        · rw [if_neg hc, decide_eq_false hc, Bool.false_and]
          rfl
      rw [endsBehind_cons hend, Option.map_eq_some_iff, hparity]
      constructor
      · rintro ⟨⟨content', after'⟩, hread, heq⟩
        cases heq
        exact ⟨content', rfl, ih.1 hread⟩
      · rintro ⟨content', rfl, hends⟩
        exact ⟨(content', after), ih.2 hends, rfl⟩

/-! ## Labels -/

/-- A text with `written` in the place of each `c`. -/
def replaceChar (c : Char) (written cs : List Char) : List Char :=
  cs.flatMap fun d ↦ if d = c then written else [d]

/-- Backslashes are doubled first, so that those before the marks stay single. -/
theorem toList_escape (s : String) : (escape s).toList =
    replaceChar '\x22' ['\\', '\x22'] (replaceChar '\\' ['\\', '\\'] s.toList) := by
  rw [escape, String.toList_ofList, replaceChar, replaceChar, List.flatMap_assoc]
  refine congrArg (s.toList.flatMap ·) (funext fun c ↦ ?_)
  rw [escapeChar]
  split
  case isTrue => rfl
  case isFalse => simp

/-- An escaped text is scanned as a whole and can be taken back. -/
theorem contentFrom_escape (s : String) (rest : List Char) :
    contentFrom false ((escape s).toList ++ '\x22' :: rest) = some ((escape s).toList, rest) ∧
      unescape (escape s).toList = s.toList := by
  have hread : quotedFrom ((escape s).toList ++ '\x22' :: rest) = some (s.toList, rest) := by
    rw [escape, String.toList_ofList]
    exact quotedFrom_flatMap_escapeChar s.toList rest
  rw [quotedFrom, Option.map_eq_some_iff] at hread
  obtain ⟨⟨content, after⟩, hcontent, heq⟩ := hread
  obtain ⟨htext, rfl⟩ := Prod.mk.inj heq
  obtain rfl := List.append_cancel_right (contentFrom_eq_some hcontent)
  exact ⟨hcontent, htext⟩

/-- A label between quotation marks ends at the mark behind it, whatever follows, and is taken back
by reading pairs from left to right. No two labels are escaped to one text. -/
theorem escape_reversible :
    (∀ s : String, (escape s).toList =
      replaceChar '\x22' ['\\', '\x22'] (replaceChar '\\' ['\\', '\\'] s.toList)) ∧
    (∀ (s : String) (rest content after : List Char),
      EndsBehind [] content after ((escape s).toList ++ '\x22' :: rest) ↔
        content = (escape s).toList ∧ after = rest) ∧
    (∀ s : String, unescape (escape s).toList = s.toList) ∧
    Function.Injective escape := by
  have hback (s : String) : unescape (escape s).toList = s.toList := (contentFrom_escape s []).2
  refine ⟨toList_escape, fun s rest content after ↦ ?_, hback, fun s s' heq ↦ ?_⟩
  · rw [← contentFrom_eq_some_iff]
    change contentFrom false _ = _ ↔ _
    rw [(contentFrom_escape s rest).1, Option.some.injEq, Prod.mk.injEq, eq_comm, @eq_comm _ rest]
  · rw [← String.toList_inj, ← hback, heq, hback]

/-- Three backslashes before a mark become seven, and the one at the end becomes two. -/
example : escape "\\\\\\\x22\\" = "\\\\\\\\\\\\\\\x22\\\\" := by decide

end PetriAlign.Dot
