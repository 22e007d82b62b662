import Mathlib.Data.List.Infix
import PetriAlign.Dot.Basic

/-!
# Quoted strings of DOT

A quotation mark ends a quoted string unless an odd number of backslashes stands right before it.
An escaped text is read back as it was, whatever follows. A text that is put between the marks as it
is, is read back if and only if no mark stands in it, no two backslashes stand side by side in it
and no backslash stands at its end.
-/

namespace PetriAlign.Dot

/-! ## Reading -/

/-- The content of a quoted string and what follows its last mark. Reading begins inside the string,
after an odd number of backslashes or not. -/
def contentFrom (odd : Bool) : List Char → Option (List Char × List Char)
  | [] => none
  | c :: rest =>
    if c = '\x22' ∧ odd = false then some ([], rest)
    else (contentFrom (c = '\\' && !odd) rest).map fun (content, after) ↦ (c :: content, after)

/-- The text that the content of a quoted string stands for. -/
def unescape : List Char → List Char
  | [] => []
  | '\\' :: '\\' :: rest => '\\' :: unescape rest
  | '\\' :: '\x22' :: rest => '\x22' :: unescape rest
  | c :: rest => c :: unescape rest

/-- The text of the quoted string in which reading begins, and what follows it. -/
def quotedFrom (cs : List Char) : Option (List Char × List Char) :=
  (contentFrom false cs).map fun (content, after) ↦ (unescape content, after)

theorem contentFrom_eq_some {odd : Bool} {cs content after : List Char}
    (h : contentFrom odd cs = some (content, after)) : cs = content ++ '\x22' :: after := by
  induction cs generalizing odd content with
  | nil => cases h
  | cons c cs ih =>
    rw [contentFrom] at h
    split at h
    case isTrue hend =>
      cases h
      rw [hend.1, List.nil_append]
    case isFalse =>
      rw [Option.map_eq_some_iff] at h
      obtain ⟨⟨content', after'⟩, hrest, heq⟩ := h
      cases heq
      rw [ih hrest, List.cons_append]

theorem length_quotedFrom {cs text after : List Char} (h : quotedFrom cs = some (text, after)) :
    after.length < cs.length := by
  rw [quotedFrom, Option.map_eq_some_iff] at h
  obtain ⟨⟨content, after'⟩, hcontent, heq⟩ := h
  cases heq
  rw [contentFrom_eq_some hcontent, List.length_append, List.length_cons]
  omega

/-- The texts of the quoted strings in a DOT text; none if a string has no end. -/
def strings : List Char → Option (List String)
  | [] => some []
  | c :: rest =>
    if c = '\x22' then
      match _h : quotedFrom rest with
      | none => none
      | some (text, after) => (strings after).map (.ofList text :: ·)
    else strings rest
termination_by cs => cs.length
decreasing_by
  · exact Nat.lt_succ_of_lt (length_quotedFrom _h)
  · exact Nat.lt_succ_self _

/-! ## Character by character -/

variable {c : Char} {cs rest text after : List Char}

/-- A character in front of a text that was read. -/
def push (c : Char) (read : List Char × List Char) : List Char × List Char := (c :: read.1, read.2)

theorem unescape_plain (hc : c ≠ '\\') (rest : List Char) :
    unescape (c :: rest) = c :: unescape rest := by
  rw [unescape.eq_4] <;> simp [hc]

theorem unescape_backslash (hc : c ≠ '\\') (hc' : c ≠ '\x22') (rest : List Char) :
    unescape ('\\' :: c :: rest) = '\\' :: unescape (c :: rest) := by
  rw [unescape.eq_4] <;> simp [hc, hc']

theorem unescape_escape {c : Char} (hc : c = '\\' ∨ c = '\x22') (rest : List Char) :
    unescape ('\\' :: c :: rest) = c :: unescape rest := by
  rcases hc with rfl | rfl <;> rw [unescape]

theorem contentFrom_plain (hc : c ≠ '\\') (hc' : c ≠ '\x22') (odd : Bool) (rest : List Char) :
    contentFrom odd (c :: rest) = (contentFrom false rest).map (push c) := by
  rw [contentFrom, if_neg fun h ↦ hc' h.1, decide_eq_false hc]
  rfl

theorem contentFrom_backslash (rest : List Char) :
    contentFrom false ('\\' :: rest) = (contentFrom true rest).map (push '\\') := rfl

theorem contentFrom_escaped (hc : c = '\\' ∨ c = '\x22') (rest : List Char) :
    contentFrom true (c :: rest) = (contentFrom false rest).map (push c) := by
  rcases hc with rfl | rfl <;> rfl

theorem quotedFrom_mark (rest : List Char) : quotedFrom ('\x22' :: rest) = some ([], rest) := rfl

theorem quotedFrom_plain (hc : c ≠ '\\') (hc' : c ≠ '\x22') (rest : List Char) :
    quotedFrom (c :: rest) = (quotedFrom rest).map (push c) := by
  simp only [quotedFrom, contentFrom_plain hc hc', Option.map_map]
  refine congrArg (Option.map · _) (funext fun read ↦ ?_)
  simp only [Function.comp_apply, push, unescape_plain hc]

/-- A pair is read as one character. -/
theorem quotedFrom_escape (hc : c = '\\' ∨ c = '\x22') (rest : List Char) :
    quotedFrom ('\\' :: c :: rest) = (quotedFrom rest).map (push c) := by
  simp only [quotedFrom, contentFrom_backslash, contentFrom_escaped hc, Option.map_map]
  refine congrArg (Option.map · _) (funext fun read ↦ ?_)
  simp only [Function.comp_apply, push, unescape_escape hc]

/-- A backslash before any other character stands for itself. -/
theorem quotedFrom_backslash (hc : c ≠ '\\') (hc' : c ≠ '\x22') (rest : List Char) :
    quotedFrom ('\\' :: c :: rest) = (quotedFrom (c :: rest)).map (push '\\') := by
  simp only [quotedFrom, contentFrom_backslash, contentFrom_plain hc hc', Option.map_map]
  refine congrArg (Option.map · _) (funext fun read ↦ ?_)
  simp only [Function.comp_apply, push, unescape_backslash hc hc']

/-! ## Escaped texts -/

/-- An escaped text ends at the mark that was put after it and is read as it was. -/
theorem quotedFrom_flatMap_escapeChar (cs rest : List Char) :
    quotedFrom (cs.flatMap escapeChar ++ '\x22' :: rest) = some (cs, rest) := by
  induction cs with
  | nil => rfl
  | cons c cs ih =>
    rw [List.flatMap_cons, List.append_assoc, escapeChar]
    split
    case isTrue hc =>
      rw [hc, List.cons_append, List.cons_append, quotedFrom_escape (.inl rfl), List.nil_append, ih]
      rfl
    case isFalse hc =>
      split
      case isTrue hc' =>
        rw [hc', List.cons_append, List.cons_append, quotedFrom_escape (.inr rfl), List.nil_append,
          ih]
        rfl
      case isFalse hc' =>
        rw [List.cons_append, quotedFrom_plain hc hc', List.nil_append, ih]
        rfl

/-! ## Texts as they are -/

/-- Whether a text can stand between quotation marks as it is. -/
structure IsQuotable (cs : List Char) : Prop where
  notMem : '\x22' ∉ cs
  not_infix : ¬ ['\\', '\\'] <:+: cs
  getLast?_ne : cs.getLast? ≠ some '\\'

theorem isQuotable_iff : IsQuotable cs ↔
    '\x22' ∉ cs ∧ ¬ ['\\', '\\'] <:+: cs ∧ cs.getLast? ≠ some '\\' :=
  ⟨fun ⟨h, h', h''⟩ ↦ ⟨h, h', h''⟩, fun ⟨h, h', h''⟩ ↦ ⟨h, h', h''⟩⟩

instance (cs : List Char) : Decidable (IsQuotable cs) := decidable_of_iff _ isQuotable_iff.symm

theorem isQuotable_plain_iff (hc : c ≠ '\\') (hc' : c ≠ '\x22') :
    IsQuotable (c :: cs) ↔ IsQuotable cs := by
  have hlast : (c :: cs).getLast? = some '\\' ↔ cs.getLast? = some '\\' := by
    cases cs <;> simp [hc]
  simp [isQuotable_iff, List.infix_cons_iff, hlast, Ne.symm hc, Ne.symm hc']

theorem isQuotable_backslash_iff (hc : c ≠ '\\') :
    IsQuotable ('\\' :: c :: cs) ↔ IsQuotable (c :: cs) := by
  simp [isQuotable_iff, List.infix_cons_iff, Ne.symm hc]

theorem quotedFrom_of_isQuotable (h : IsQuotable cs) (rest : List Char) :
    quotedFrom (cs ++ '\x22' :: rest) = some (cs, rest) := by
  induction cs using unescape.induct with
  | case1 => rfl
  | case2 cs _ => exact absurd (List.prefix_append ['\\', '\\'] cs).isInfix h.not_infix
  | case3 cs _ => exact absurd (by simp) h.notMem
  | case4 c cs hpair hmark ih =>
    have hc' : c ≠ '\x22' := fun hc ↦ h.notMem (hc ▸ List.mem_cons_self)
    by_cases hc : c = '\\'
    · subst hc
      cases cs with
      | nil => exact absurd rfl h.getLast?_ne
      | cons d cs =>
        have hd : d ≠ '\\' := fun hd ↦ hpair cs rfl (by rw [hd])
        have hd' : d ≠ '\x22' := fun hd' ↦ hmark cs rfl (by rw [hd'])
        have hread := ih ((isQuotable_backslash_iff hd).1 h)
        rw [List.cons_append] at hread
        rw [List.cons_append, List.cons_append, quotedFrom_backslash hd hd', hread]
        rfl
    · rw [List.cons_append, quotedFrom_plain hc hc', ih ((isQuotable_plain_iff hc hc').1 h)]
      rfl

theorem map_push_eq_some_iff {read : Option (List Char × List Char)} {d : Char} :
    read.map (push c) = some (d :: text, after) ↔ c = d ∧ read = some (text, after) := by
  cases read with
  | none => simp
  | some read => simp [push, Prod.ext_iff, and_assoc]

/-- A text that is read back with backslashes in front is read back without any, and it is
quotable. Two backslashes are read as one, which puts what is read behind what was written; it
never catches up. -/
theorem isQuotable_of_quotedFrom {k : Nat} (h : quotedFrom (cs ++ '\x22' :: rest) =
    some (List.replicate k '\\' ++ cs, after)) : k = 0 ∧ IsQuotable cs ∧ after = rest := by
  have hshift (k : Nat) (xs : List Char) :
      List.replicate k '\\' ++ '\\' :: xs = '\\' :: (List.replicate k '\\' ++ xs) := by
    rw [← List.singleton_append, ← List.append_assoc, ← List.replicate_succ', List.replicate_succ,
      List.cons_append]
  induction cs using unescape.induct generalizing k with
  | case1 =>
    rw [List.nil_append, quotedFrom_mark, List.append_nil, Option.some.injEq, Prod.mk.injEq,
      eq_comm, List.replicate_eq_nil_iff] at h
    exact ⟨h.1, by decide, h.2.symm⟩
  | case2 cs ih =>
    rw [List.cons_append, List.cons_append, quotedFrom_escape (.inl rfl), hshift,
      map_push_eq_some_iff, hshift, ← List.cons_append, ← List.replicate_succ] at h
    exact absurd (ih h.2).1 (Nat.succ_ne_zero k)
  | case3 cs ih =>
    rw [List.cons_append, List.cons_append, quotedFrom_escape (.inr rfl), hshift,
      map_push_eq_some_iff] at h
    exact absurd h.1 (by decide)
  | case4 c cs hpair hmark ih =>
    by_cases hc : c = '\\'
    · subst hc
      rw [hshift] at h
      cases cs with
      | nil =>
        -- the backslash takes the last mark for its own
        rw [List.singleton_append, quotedFrom_escape (.inr rfl), map_push_eq_some_iff] at h
        exact absurd h.1 (by decide)
      | cons d cs =>
        have hd : d ≠ '\\' := fun hd ↦ hpair cs rfl (by rw [hd])
        have hd' : d ≠ '\x22' := fun hd' ↦ hmark cs rfl (by rw [hd'])
        rw [List.cons_append, List.cons_append, quotedFrom_backslash hd hd',
          map_push_eq_some_iff] at h
        rw [isQuotable_backslash_iff hd]
        exact ih h.2
    · have hc' : c ≠ '\x22' := by
        rintro rfl
        rw [List.cons_append, quotedFrom_mark, Option.some.injEq, Prod.mk.injEq] at h
        exact List.append_ne_nil_of_right_ne_nil _ (List.cons_ne_nil _ _) h.1.symm
      rw [List.cons_append, quotedFrom_plain hc hc'] at h
      cases k with
      | zero =>
        rw [List.replicate_zero, List.nil_append, map_push_eq_some_iff] at h
        rw [isQuotable_plain_iff hc hc']
        exact ih (k := 0) h.2
      | succ k =>
        rw [List.replicate_succ, List.cons_append, map_push_eq_some_iff] at h
        exact absurd h.1 hc

/-- A text that is put between quotation marks as it is, is read back exactly if it is quotable. -/
theorem quotedFrom_eq_some_iff :
    quotedFrom (cs ++ '\x22' :: rest) = some (cs, after) ↔ IsQuotable cs ∧ rest = after := by
  constructor
  · intro h
    obtain ⟨-, hquotable, heq⟩ := isQuotable_of_quotedFrom (k := 0) h
    exact ⟨hquotable, heq.symm⟩
  · rintro ⟨hquotable, rfl⟩
    exact quotedFrom_of_isQuotable hquotable rest

/-! ## The strings of a text -/

theorem strings_nil : strings [] = some [] := by rw [strings]

theorem strings_of_ne (hc : c ≠ '\x22') (cs : List Char) : strings (c :: cs) = strings cs := by
  rw [strings, if_neg hc]

theorem strings_mark_eq_some_iff {s : String} {others : List String} :
    strings ('\x22' :: cs) = some (s :: others) ↔
      ∃ after, quotedFrom cs = some (s.toList, after) ∧ strings after = some others := by
  rw [strings, if_pos rfl]
  split
  case h_1 hnone => simp [hnone]
  case h_2 text after hsome =>
    rw [Option.map_eq_some_iff, hsome]
    constructor
    · rintro ⟨others', hafter, heq⟩
      cases heq
      exact ⟨after, by rw [String.toList_ofList], hafter⟩
    · rintro ⟨after', heq, hafter⟩
      cases heq
      exact ⟨others, hafter, by rw [String.ofList_toList]⟩

/-- Reading a text in front of any other yields these strings, exactly if the condition holds. -/
def Yields (text : List Char) (found : List String) (condition : Prop) : Prop :=
  ∀ rest others, strings (text ++ rest) = some (found ++ others) ↔
    condition ∧ strings rest = some others

namespace Yields

variable {text text' : List Char} {found found' : List String} {p q : Prop}

theorem nil : Yields [] [] True := fun _ _ ↦ (iff_of_eq (true_and _)).symm

theorem append (h : Yields text found p) (h' : Yields text' found' q) :
    Yields (text ++ text') (found ++ found') (p ∧ q) := by
  intro rest others
  rw [List.append_assoc, List.append_assoc, h, h', and_assoc]

theorem congr (h : Yields text found p) (hpq : p ↔ q) : Yields text found q := by
  rwa [← hpq]

/-- A text without quotation marks has no quoted strings. -/
theorem plain (h : '\x22' ∉ text) : Yields text [] True := by
  intro rest others
  rw [true_and, List.nil_append]
  induction text with
  | nil => rfl
  | cons c text ih =>
    rw [List.mem_cons, not_or] at h
    rw [List.cons_append, strings_of_ne (Ne.symm h.1), ih h.2]

theorem append_plain (h : Yields text found p) (hplain : '\x22' ∉ text') :
    Yields (text ++ text') found p := by
  have happend := h.append (plain hplain)
  rwa [List.append_nil, and_true] at happend

theorem plain_append (hplain : '\x22' ∉ text) (h : Yields text' found p) :
    Yields (text ++ text') found p := by
  have happend := (plain hplain).append h
  rwa [List.nil_append, true_and] at happend

theorem flatMap {α : Type} {xs : List α} {f : α → List Char} {g : α → List String} {r : α → Prop}
    (h : ∀ x ∈ xs, Yields (f x) (g x) (r x)) :
    Yields (xs.flatMap f) (xs.flatMap g) (∀ x ∈ xs, r x) := by
  induction xs with
  | nil => exact nil.congr (by simp)
  | cons x xs ih =>
    rw [List.forall_mem_cons] at h
    rw [List.flatMap_cons, List.flatMap_cons]
    exact (h.1.append (ih h.2)).congr List.forall_mem_cons.symm

end Yields

/-- A text in quotation marks is read as it is, exactly if it is quotable. -/
theorem yields_quoted (s : String) :
    Yields (Value.quoted s).render.toList [s] (IsQuotable s.toList) := by
  intro rest others
  have hrender : (Value.quoted s).render.toList ++ rest =
      '\x22' :: (s.toList ++ '\x22' :: rest) := by
    simp [Value.render]
  rw [hrender, List.singleton_append, strings_mark_eq_some_iff]
  simp only [quotedFrom_eq_some_iff]
  constructor
  · rintro ⟨after, ⟨hquotable, rfl⟩, hrest⟩
    exact ⟨hquotable, hrest⟩
  · rintro ⟨hquotable, hrest⟩
    exact ⟨rest, ⟨hquotable, rfl⟩, hrest⟩

/-- A label is read as it was before it was escaped, whatever it is. -/
theorem yields_label (s : String) : Yields (Value.label s).render.toList [s] True := by
  intro rest others
  have hrender : (Value.label s).render.toList ++ rest =
      '\x22' :: (s.toList.flatMap escapeChar ++ '\x22' :: rest) := by
    simp [Value.label, Value.render, escape]
  rw [hrender, List.singleton_append, strings_mark_eq_some_iff, quotedFrom_flatMap_escapeChar,
    true_and]
  constructor
  · rintro ⟨after, heq, hrest⟩
    cases heq
    exact hrest
  · intro hrest
    exact ⟨rest, rfl, hrest⟩

end PetriAlign.Dot
