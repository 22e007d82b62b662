import PetriAlign.Proofs.Text.Strip
import PetriAlign.Proofs.Text.Utf8
import PetriAlign.Xml.Entity
import PetriAlign.Xml.Event

/-!
# Escaped text read back

Escaping is undone by reading the entities. Escaped text contains none of the characters that
markup claims, and its ends are blank where those of the text are.
-/

namespace PetriAlign.Xml

/-! ## Entities -/

section Reading

variable {size index : Nat} {read rest : List Char}

theorem unescapeFrom_char {c : Char} (h : c ≠ '&') :
    unescapeFrom size index read (c :: rest) =
      unescapeFrom size (index + (Utf8.encodeChar c).length) (c :: read) rest := by
  rw [unescapeFrom, if_neg h]

theorem unescapeFrom_entity (name : List Char) {c : Char}
    (hname : nameFrom [] (name ++ ';' :: rest) = some (name, rest))
    (hresolve : resolve (index + 1) name = .ok c) :
    unescapeFrom size index read ('&' :: (name ++ ';' :: rest)) =
      unescapeFrom size (index + 2 + (Utf8.encodeChars name).length) (c :: read) rest := by
  rw [unescapeFrom, if_pos rfl]
  split
  case h_1 hnone => simp [hname] at hnone
  case h_2 found after hsome =>
    rw [hname, Option.some_inj, Prod.mk.injEq] at hsome
    obtain ⟨rfl, rfl⟩ := hsome
    rw [hresolve]
    rfl

end Reading

/-- The written form of a character is read as the character. -/
theorem unescapeFrom_escapeChar (size index : Nat) (read : List Char) (c : Char)
    (rest : List Char) : ∃ next, unescapeFrom size index read (escapeChar c ++ rest) =
      unescapeFrom size next (c :: read) rest := by
  unfold escapeChar
  split
  case h_1 => exact ⟨_, unescapeFrom_entity "lt".toList rfl rfl⟩
  case h_2 => exact ⟨_, unescapeFrom_entity "gt".toList rfl rfl⟩
  case h_3 => exact ⟨_, unescapeFrom_entity "amp".toList rfl rfl⟩
  case h_4 => exact ⟨_, unescapeFrom_entity "apos".toList rfl rfl⟩
  case h_5 => exact ⟨_, unescapeFrom_entity "quot".toList rfl rfl⟩
  case h_6 hamp _ _ => exact ⟨_, unescapeFrom_char hamp⟩

theorem unescapeFrom_escape (size index : Nat) (read cs : List Char) :
    unescapeFrom size index read (cs.flatMap escapeChar) = .ok (read.reverse ++ cs) := by
  induction cs generalizing index read with
  | nil => rw [List.flatMap_nil, unescapeFrom, List.append_nil]
  | cons c cs ih =>
    obtain ⟨next, hnext⟩ := unescapeFrom_escapeChar size index read c (cs.flatMap escapeChar)
    rw [List.flatMap_cons, hnext, ih, List.reverse_cons, List.append_assoc]
    rfl

/-- The text that escaped text stands for. -/
theorem textOf_escape (s : String) : textOf (Utf8.encodeChars (escape s)) = .ok s := by
  have hunescape : unescape (escape s) = .ok s.toList := unescapeFrom_escape _ 0 [] s.toList
  unfold textOf
  rw [Utf8.decodeChars_encodeChars]
  simp only [Except.mapError, bind, Except.bind, hunescape, String.ofList_toList]
  rfl

/-! ## Characters of escaped text -/

/-- The characters that markup claims; the ampersand begins an entity. -/
def isClaimed (c : Char) : Bool := c = '<' || c = '>' || c = '\x27' || c = '\x22'

def isSpaceChar (c : Char) : Bool := c = ' ' || c = '\t' || c = '\n' || c = '\r'

/-- The text without white space at its ends. -/
def trimmed (s : String) : String := .ofList (Text.strip isSpaceChar s.toList)

/-- A claimed or white character of escaped text stands there for itself, and is white. -/
theorem eq_of_mem_escapeChar {c d : Char} (h : d ∈ escapeChar c)
    (hd : isClaimed d = true ∨ isSpaceChar d = true) : d = c ∧ isClaimed d = false := by
  have hentity {cs : List Char} (hcs : cs.all fun e ↦ !isClaimed e && !isSpaceChar e) : d ∉ cs := by
    intro hmem
    have hplain := List.all_eq_true.1 hcs d hmem
    rcases hd with hd | hd <;> simp [hd] at hplain
  unfold escapeChar at h
  split at h
  case h_1 => exact absurd h (hentity (by decide))
  case h_2 => exact absurd h (hentity (by decide))
  case h_3 => exact absurd h (hentity (by decide))
  case h_4 => exact absurd h (hentity (by decide))
  case h_5 => exact absurd h (hentity (by decide))
  case h_6 hlt hgt _ hapos hquot =>
    obtain rfl := List.mem_singleton.1 h
    have hplain : ((¬ d = '<' ∧ ¬ d = '>') ∧ ¬ d = '\x27') ∧ ¬ d = '\x22' :=
      ⟨⟨⟨hlt, hgt⟩, hapos⟩, hquot⟩
    exact ⟨rfl, by simpa [isClaimed] using hplain⟩

theorem claimed_notMem_escape {d : Char} (hd : isClaimed d = true) (s : String) :
    d ∉ escape s := by
  intro h
  obtain ⟨c, -, hc⟩ := List.mem_flatMap.1 h
  rw [(eq_of_mem_escapeChar hc (.inl hd)).2] at hd
  cases hd

/-- A white byte is that of a white character. -/
theorem exists_of_isSpace {b : UInt8} (h : isSpace b = true) :
    ∃ d : Char, isSpaceChar d = true ∧ d.toNat < 0x80 ∧ b = .ofNat d.toNat := by
  simp only [isSpace, Bool.or_eq_true, decide_eq_true_iff] at h
  rcases h with ((rfl | rfl) | rfl) | rfl
  · exact ⟨' ', rfl, by decide, rfl⟩
  · exact ⟨'\t', rfl, by decide, rfl⟩
  · exact ⟨'\n', rfl, by decide, rfl⟩
  · exact ⟨'\r', rfl, by decide, rfl⟩

theorem encodeChars_escapeChar_ne_nil (c : Char) : Utf8.encodeChars (escapeChar c) ≠ [] := by
  have hchar (d : Char) : Utf8.encodeChar d ≠ [] := by
    unfold Utf8.encodeChar
    dsimp only
    split_ifs <;> exact List.cons_ne_nil _ _
  have hcons (d : Char) (ds : List Char) : Utf8.encodeChars (d :: ds) ≠ [] := by
    rw [Utf8.encodeChars_cons]
    exact List.append_ne_nil_of_left_ne_nil (hchar d) _
  unfold escapeChar
  split <;> exact hcons _ _

theorem encodeChars_escape (cs : List Char) :
    Utf8.encodeChars (cs.flatMap escapeChar) =
      cs.flatMap fun c ↦ Utf8.encodeChars (escapeChar c) :=
  List.flatMap_assoc

/-- White space is cut off escaped text where it is cut off the text. -/
theorem strip_escape (cs : List Char) :
    Text.strip isSpace (Utf8.encodeChars (cs.flatMap escapeChar)) =
      Utf8.encodeChars ((Text.strip isSpaceChar cs).flatMap escapeChar) := by
  have hgo (c : Char) (hc : isSpaceChar c = true) :
      ∀ b ∈ Utf8.encodeChars (escapeChar c), isSpace b = true := by
    simp only [isSpaceChar, Bool.or_eq_true, decide_eq_true_iff] at hc
    apply List.all_eq_true.1
    rcases hc with ((rfl | rfl) | rfl) | rfl <;> rfl
  have hstay (c : Char) (hc : isSpaceChar c = false) : Utf8.encodeChars (escapeChar c) ≠ [] ∧
      ∀ b ∈ Utf8.encodeChars (escapeChar c), isSpace b = false := by
    refine ⟨encodeChars_escapeChar_ne_nil c, fun b hb ↦ ?_⟩
    by_contra hspace
    obtain ⟨d, hd, hascii, rfl⟩ := exists_of_isSpace (Bool.of_not_eq_false hspace)
    have heq := eq_of_mem_escapeChar ((Utf8.mem_encodeChars hascii).1 hb) (.inr hd)
    rw [heq.1, hc] at hd
    cases hd
  rw [encodeChars_escape, encodeChars_escape]
  exact Text.strip_flatMap hgo hstay cs

end PetriAlign.Xml
