import PetriAlign.Json.Parser
import PetriAlign.Proofs.Except
import PetriAlign.Proofs.Text.Numeral
import PetriAlign.Proofs.Text.Utf8

/-!
# Strings and numbers of JSON

An escaped text is taken up to the quotation mark behind it, whatever follows, and what was taken
stands for the text. The digits of a number are taken as a whole where nothing follows that could go
on with it, and what was taken stands for the number.
-/

namespace PetriAlign.Json

open Utf8 (encode encodeChar encodeChars IsUtf8)

variable {c : Char} {form written read rest : Bytes}

/-! ## The forms of a character -/

/-- The ways in which a character is written in a string. -/
inductive EscapesTo (c : Char) : Bytes → Prop
  /-- One letter behind a backslash. -/
  | letter {letter b : UInt8} (hascii : letter.toNat < 0x80)
    (hshort : shortEscape? letter = some b) (hchar : encodeChar c = [b]) :
    EscapesTo c [0x5C, letter]
  /-- The number of a control character. -/
  | number (h : c.toNat < 0x20) :
    EscapesTo c [0x5C, 0x75, 0x30, 0x30, hexDigit (c.toNat / 16), hexDigit (c.toNat % 16)]
  | plain (h : ∀ b ∈ encodeChar c, b ≠ 0x22 ∧ b ≠ 0x5C ∧ ¬ b < 0x20) : EscapesTo c (encodeChar c)

theorem notControl_of_mem_encodeChar (hc : ¬ c.toNat < 0x20) {b : UInt8} (hb : b ∈ encodeChar c) :
    ¬ b < 0x20 := by
  intro hlt
  have hlow : b.toNat < 0x20 := UInt8.lt_iff_toNat_lt.1 hlt
  have hchar : (Char.ofNat b.toNat).toNat = b.toNat := Utf8.toNat_charOfNat (Or.inl (by omega))
  have heq : c = Char.ofNat b.toNat := by
    apply Utf8.eq_of_mem_encodeChar (by omega)
    rwa [Utf8.ofNat_eq hchar]
  rw [heq, hchar] at hc
  exact hc hlow

theorem escapesTo_escapeChar (c : Char) : EscapesTo c (escapeChar c) := by
  unfold escapeChar
  split_ifs with hmark hbackslash hbackspace hpage hfeed hreturn htab hcontrol
  · exact .letter (b := 0x22) (by decide) rfl (hmark ▸ rfl)
  · exact .letter (b := 0x5C) (by decide) rfl (hbackslash ▸ rfl)
  · exact .letter (b := 0x08) (by decide) rfl (hbackspace ▸ rfl)
  · exact .letter (b := 0x0C) (by decide) rfl (hpage ▸ rfl)
  · exact .letter (b := 0x0A) (by decide) rfl (hfeed ▸ rfl)
  · exact .letter (b := 0x0D) (by decide) rfl (hreturn ▸ rfl)
  · exact .letter (b := 0x09) (by decide) rfl (htab ▸ rfl)
  · exact .number hcontrol
  · refine .plain fun b hb ↦ ⟨?_, ?_, notControl_of_mem_encodeChar hcontrol hb⟩
    · rintro rfl
      exact hmark (Utf8.eq_of_mem_encodeChar (d := '\x22') (by decide) hb)
    · rintro rfl
      exact hbackslash (Utf8.eq_of_mem_encodeChar (d := '\\') (by decide) hb)

theorem ne_of_shortEscape? {letter b : UInt8} (h : shortEscape? letter = some b) :
    letter ≠ 0x75 := by
  rintro rfl
  cases h

theorem hexValue?_hexDigit {d : Nat} (h : d < 16) : hexValue? (hexDigit d) = some d := by
  interval_cases d <;> decide

theorem toNat_hexDigit_lt {d : Nat} (h : d < 16) : (hexDigit d).toNat < 0x80 := by
  interval_cases d <;> decide

theorem unit?_control (hc : c.toNat < 0x20) :
    unit? 0x30 0x30 (hexDigit (c.toNat / 16)) (hexDigit (c.toNat % 16)) = some c.toNat := by
  have hzero : hexValue? 0x30 = some 0 := rfl
  rw [unit?, hzero, hexValue?_hexDigit (by omega), hexValue?_hexDigit (by omega)]
  simp only [Option.bind_eq_bind, Option.bind_some, Option.pure_def, Option.some.injEq]
  omega

/-! ## Texts between quotation marks -/

theorem stringFrom_plain {bytes : Bytes} (h : ∀ b ∈ bytes, b ≠ 0x22 ∧ b ≠ 0x5C ∧ ¬ b < 0x20) :
    stringFrom written (bytes ++ rest) = stringFrom (bytes.reverse ++ written) rest := by
  induction bytes generalizing written with
  | nil => rfl
  | cons b bytes ih =>
    rw [List.forall_mem_cons] at h
    obtain ⟨⟨hmark, hbackslash, hcontrol⟩, hbytes⟩ := h
    rw [List.cons_append, stringFrom, if_neg hbackslash, if_neg hcontrol, ih hbytes,
      List.reverse_cons, List.append_assoc, List.singleton_append]
    · exact hmark
    · exact fun _ _ _ _ _ hb ↦ absurd hb hbackslash
    · exact fun _ _ hb ↦ absurd hb hbackslash

theorem unescapeFrom_plain {bytes : Bytes} (h : ∀ b ∈ bytes, b ≠ 0x5C) :
    unescapeFrom read (bytes ++ rest) = unescapeFrom (bytes.reverse ++ read) rest := by
  induction bytes generalizing read with
  | nil => rfl
  | cons b bytes ih =>
    rw [List.forall_mem_cons] at h
    rw [List.cons_append, unescapeFrom, ih h.2, List.reverse_cons, List.append_assoc,
      List.singleton_append]
    · exact fun _ _ _ _ _ hb ↦ absurd hb h.1
    · exact fun _ _ hb ↦ absurd hb h.1

namespace EscapesTo

theorem stringFrom_append (h : EscapesTo c form) :
    stringFrom written (form ++ rest) = stringFrom (form.reverse ++ written) rest := by
  cases h with
  | @letter letter b hascii hshort hchar =>
    rw [List.cons_append, List.singleton_append, stringFrom, hshort, if_pos Option.isSome_some]
    · rfl
    · exact fun _ _ _ _ _ hletter ↦ absurd hletter (ne_of_shortEscape? hshort)
  | number hcontrol =>
    have hhex {d : Nat} (hd : d < 16) : isHex (hexDigit d) = true := by
      rw [isHex, hexValue?_hexDigit hd]
      rfl
    have hdigits : (isHex 0x30 && isHex 0x30 && isHex (hexDigit (c.toNat / 16)) &&
        isHex (hexDigit (c.toNat % 16))) = true := by
      rw [hhex (by omega), hhex (by omega)]
      rfl
    simp only [List.cons_append, List.nil_append]
    rw [stringFrom, if_pos hdigits]
    rfl
  | plain hplain => exact stringFrom_plain hplain

theorem unescapeFrom_append (h : EscapesTo c form) :
    unescapeFrom read (form ++ rest) = unescapeFrom ((encodeChar c).reverse ++ read) rest := by
  cases h with
  | @letter letter b hascii hshort hchar =>
    rw [List.cons_append, List.singleton_append, unescapeFrom, hshort, hchar]
    · rfl
    · exact fun _ _ _ _ _ hletter ↦ absurd hletter (ne_of_shortEscape? hshort)
  | number hcontrol =>
    simp only [List.cons_append, List.nil_append]
    rw [unescapeFrom, unit?_control hcontrol]
    dsimp only
    rw [if_pos (.inl (by omega)), Char.ofNat_toNat]
  | plain hplain => exact unescapeFrom_plain fun b hb ↦ (hplain b hb).2.1

theorem isUtf8 (h : EscapesTo c form) : IsUtf8 form := by
  cases h with
  | letter hascii =>
    apply Utf8.isUtf8_of_ascii
    simp only [List.forall_mem_cons]
    exact ⟨by decide, hascii, nofun⟩
  | number hcontrol =>
    apply Utf8.isUtf8_of_ascii
    simp only [List.forall_mem_cons]
    exact ⟨by decide, by decide, by decide, by decide, toNat_hexDigit_lt (by omega),
      toNat_hexDigit_lt (by omega), nofun⟩
  | plain => exact Utf8.encodeChars_singleton c ▸ Utf8.isUtf8_encodeChars [c]

end EscapesTo

/-- An escaped text ends at the mark behind it. -/
theorem stringFrom_escape (s : String) (rest : Bytes) :
    stringFrom [] (escape s ++ 0x22 :: rest) = .ok (escape s, rest) := by
  have hchars (cs : List Char) (written : Bytes) :
      stringFrom written (cs.flatMap escapeChar ++ 0x22 :: rest) =
        .ok (written.reverse ++ cs.flatMap escapeChar, rest) := by
    induction cs generalizing written with
    | nil => rw [List.flatMap_nil, List.append_nil, List.nil_append, stringFrom]
    | cons c cs ih =>
      rw [List.flatMap_cons, List.append_assoc, (escapesTo_escapeChar c).stringFrom_append, ih,
        List.reverse_append, List.reverse_reverse, List.append_assoc]
  exact hchars s.toList []

theorem unescapeFrom_escape (s : String) : unescapeFrom [] (escape s) = some (encode s) := by
  have hchars (cs : List Char) (read : Bytes) :
      unescapeFrom read (cs.flatMap escapeChar) = some (read.reverse ++ encodeChars cs) := by
    induction cs generalizing read with
    | nil =>
      rw [List.flatMap_nil, unescapeFrom]
      exact congrArg some (List.append_nil _).symm
    | cons c cs ih =>
      rw [List.flatMap_cons, (escapesTo_escapeChar c).unescapeFrom_append, ih, List.reverse_append,
        List.reverse_reverse, List.append_assoc, Utf8.encodeChars_cons]
  exact hchars s.toList []

/-- An escaped text stands for the text. -/
@[simp] theorem unescape?_escape (s : String) : unescape? (escape s) = some s := by
  rw [unescape?, unescapeFrom_escape, Option.bind_some, Utf8.decode_encode]
  rfl

theorem isUtf8_escape (s : String) : IsUtf8 (escape s) :=
  .flatMap fun c _ ↦ (escapesTo_escapeChar c).isUtf8

/-! ## Numbers -/

/-- Nothing in these bytes goes on with a number. -/
def EndsNumber (rest : Bytes) : Prop :=
  ∀ b ∈ rest.head?, isDigit b = false ∧ b ≠ 0x2E ∧ b ≠ 0x65 ∧ b ≠ 0x45

theorem endsNumber_nil : EndsNumber [] := nofun

theorem endsNumber_cons {b : UInt8}
    (h : isDigit b = false ∧ b ≠ 0x2E ∧ b ≠ 0x65 ∧ b ≠ 0x45) (bytes : Bytes) :
    EndsNumber (b :: bytes) := by
  rintro _ ⟨⟩
  exact h

theorem ne_of_isDigit {b b' : UInt8} (hb : isDigit b = true) (hb' : isDigit b' = false) :
    b ≠ b' := by
  rintro rfl
  rw [hb] at hb'
  cases hb'

theorem encodeChars_decimal (n : Nat) :
    encodeChars (Text.decimal n) = (Text.decimal n).map fun c ↦ .ofNat c.toNat := by
  apply Utf8.encodeChars_ascii
  intro c hc
  obtain ⟨d, hd, rfl⟩ := Text.exists_digit_of_mem_decimal hc
  rw [Text.toNat_digitChar hd]
  omega

theorem isDigit_of_mem_decimal {n : Nat} {b : UInt8} (hb : b ∈ encodeChars (Text.decimal n)) :
    isDigit b = true := by
  rw [encodeChars_decimal] at hb
  obtain ⟨c, hc, rfl⟩ := List.mem_map.1 hb
  obtain ⟨d, hd, rfl⟩ := Text.exists_digit_of_mem_decimal hc
  rw [Text.toNat_digitChar hd]
  interval_cases d <;> decide

/-- A number of several digits does not begin with a zero. -/
theorem head?_decimal {n : Nat} (hn : 0 < n) : (Text.decimal n).head? ≠ some '0' := by
  induction n using Nat.strong_induction_on with
  | _ n ih =>
    rw [Text.decimal]
    split
    case isTrue hlt => interval_cases n <;> decide
    case isFalse hlt =>
      rw [List.head?_append_of_ne_nil _ (Text.decimal_ne_nil _)]
      exact ih (n / 10) (by omega) (by omega)

theorem digits_decimal (n : Nat) (hrest : EndsNumber rest) :
    digits (encodeChars (Text.decimal n) ++ rest) = .ok (encodeChars (Text.decimal n), rest) := by
  have hall : ∀ b ∈ encodeChars (Text.decimal n), isDigit b = true := fun b ↦ isDigit_of_mem_decimal
  have hne : encodeChars (Text.decimal n) ≠ [] :=
    mt Utf8.encodeChars_eq_nil_iff.1 (Text.decimal_ne_nil n)
  have hnone : rest.takeWhile isDigit = [] ∧ rest.dropWhile isDigit = rest := by
    cases rest with
    | nil => exact ⟨rfl, rfl⟩
    | cons b rest =>
      have hb : ¬ isDigit b = true := by
        rw [(hrest b rfl).1]
        exact Bool.false_ne_true
      exact ⟨List.takeWhile_cons_of_neg hb, List.dropWhile_cons_of_neg hb⟩
  rw [digits, List.takeWhile_append_of_pos hall, List.dropWhile_append_of_pos hall, hnone.1,
    hnone.2, List.append_nil]
  split
  case h_1 hnil => exact absurd hnil hne
  case h_2 => rfl

theorem whole_decimal (n : Nat) (hrest : EndsNumber rest) :
    whole (encodeChars (Text.decimal n) ++ rest) = .ok (encodeChars (Text.decimal n), rest) := by
  have hzero : ¬ ((encodeChars (Text.decimal n)).length > 1 ∧
      (encodeChars (Text.decimal n)).head? = some 0x30) := by
    rintro ⟨hlength, hhead⟩
    cases n with
    | zero =>
      rw [Text.decimal] at hlength
      exact absurd hlength (by decide)
    | succ n =>
      rw [encodeChars_decimal, List.head?_map, Option.map_eq_some_iff] at hhead
      obtain ⟨c, hc, hbyte⟩ := hhead
      obtain ⟨d, hd, rfl⟩ := Text.exists_digit_of_mem_decimal (List.mem_of_mem_head? hc)
      rw [Text.toNat_digitChar hd] at hbyte
      have hnat : 48 + d = 48 := by
        have htoNat := congrArg UInt8.toNat hbyte
        rwa [Utf8.toNat_ofNat (by omega)] at htoNat
      obtain rfl : d = 0 := by omega
      exact head?_decimal n.succ_pos hc
  rw [whole, digits_decimal n hrest]
  exact if_neg hzero

theorem fraction_of_endsNumber (hrest : EndsNumber rest) : fraction rest = .ok ([], rest) := by
  rw [fraction]
  rintro bytes rfl
  exact (hrest 0x2E rfl).2.1 rfl

theorem exponent_of_endsNumber (hrest : EndsNumber rest) : exponent rest = .ok ([], rest) := by
  cases rest with
  | nil => rfl
  | cons b rest =>
    obtain ⟨-, -, hsmall, hlarge⟩ := hrest b rfl
    exact if_neg (not_or.2 ⟨hsmall, hlarge⟩)

theorem exists_cons_decimal (n : Nat) :
    ∃ b bytes, encodeChars (Text.decimal n) = b :: bytes ∧ isDigit b = true := by
  obtain ⟨b, bytes, hbytes⟩ := List.exists_cons_of_ne_nil
    (mt Utf8.encodeChars_eq_nil_iff.1 (Text.decimal_ne_nil n))
  refine ⟨b, bytes, hbytes, isDigit_of_mem_decimal (n := n) ?_⟩
  rw [hbytes]
  exact List.mem_cons_self

/-- The digits of a number are taken as a whole. -/
theorem numberFrom_decimal (n : Nat) (hrest : EndsNumber rest) :
    numberFrom (encodeChars (Text.decimal n) ++ rest) = .ok (.ofNat n, rest) := by
  unfold numberFrom
  split
  rename_i hsign
  split at hsign
  case h_1 hminus =>
    obtain ⟨b, bytes, hbytes, hb⟩ := exists_cons_decimal n
    rw [hbytes, List.cons_append, List.cons.injEq] at hminus
    rw [hminus.1] at hb
    cases hb
  case h_2 =>
    cases hsign
    refine bind_eq_ok_iff.2 ⟨_, whole_decimal n hrest, ?_⟩
    refine bind_eq_ok_iff.2 ⟨_, fraction_of_endsNumber hrest, ?_⟩
    refine bind_eq_ok_iff.2 ⟨_, exponent_of_endsNumber hrest, ?_⟩
    change Except.ok (number ([] ++ _ ++ [] ++ []), rest) = _
    rw [List.nil_append, List.append_nil, List.append_nil]
    rfl

/-- The digits of a count stand for the count. -/
@[simp] theorem count?_ofCount (n : UInt64) : (ofCount n).count? = some n := by
  have hchars : (encodeChars (Text.decimal n.toNat)).map (fun b ↦ Char.ofNat b.toNat) =
      Text.decimal n.toNat := by
    rw [encodeChars_decimal, List.map_map, List.map_congr_left (g := id), List.map_id]
    intro c hc
    obtain ⟨d, hd, rfl⟩ := Text.exists_digit_of_mem_decimal hc
    interval_cases d <;> decide
  have hdigits := Text.digitsFrom_eq_some_iff.1 (Text.digitsFrom_decimal n.toNat)
  rw [Nat.zero_mul, Nat.zero_add] at hdigits
  rw [ofCount, ofNat, count?, hchars]
  exact Text.bind_natural?_eq_some_iff.2 ⟨Text.decimal_ne_nil _, hdigits⟩

@[simp] theorem text?_ofText (s : String) : (ofText s).text? = some s := unescape?_escape s

end PetriAlign.Json
