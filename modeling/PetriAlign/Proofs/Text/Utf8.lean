import Mathlib.Data.List.Basic
import PetriAlign.Text.Utf8

/-!
# Reading UTF-8 back

What is encoded is decoded to the same characters, and nothing else is decoded. A byte below 80
stands for an ASCII character and for nothing else, so bytes can be searched for such a character
without decoding them.
-/

namespace PetriAlign.Utf8

/-! ## One step of the decoder -/

variable {index : Nat} {read : List Char} {b : UInt8} {p : Pending} {rest : Bytes}

theorem decodeFrom_lead (hb : 0x80 ≤ b.toNat) (hlead : Pending.ofLead? b = some p) :
    decodeFrom index read none (b :: rest) = decodeFrom (index + 1) read (some p) rest := by
  have hlow : ¬ b < 0x80 := by
    rw [UInt8.lt_iff_toNat_lt]
    exact Nat.not_lt.2 hb
  rw [decodeFrom, if_neg hlow, hlead]

theorem decodeFrom_middle (hb : p.admits b = true) (howed : p.owed ≠ 1) :
    decodeFrom index read (some p) (b :: rest) =
      decodeFrom (index + 1) read (some (p.push b)) rest := by
  rw [decodeFrom, if_pos hb, if_neg howed]

theorem decodeFrom_last (hb : p.admits b = true) (howed : p.owed = 1) {c : Char}
    (hcode : (p.push b).code = c.toNat) :
    decodeFrom index read (some p) (b :: rest) =
      decodeFrom (index + 1) (c :: read) none rest := by
  rw [decodeFrom, if_pos hb, if_pos howed, hcode, Char.ofNat_toNat]

/-! ## One character -/

theorem toNat_lt (c : Char) : c.toNat < 0x110000 := by
  rcases c.valid with hvalid | hvalid
  · exact Nat.lt_trans hvalid (by decide)
  · exact hvalid.2

theorem toNat_ofNat {n : Nat} (hn : n < 256) : (UInt8.ofNat n).toNat = n :=
  UInt8.toNat_ofNat_of_lt' hn

theorem le_toNat_ofNat {n : Nat} (hlow : 0x80 ≤ n) (hn : n < 256) :
    0x80 ≤ (UInt8.ofNat n).toNat := by
  rw [toNat_ofNat hn]
  exact hlow

theorem admits_ofNat {n : Nat} (hlow : p.low ≤ n) (hhigh : n ≤ p.high) (hn : n < 256) :
    p.admits (.ofNat n) = true := by
  rw [Pending.admits, toNat_ofNat hn, Bool.and_eq_true, decide_eq_true_iff,
    decide_eq_true_iff]
  exact ⟨hlow, hhigh⟩

theorem ofLead?_ofNat {n : Nat} (hlow : 0xC2 ≤ n) (hhigh : n < 0xF5) :
    Pending.ofLead? (.ofNat n) =
      if n < 0xE0 then some { code := n - 0xC0, seen := 1, owed := 1 }
      else if n < 0xF0 then
        some
          { code := n - 0xE0, seen := 1, owed := 2
            low := if n = 0xE0 then 0xA0 else 0x80
            high := if n = 0xED then 0x9F else 0xBF }
      else
        some
          { code := n - 0xF0, seen := 1, owed := 3
            low := if n = 0xF0 then 0x90 else 0x80
            high := if n = 0xF4 then 0x8F else 0xBF } := by
  unfold Pending.ofLead?
  rw [toNat_ofNat (by omega)]
  dsimp only
  rw [if_neg (by omega), if_pos hhigh]

/-- A continuation byte adds six bits. -/
theorem code_push_ofNat {n : Nat} (hn : n < 256) :
    (p.push (.ofNat n)).code = p.code * 64 + (n - 0x80) := by
  change p.code * 64 + ((UInt8.ofNat n).toNat - 0x80) = _
  rw [toNat_ofNat hn]

theorem decodeFrom_two {c : Char} (hlow : 0x80 ≤ c.toNat) (hhigh : c.toNat < 0x800) :
    decodeFrom index read none
        (.ofNat (0xC0 + c.toNat / 64) :: .ofNat (0x80 + c.toNat % 64) :: rest) =
      decodeFrom (index + 2) (c :: read) none rest := by
  have hlead : Pending.ofLead? (.ofNat (0xC0 + c.toNat / 64)) =
      some { code := c.toNat / 64, seen := 1, owed := 1 } := by
    rw [ofLead?_ofNat (by omega) (by omega), if_pos (by omega), Nat.add_sub_cancel_left]
  rw [decodeFrom_lead (le_toNat_ofNat (by omega) (by omega)) hlead]
  apply decodeFrom_last (admits_ofNat ?_ ?_ (by omega)) rfl
  · rw [code_push_ofNat (by omega)]
    dsimp only
    omega
  · dsimp only
    omega
  · dsimp only
    omega

theorem decodeFrom_three {c : Char} (hlow : 0x800 ≤ c.toNat) (hhigh : c.toNat < 0x10000) :
    decodeFrom index read none
        (.ofNat (0xE0 + c.toNat / 4096) :: .ofNat (0x80 + c.toNat / 64 % 64) ::
          .ofNat (0x80 + c.toNat % 64) :: rest) =
      decodeFrom (index + 3) (c :: read) none rest := by
  have hvalid : c.toNat < 0xD800 ∨ 0xDFFF < c.toNat := c.valid.imp id And.left
  have hlead : Pending.ofLead? (.ofNat (0xE0 + c.toNat / 4096)) =
      some { code := c.toNat / 4096, seen := 1, owed := 2
             low := if 0xE0 + c.toNat / 4096 = 0xE0 then 0xA0 else 0x80
             high := if 0xE0 + c.toNat / 4096 = 0xED then 0x9F else 0xBF } := by
    rw [ofLead?_ofNat (by omega) (by omega), if_neg (by omega), if_pos (by omega),
      Nat.add_sub_cancel_left]
  rw [decodeFrom_lead (le_toNat_ofNat (by omega) (by omega)) hlead,
    decodeFrom_middle (admits_ofNat ?_ ?_ (by omega)) (show 2 ≠ 1 by decide)]
  · apply decodeFrom_last (admits_ofNat ?_ ?_ (by omega)) rfl
    · rw [code_push_ofNat (by omega), code_push_ofNat (by omega)]
      dsimp only
      omega
    · exact Nat.le_add_right _ _
    · change _ ≤ 0xBF
      omega
  · dsimp only
    split <;> omega
  · dsimp only
    split <;> omega

theorem decodeFrom_four {c : Char} (hlow : 0x10000 ≤ c.toNat) :
    decodeFrom index read none
        (.ofNat (0xF0 + c.toNat / 262144) :: .ofNat (0x80 + c.toNat / 4096 % 64) ::
          .ofNat (0x80 + c.toNat / 64 % 64) :: .ofNat (0x80 + c.toNat % 64) :: rest) =
      decodeFrom (index + 4) (c :: read) none rest := by
  have hhigh := toNat_lt c
  have hlead : Pending.ofLead? (.ofNat (0xF0 + c.toNat / 262144)) =
      some { code := c.toNat / 262144, seen := 1, owed := 3
             low := if 0xF0 + c.toNat / 262144 = 0xF0 then 0x90 else 0x80
             high := if 0xF0 + c.toNat / 262144 = 0xF4 then 0x8F else 0xBF } := by
    rw [ofLead?_ofNat (by omega) (by omega), if_neg (by omega), if_neg (by omega),
      Nat.add_sub_cancel_left]
  rw [decodeFrom_lead (le_toNat_ofNat (by omega) (by omega)) hlead,
    decodeFrom_middle (admits_ofNat ?_ ?_ (by omega)) (show 3 ≠ 1 by decide),
    decodeFrom_middle (admits_ofNat ?_ ?_ (by omega)) (show 2 ≠ 1 by decide)]
  · apply decodeFrom_last (admits_ofNat ?_ ?_ (by omega)) rfl
    · rw [code_push_ofNat (by omega), code_push_ofNat (by omega), code_push_ofNat (by omega)]
      dsimp only
      omega
    · exact Nat.le_add_right _ _
    · change _ ≤ 0xBF
      omega
  · exact Nat.le_add_right _ _
  · change _ ≤ 0xBF
    omega
  · dsimp only
    split <;> omega
  · dsimp only
    split <;> omega

theorem decodeFrom_encodeChar (index : Nat) (read : List Char) (c : Char) (rest : Bytes) :
    decodeFrom index read none (encodeChar c ++ rest) =
      decodeFrom (index + (encodeChar c).length) (c :: read) none rest := by
  unfold encodeChar
  dsimp only
  split
  case isTrue h1 =>
    have hn : (UInt8.ofNat c.toNat).toNat = c.toNat := toNat_ofNat (by omega)
    have hlow : UInt8.ofNat c.toNat < 0x80 := by
      rw [UInt8.lt_iff_toNat_lt, hn]
      exact h1
    rw [List.singleton_append, decodeFrom, if_pos hlow, hn, Char.ofNat_toNat]
    rfl
  case isFalse h1 =>
    split
    case isTrue h2 => exact decodeFrom_two (by omega) h2
    case isFalse h2 =>
      split
      case isTrue h3 => exact decodeFrom_three (by omega) h3
      case isFalse h3 => exact decodeFrom_four (by omega)

/-! ## Whole texts -/

theorem encodeChars_append (cs cs' : List Char) :
    encodeChars (cs ++ cs') = encodeChars cs ++ encodeChars cs' :=
  List.flatMap_append

theorem encodeChars_cons (c : Char) (cs : List Char) :
    encodeChars (c :: cs) = encodeChar c ++ encodeChars cs :=
  List.flatMap_cons

theorem encodeChars_singleton (c : Char) : encodeChars [c] = encodeChar c :=
  List.flatMap_singleton encodeChar c

theorem decodeFrom_encodeChars (index : Nat) (read cs : List Char) :
    decodeFrom index read none (encodeChars cs) = .ok (read.reverse ++ cs) := by
  induction cs generalizing index read with
  | nil => rw [List.append_nil, encodeChars, List.flatMap_nil, decodeFrom]
  | cons c cs ih =>
    rw [encodeChars_cons, decodeFrom_encodeChar, ih, List.reverse_cons, List.append_assoc]
    rfl

/-- What is encoded is decoded again. -/
theorem decodeChars_encodeChars (cs : List Char) : decodeChars (encodeChars cs) = .ok cs :=
  decodeFrom_encodeChars 0 [] cs

theorem decode_encode (text : String) : decode (encode text) = .ok text := by
  rw [decode, encode, decodeChars_encodeChars]
  exact congrArg Except.ok String.ofList_toList

theorem encodeChars_injective {cs cs' : List Char} (h : encodeChars cs = encodeChars cs') :
    cs = cs' := by
  have hdecode := decodeChars_encodeChars cs
  rw [h, decodeChars_encodeChars] at hdecode
  exact (Except.ok.inj hdecode).symm

/-! ## ASCII bytes -/

theorem encodeChar_ascii {c : Char} (h : c.toNat < 0x80) : encodeChar c = [.ofNat c.toNat] := by
  unfold encodeChar
  exact if_pos h

/-- The bytes of other characters lie above ASCII. -/
theorem le_of_mem_encodeChar {c : Char} (h : 0x80 ≤ c.toNat) {b : UInt8} (hb : b ∈ encodeChar c) :
    0x80 ≤ b.toNat := by
  have hsize : c.toNat < 0x110000 := toNat_lt c
  unfold encodeChar at hb
  dsimp only at hb
  rw [if_neg (by omega)] at hb
  split at hb
  case isTrue =>
    simp only [List.mem_cons, List.not_mem_nil, or_false] at hb
    rcases hb with rfl | rfl <;> exact le_toNat_ofNat (by omega) (by omega)
  case isFalse =>
    split at hb
    case isTrue =>
      simp only [List.mem_cons, List.not_mem_nil, or_false] at hb
      rcases hb with rfl | rfl | rfl <;> exact le_toNat_ofNat (by omega) (by omega)
    case isFalse =>
      simp only [List.mem_cons, List.not_mem_nil, or_false] at hb
      rcases hb with rfl | rfl | rfl | rfl <;> exact le_toNat_ofNat (by omega) (by omega)

/-- A character that is written as an ASCII byte is that character. -/
theorem eq_of_mem_encodeChar {c d : Char} (hd : d.toNat < 0x80)
    (h : UInt8.ofNat d.toNat ∈ encodeChar c) : c = d := by
  have hbyte : (UInt8.ofNat d.toNat).toNat = d.toNat := toNat_ofNat (by omega)
  by_cases hc : c.toNat < 0x80
  · rw [encodeChar_ascii hc, List.mem_singleton] at h
    have hnat := congrArg UInt8.toNat h
    rw [hbyte, toNat_ofNat (by omega)] at hnat
    rw [← Char.ofNat_toNat c, ← hnat, Char.ofNat_toNat]
  · have hle := le_of_mem_encodeChar (by omega) h
    omega

/-- An ASCII byte is found where its character is. -/
theorem mem_encodeChars {d : Char} (hd : d.toNat < 0x80) {cs : List Char} :
    UInt8.ofNat d.toNat ∈ encodeChars cs ↔ d ∈ cs := by
  rw [encodeChars, List.mem_flatMap]
  constructor
  · intro h
    obtain ⟨c, hc, hmem⟩ := h
    rwa [← eq_of_mem_encodeChar hd hmem]
  · intro h
    refine ⟨d, h, ?_⟩
    rw [encodeChar_ascii hd]
    exact List.mem_singleton_self _

theorem encodeChars_ascii {cs : List Char} (h : ∀ c ∈ cs, c.toNat < 0x80) :
    encodeChars cs = cs.map fun c ↦ .ofNat c.toNat := by
  induction cs with
  | nil => rfl
  | cons c cs ih =>
    rw [encodeChars_cons, encodeChar_ascii (h c List.mem_cons_self),
      ih fun d hd ↦ h d (List.mem_cons_of_mem c hd)]
    rfl

/-! ## Bytes that are decoded -/

variable {bytes : Bytes}

theorem toNat_charOfNat {n : Nat} (h : n < 0xD800 ∨ 0xDFFF < n ∧ n < 0x110000) :
    (Char.ofNat n).toNat = n := by
  have hvalid : n.isValidChar := h
  rw [Char.ofNat, dif_pos hvalid]
  rfl

theorem ofNat_eq {n : Nat} (h : n = b.toNat) : UInt8.ofNat n = b := by
  rw [h, UInt8.ofNat_toNat]

/-- A lead byte with one byte after it. -/
theorem encodeChar_two {b₀ b₁ : UInt8} (hlead : 0xC2 ≤ b₀.toNat) (hlead' : b₀.toNat < 0xE0)
    (hb : 0x80 ≤ b₁.toNat) (hb' : b₁.toNat ≤ 0xBF) :
    encodeChar (.ofNat ((b₀.toNat - 0xC0) * 64 + (b₁.toNat - 0x80))) = [b₀, b₁] := by
  unfold encodeChar
  rw [toNat_charOfNat (by omega)]
  dsimp only
  rw [if_neg (by omega), if_pos (by omega), ofNat_eq (b := b₀) (by omega),
    ofNat_eq (b := b₁) (by omega)]

theorem encodeChar_three {b₀ b₁ b₂ : UInt8} (hlead : 0xE0 ≤ b₀.toNat) (hlead' : b₀.toNat < 0xF0)
    (hlow : (if b₀.toNat = 0xE0 then 0xA0 else 0x80) ≤ b₁.toNat)
    (hhigh : b₁.toNat ≤ if b₀.toNat = 0xED then 0x9F else 0xBF)
    (hb : 0x80 ≤ b₂.toNat) (hb' : b₂.toNat ≤ 0xBF) :
    encodeChar (.ofNat (((b₀.toNat - 0xE0) * 64 + (b₁.toNat - 0x80)) * 64 + (b₂.toNat - 0x80))) =
      [b₀, b₁, b₂] := by
  -- the bounds shut out overlong forms and surrogates
  have hcode : 0x800 ≤ ((b₀.toNat - 0xE0) * 64 + (b₁.toNat - 0x80)) * 64 + (b₂.toNat - 0x80) := by
    split at hlow <;> omega
  have hvalid : ((b₀.toNat - 0xE0) * 64 + (b₁.toNat - 0x80)) * 64 + (b₂.toNat - 0x80) < 0xD800 ∨
      0xDFFF < ((b₀.toNat - 0xE0) * 64 + (b₁.toNat - 0x80)) * 64 + (b₂.toNat - 0x80) := by
    split at hhigh <;> omega
  have h1 : 0x80 ≤ b₁.toNat := by split at hlow <;> omega
  have h1' : b₁.toNat ≤ 0xBF := by split at hhigh <;> omega
  unfold encodeChar
  rw [toNat_charOfNat (by omega)]
  dsimp only
  rw [if_neg (by omega), if_neg (by omega), if_pos (by omega), ofNat_eq (b := b₀) (by omega),
    ofNat_eq (b := b₁) (by omega), ofNat_eq (b := b₂) (by omega)]

theorem encodeChar_four {b₀ b₁ b₂ b₃ : UInt8} (hlead : 0xF0 ≤ b₀.toNat) (hlead' : b₀.toNat < 0xF5)
    (hlow : (if b₀.toNat = 0xF0 then 0x90 else 0x80) ≤ b₁.toNat)
    (hhigh : b₁.toNat ≤ if b₀.toNat = 0xF4 then 0x8F else 0xBF)
    (hb : 0x80 ≤ b₂.toNat) (hb' : b₂.toNat ≤ 0xBF) (hc : 0x80 ≤ b₃.toNat) (hc' : b₃.toNat ≤ 0xBF) :
    encodeChar (.ofNat ((((b₀.toNat - 0xF0) * 64 + (b₁.toNat - 0x80)) * 64 +
      (b₂.toNat - 0x80)) * 64 + (b₃.toNat - 0x80))) = [b₀, b₁, b₂, b₃] := by
  have h1 : 0x80 ≤ b₁.toNat := by split at hlow <;> omega
  have h1' : b₁.toNat ≤ 0xBF := by split at hhigh <;> omega
  have hcode : 0x10000 ≤ (((b₀.toNat - 0xF0) * 64 + (b₁.toNat - 0x80)) * 64 +
      (b₂.toNat - 0x80)) * 64 + (b₃.toNat - 0x80) := by
    split at hlow <;> omega
  have hvalid : (((b₀.toNat - 0xF0) * 64 + (b₁.toNat - 0x80)) * 64 +
      (b₂.toNat - 0x80)) * 64 + (b₃.toNat - 0x80) < 0x110000 := by
    split at hhigh <;> omega
  unfold encodeChar
  rw [toNat_charOfNat (by omega)]
  dsimp only
  rw [if_neg (by omega), if_neg (by omega), if_neg (by omega), ofNat_eq (b := b₀) (by omega),
    ofNat_eq (b := b₁) (by omega), ofNat_eq (b := b₂) (by omega), ofNat_eq (b := b₃) (by omega)]

/-- A pending character goes on with a byte that it admits. -/
theorem exists_byte_of_pending {cs : List Char}
    (h : decodeFrom index read (some p) bytes = .ok cs) :
    ∃ b rest, bytes = b :: rest ∧ p.low ≤ b.toNat ∧ b.toNat ≤ p.high ∧
      (p.owed = 1 → decodeFrom (index + 1) (.ofNat (p.push b).code :: read) none rest = .ok cs) ∧
      (p.owed ≠ 1 → decodeFrom (index + 1) read (some (p.push b)) rest = .ok cs) := by
  cases bytes with
  | nil => cases h
  | cons b rest =>
    rw [decodeFrom] at h
    split at h
    case isFalse => cases h
    case isTrue hadmits =>
      rw [Pending.admits, Bool.and_eq_true, decide_eq_true_iff, decide_eq_true_iff] at hadmits
      refine ⟨b, rest, rfl, hadmits.1, hadmits.2, fun howed ↦ ?_, fun howed ↦ ?_⟩
      · rwa [if_pos howed] at h
      · rwa [if_neg howed] at h

/-- What a lead byte can begin. -/
theorem ofLead?_cases (h : Pending.ofLead? b = some p) :
    (0xC2 ≤ b.toNat ∧ b.toNat < 0xE0 ∧ p = { code := b.toNat - 0xC0, seen := 1, owed := 1 }) ∨
    (0xE0 ≤ b.toNat ∧ b.toNat < 0xF0 ∧ p =
      { code := b.toNat - 0xE0, seen := 1, owed := 2
        low := if b.toNat = 0xE0 then 0xA0 else 0x80
        high := if b.toNat = 0xED then 0x9F else 0xBF }) ∨
    (0xF0 ≤ b.toNat ∧ b.toNat < 0xF5 ∧ p =
      { code := b.toNat - 0xF0, seen := 1, owed := 3
        low := if b.toNat = 0xF0 then 0x90 else 0x80
        high := if b.toNat = 0xF4 then 0x8F else 0xBF }) := by
  by_cases hlow : b.toNat < 0xC2
  · simp [Pending.ofLead?, hlow] at h
  by_cases hhigh : b.toNat < 0xF5
  · rw [← UInt8.ofNat_toNat (x := b), ofLead?_ofNat (Nat.not_lt.1 hlow) hhigh] at h
    split at h
    case isTrue htwo => exact .inl ⟨Nat.not_lt.1 hlow, htwo, (Option.some.inj h).symm⟩
    case isFalse htwo =>
      split at h
      case isTrue hthree =>
        exact .inr (.inl ⟨Nat.not_lt.1 htwo, hthree, (Option.some.inj h).symm⟩)
      case isFalse hthree =>
        exact .inr (.inr ⟨Nat.not_lt.1 hthree, hhigh, (Option.some.inj h).symm⟩)
  · rw [Pending.ofLead?, if_neg hlow, if_neg (by omega), if_neg (by omega), if_neg hhigh] at h
    cases h

/-- What is decoded begins with the bytes of a character. -/
theorem exists_char_of_decodeFrom {cs : List Char}
    (h : decodeFrom index read none (b :: rest) = .ok cs) :
    ∃ c rest' index', b :: rest = encodeChar c ++ rest' ∧
      decodeFrom index' (c :: read) none rest' = .ok cs := by
  rw [decodeFrom] at h
  split at h
  case isTrue hascii =>
    have hb : b.toNat < 0x80 := UInt8.lt_iff_toNat_lt.1 hascii
    have hchar : (Char.ofNat b.toNat).toNat = b.toNat := toNat_charOfNat (by omega)
    refine ⟨_, rest, _, ?_, h⟩
    rw [encodeChar_ascii (by omega), hchar, UInt8.ofNat_toNat]
    rfl
  case isFalse =>
    split at h
    case h_1 => cases h
    case h_2 p hlead =>
      obtain ⟨b₁, rest₁, rfl, hlow₁, hhigh₁, hlast₁, hmore₁⟩ := exists_byte_of_pending h
      rcases ofLead?_cases hlead with ⟨hlow, hhigh, rfl⟩ | ⟨hlow, hhigh, rfl⟩ | ⟨hlow, hhigh, rfl⟩
      · have hchar := encodeChar_two hlow hhigh hlow₁ hhigh₁
        exact ⟨_, rest₁, _, congrArg (· ++ rest₁) hchar.symm, hlast₁ rfl⟩
      · obtain ⟨b₂, rest₂, rfl, hlow₂, hhigh₂, hlast₂, -⟩ :=
          exists_byte_of_pending (hmore₁ (show 2 ≠ 1 by decide))
        have hchar := encodeChar_three hlow hhigh hlow₁ hhigh₁ hlow₂ hhigh₂
        exact ⟨_, rest₂, _, congrArg (· ++ rest₂) hchar.symm, hlast₂ rfl⟩
      · obtain ⟨b₂, rest₂, rfl, hlow₂, hhigh₂, -, hmore₂⟩ :=
          exists_byte_of_pending (hmore₁ (show 3 ≠ 1 by decide))
        obtain ⟨b₃, rest₃, rfl, hlow₃, hhigh₃, hlast₃, -⟩ :=
          exists_byte_of_pending (hmore₂ (show 2 ≠ 1 by decide))
        have hchar := encodeChar_four hlow hhigh hlow₁ hhigh₁ hlow₂ hhigh₂ hlow₃ hhigh₃
        exact ⟨_, rest₃, _, congrArg (· ++ rest₃) hchar.symm, hlast₃ rfl⟩

theorem encodeChar_ne_nil (c : Char) : encodeChar c ≠ [] := by
  unfold encodeChar
  dsimp only
  split
  · exact List.cons_ne_nil _ _
  · split
    · exact List.cons_ne_nil _ _
    · split <;> exact List.cons_ne_nil _ _

theorem encodeChars_eq_nil_iff {cs : List Char} : encodeChars cs = [] ↔ cs = [] := by
  rw [encodeChars, List.flatMap_eq_nil_iff]
  exact ⟨fun h ↦ List.eq_nil_iff_forall_not_mem.2 fun c hc ↦ encodeChar_ne_nil c (h c hc),
    fun h c hc ↦ absurd (h ▸ hc) List.not_mem_nil⟩

theorem exists_chars_of_decodeFrom {cs : List Char}
    (h : decodeFrom index read none bytes = .ok cs) :
    ∃ cs', cs = read.reverse ++ cs' ∧ bytes = encodeChars cs' := by
  induction hlength : bytes.length using Nat.strongRecOn generalizing bytes index read with
  | ind length ih =>
    cases bytes with
    | nil =>
      rw [decodeFrom, Except.ok.injEq] at h
      exact ⟨[], by rw [h, List.append_nil], rfl⟩
    | cons b rest =>
      obtain ⟨c, rest', index', hbytes, hrest⟩ := exists_char_of_decodeFrom h
      have hshorter : rest'.length < length := by
        have hpos := List.length_pos_iff.2 (encodeChar_ne_nil c)
        rw [← hlength, hbytes, List.length_append]
        omega
      obtain ⟨cs', rfl, rfl⟩ := ih _ hshorter hrest rfl
      refine ⟨c :: cs', ?_, ?_⟩
      · rw [List.reverse_cons, List.append_assoc, List.singleton_append]
      · rw [hbytes, encodeChars_cons]

/-- Exactly the bytes of characters are decoded. -/
theorem decodeChars_eq_ok_iff {cs : List Char} :
    decodeChars bytes = .ok cs ↔ bytes = encodeChars cs := by
  constructor
  · intro h
    obtain ⟨cs', rfl, hbytes⟩ := exists_chars_of_decodeFrom h
    exact hbytes
  · rintro rfl
    exact decodeChars_encodeChars cs

/-- Some text is written with these bytes. -/
def IsUtf8 (bytes : Bytes) : Prop := ∃ text, encode text = bytes

theorem isUtf8_iff : IsUtf8 bytes ↔ ∃ cs, encodeChars cs = bytes := by
  constructor
  · rintro ⟨text, rfl⟩
    exact ⟨text.toList, rfl⟩
  · rintro ⟨cs, rfl⟩
    exact ⟨.ofList cs, by rw [encode, String.toList_ofList]⟩

theorem isUtf8_encodeChars (cs : List Char) : IsUtf8 (encodeChars cs) :=
  isUtf8_iff.2 ⟨cs, rfl⟩

theorem IsUtf8.append {more : Bytes} (h : IsUtf8 bytes) (hmore : IsUtf8 more) :
    IsUtf8 (bytes ++ more) := by
  obtain ⟨cs, rfl⟩ := isUtf8_iff.1 h
  obtain ⟨cs', rfl⟩ := isUtf8_iff.1 hmore
  rw [← encodeChars_append]
  exact isUtf8_encodeChars _

theorem isUtf8_of_ascii (h : ∀ b ∈ bytes, b.toNat < 0x80) : IsUtf8 bytes := by
  have hchar (b : UInt8) (hb : b ∈ bytes) : (Char.ofNat b.toNat).toNat = b.toNat :=
    toNat_charOfNat (Or.inl (Nat.lt_trans (h b hb) (by decide)))
  have hascii : ∀ c ∈ bytes.map fun b ↦ Char.ofNat b.toNat, c.toNat < 0x80 := by
    intro c hc
    obtain ⟨b, hb, rfl⟩ := List.mem_map.1 hc
    rw [hchar b hb]
    exact h b hb
  have hbytes : encodeChars (bytes.map fun b ↦ Char.ofNat b.toNat) = bytes := by
    rw [encodeChars_ascii hascii, List.map_map, List.map_congr_left (g := id), List.map_id]
    intro b hb
    exact ofNat_eq (hchar b hb)
  rw [← hbytes]
  exact isUtf8_encodeChars _

theorem IsUtf8.flatMap {α : Type} {f : α → Bytes} {xs : List α} (h : ∀ x ∈ xs, IsUtf8 (f x)) :
    IsUtf8 (xs.flatMap f) := by
  induction xs with
  | nil => exact isUtf8_encodeChars []
  | cons x xs ih =>
    rw [List.forall_mem_cons] at h
    rw [List.flatMap_cons]
    exact h.1.append (ih h.2)

theorem exists_fault_of_not_isUtf8 (h : ¬ IsUtf8 bytes) :
    ∃ fault, decodeChars bytes = .error fault := by
  cases hdecode : decodeChars bytes with
  | error fault => exact ⟨fault, rfl⟩
  | ok cs =>
    rw [decodeChars_eq_ok_iff] at hdecode
    exact absurd (hdecode ▸ isUtf8_encodeChars cs) h

instance : DecidablePred IsUtf8 := fun bytes ↦
  match h : decodeChars bytes with
  | .ok cs => isTrue (decodeChars_eq_ok_iff.1 h ▸ isUtf8_encodeChars cs)
  | .error _ => isFalse fun hutf8 ↦ by
    obtain ⟨cs, rfl⟩ := isUtf8_iff.1 hutf8
    rw [decodeChars_encodeChars] at h
    cases h

/-! ## Faults that are replaced -/

/-- Where bytes are decoded, nothing is replaced. -/
theorem decodeLossyFrom_of_decodeFrom {pending : Option Pending} {cs : List Char}
    (h : decodeFrom index read pending bytes = .ok cs) :
    decodeLossyFrom read pending bytes = cs := by
  induction bytes generalizing index read pending with
  | nil =>
    cases pending with
    | none => exact Except.ok.inj h
    | some p => cases h
  | cons b rest ih =>
    cases pending with
    | none =>
      rw [decodeFrom] at h
      rw [decodeLossyFrom, lossyLead]
      split at h
      case isTrue hascii =>
        rw [if_pos hascii]
        exact ih h
      case isFalse hascii =>
        rw [if_neg hascii]
        cases hlead : Pending.ofLead? b with
        | none =>
          rw [hlead] at h
          cases h
        | some p =>
          rw [hlead] at h
          exact ih h
    | some p =>
      rw [decodeFrom] at h
      rw [decodeLossyFrom]
      split at h
      case isFalse => cases h
      case isTrue hadmits =>
        rw [if_pos hadmits]
        split at h
        case isTrue howed =>
          rw [if_pos howed]
          exact ih h
        case isFalse howed =>
          rw [if_neg howed]
          exact ih h

theorem encode_decodeLossy (h : IsUtf8 bytes) : encode (decodeLossy bytes) = bytes := by
  obtain ⟨cs, rfl⟩ := isUtf8_iff.1 h
  rw [decodeLossy, decodeLossyFrom_of_decodeFrom (decodeChars_encodeChars cs), encode,
    String.toList_ofList]

end PetriAlign.Utf8
