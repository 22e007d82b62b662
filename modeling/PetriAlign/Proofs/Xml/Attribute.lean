import Mathlib.Data.List.Find
import Mathlib.Data.List.TakeWhile
import PetriAlign.Proofs.Xml.Entity
import PetriAlign.Xml.Attribute
import PetriAlign.Xml.Markup

/-!
# Written tags read back

A tag that is written with names made of letters has its name and its attributes again when it is
read: each look-up finds the value of the first attribute of that name.
-/

namespace PetriAlign.Xml

open Markup (renderAttribute renderTag)

/-! ## Names -/

/-- A name of letters. -/
def IsName (s : String) : Prop := s.toList ≠ [] ∧ ∀ c ∈ s.toList, c.isAlpha = true

instance (s : String) : Decidable (IsName s) :=
  decidable_of_iff (s.toList ≠ [] ∧ s.toList.all Char.isAlpha = true)
    (and_congr_right fun _ ↦ List.all_eq_true)

def isLetter (b : UInt8) : Bool := (0x41 ≤ b && b ≤ 0x5A) || (0x61 ≤ b && b ≤ 0x7A)

/-- A letter is no byte that divides markup. -/
theorem ne_of_isLetter {b d : UInt8} (hb : isLetter b = true) (hd : isLetter d = false) :
    b ≠ d := by
  intro heq
  rw [heq, hd] at hb
  cases hb

theorem isSpace_of_isLetter {b : UInt8} (hb : isLetter b = true) : isSpace b = false := by
  simp only [isSpace, Bool.or_eq_false_iff, decide_eq_false_iff_not]
  exact ⟨⟨⟨ne_of_isLetter hb rfl, ne_of_isLetter hb rfl⟩, ne_of_isLetter hb rfl⟩,
    ne_of_isLetter hb rfl⟩

namespace IsName

variable {s t : String}

theorem toNat_bounds (h : IsName s) {c : Char} (hc : c ∈ s.toList) :
    (0x41 ≤ c.toNat ∧ c.toNat ≤ 0x5A) ∨ (0x61 ≤ c.toNat ∧ c.toNat ≤ 0x7A) := by
  have hletter : (decide (0x41 ≤ c.val ∧ c.val ≤ 0x5A) ||
      decide (0x61 ≤ c.val) && decide (c.val ≤ 0x7A)) = true := h.2 c hc
  simp only [UInt32.le_iff_toNat_le, Bool.or_eq_true, Bool.and_eq_true, decide_eq_true_iff]
    at hletter
  exact hletter

theorem toNat_lt (h : IsName s) {c : Char} (hc : c ∈ s.toList) : c.toNat < 0x80 := by
  have hbounds := h.toNat_bounds hc
  omega

theorem encodeChars_eq (h : IsName s) : Utf8.encodeChars s.toList = bytesOf s :=
  Utf8.encodeChars_ascii fun _ ↦ h.toNat_lt

theorem isLetter_of_mem (h : IsName s) {b : UInt8} (hb : b ∈ bytesOf s) : isLetter b = true := by
  obtain ⟨c, hc, rfl⟩ := List.mem_map.1 hb
  have hbounds := h.toNat_bounds hc
  simp only [isLetter, UInt8.le_iff_toNat_le, Utf8.toNat_ofNat (show c.toNat < 256 by omega),
    Bool.or_eq_true, Bool.and_eq_true, decide_eq_true_iff]
  exact hbounds

theorem isSpace_of_mem (h : IsName s) {b : UInt8} (hb : b ∈ bytesOf s) : isSpace b = false :=
  isSpace_of_isLetter (h.isLetter_of_mem hb)

theorem not_isSpace (h : IsName s) : ∀ b ∈ bytesOf s, (!isSpace b) = true := by
  intro b hb
  rw [h.isSpace_of_mem hb]
  rfl

theorem exists_cons (h : IsName s) : ∃ b bs, bytesOf s = b :: bs := by
  apply List.exists_cons_of_ne_nil
  intro hnil
  exact h.1 (List.map_eq_nil_iff.1 hnil)

theorem bytesOf_inj (hs : IsName s) (ht : IsName t) : bytesOf s = bytesOf t ↔ s = t := by
  constructor
  · intro h
    rw [← hs.encodeChars_eq, ← ht.encodeChars_eq] at h
    exact String.toList_inj.1 (Utf8.encodeChars_injective h)
  · exact congrArg bytesOf

end IsName

theorem isName_keys (attributes : List (String × String))
    (h : ∀ key ∈ attributes.map (·.1), IsName key) : ∀ a ∈ attributes, IsName a.1 :=
  List.forall_mem_map.1 h

/-! ## One attribute -/

theorem encodeChars_renderAttribute {a : String × String} (h : IsName a.1) :
    Utf8.encodeChars (renderAttribute a) =
      0x20 :: bytesOf a.1 ++ 0x3D :: 0x22 :: Utf8.encodeChars (escape a.2) ++ [0x22] := by
  rw [renderAttribute, Utf8.encodeChars_append, ← h.encodeChars_eq, List.cons_append,
    Utf8.encodeChars_cons, Utf8.encodeChars_append, Utf8.encodeChars_cons, Utf8.encodeChars_cons]
  rfl

theorem valueAttempt_quoted {name value rest : Bytes} (hvalue : 0x22 ∉ value) :
    valueAttempt name (0x22 :: (value ++ 0x22 :: rest)) =
      ⟨some ⟨name, value⟩, some name, rest⟩ := by
  have hinside : ∀ b ∈ value, decide (b ≠ 0x22) = true := by
    intro b hb
    rw [decide_eq_true_iff]
    exact ne_of_mem_of_not_mem hb hvalue
  unfold valueAttempt
  rw [List.dropWhile_cons_of_neg (by decide)]
  dsimp only
  rw [if_pos (.inl rfl), Text.dropWhile_until hinside (by decide),
    Text.takeWhile_until hinside (by decide)]

theorem attempt_quoted {b : UInt8} {bs value rest : Bytes}
    (hname : ∀ d ∈ bs, isLetter d = true) (hvalue : 0x22 ∉ value) :
    attempt [] b (bs ++ 0x3D :: 0x22 :: (value ++ 0x22 :: rest)) =
      ⟨some ⟨b :: bs, value⟩, some (b :: bs), rest⟩ := by
  have hinside : ∀ d ∈ bs, (!(decide (d = 0x3D) || isSpace d)) = true := by
    intro d hd
    rw [isSpace_of_isLetter (hname d hd), decide_eq_false (ne_of_isLetter (hname d hd) rfl)]
    rfl
  unfold attempt
  dsimp only
  rw [Text.dropWhile_until hinside (by decide), Text.takeWhile_until hinside (by decide),
    List.dropWhile_cons_of_neg (by decide)]
  dsimp only
  rw [if_pos rfl, namedAttempt, if_neg List.not_mem_nil, valueAttempt_quoted hvalue]

theorem attempts_renderAttribute {a : String × String} (h : IsName a.1) (rest : Bytes) :
    attempts false [] (Utf8.encodeChars (renderAttribute a) ++ rest) =
      some ⟨bytesOf a.1, Utf8.encodeChars (escape a.2)⟩ :: attempts false [] rest := by
  have hvalue : 0x22 ∉ Utf8.encodeChars (escape a.2) := by
    intro hmem
    have hquote := (Utf8.mem_encodeChars (d := '\x22') (by decide)).1 hmem
    exact claimed_notMem_escape rfl a.2 hquote
  obtain ⟨b, bs, hbs⟩ := h.exists_cons
  have hletters : ∀ d ∈ b :: bs, isLetter d = true := by
    intro d hd
    exact h.isLetter_of_mem (hbs ▸ hd)
  have hdrop : (Utf8.encodeChars (renderAttribute a) ++ rest).dropWhile isSpace =
      b :: (bs ++ 0x3D :: 0x22 :: (Utf8.encodeChars (escape a.2) ++ 0x22 :: rest)) := by
    rw [encodeChars_renderAttribute h, hbs]
    simp only [List.cons_append, List.append_assoc, List.nil_append]
    rw [List.dropWhile_cons_of_pos (by decide), List.dropWhile_cons_of_neg]
    rw [isSpace_of_isLetter (hletters b List.mem_cons_self)]
    exact Bool.false_ne_true
  rw [attempts]
  split
  case h_1 hnil => simp [hdrop] at hnil
  case h_2 first following hcons =>
    rw [hdrop, List.cons.injEq] at hcons
    obtain ⟨rfl, rfl⟩ := hcons
    dsimp only
    rw [attempt_quoted (fun d hd ↦ hletters d (List.mem_cons_of_mem b hd)) hvalue, hbs]
    rfl

/-! ## Tags -/

/-- The start tag of a written element. -/
def writtenTag (name : String) (attributes : List (String × String)) : Tag :=
  ⟨Utf8.encodeChars (renderTag name attributes)⟩

section Tags

variable {name : String} {attributes : List (String × String)} (hname : IsName name)
  (hattributes : ∀ a ∈ attributes, IsName a.1)

include hattributes

theorem attempts_renderAttributes :
    attempts false [] (Utf8.encodeChars (attributes.flatMap renderAttribute)) =
      attributes.map fun a ↦ some ⟨bytesOf a.1, Utf8.encodeChars (escape a.2)⟩ := by
  induction attributes with
  | nil =>
    rw [attempts]
    rfl
  | cons a attributes ih =>
    rw [List.flatMap_cons, Utf8.encodeChars_append, attempts_renderAttribute, ih]
    · rfl
    · exact fun b hb ↦ hattributes b (List.mem_cons_of_mem a hb)
    · exact hattributes a List.mem_cons_self

include hname

theorem name_writtenTag : (writtenTag name attributes).name = bytesOf name := by
  rw [Tag.name, writtenTag, renderTag, Utf8.encodeChars_append, hname.encodeChars_eq]
  cases attributes with
  | nil =>
    rw [List.flatMap_nil]
    apply (List.takeWhile_append_of_pos hname.not_isSpace).trans
    exact List.append_nil _
  | cons a attributes =>
    rw [List.flatMap_cons, Utf8.encodeChars_append,
      encodeChars_renderAttribute (hattributes a List.mem_cons_self)]
    exact Text.takeWhile_until hname.not_isSpace (by decide)

theorem attributePart_writtenTag : (writtenTag name attributes).attributePart =
      Utf8.encodeChars (attributes.flatMap renderAttribute) := by
  rw [Tag.attributePart, writtenTag, renderTag, Utf8.encodeChars_append, hname.encodeChars_eq]
  cases attributes with
  | nil => exact List.dropWhile_append_of_pos hname.not_isSpace
  | cons a attributes =>
    rw [List.flatMap_cons, Utf8.encodeChars_append,
      encodeChars_renderAttribute (hattributes a List.mem_cons_self)]
    exact Text.dropWhile_until hname.not_isSpace (by decide)

/-- A written attribute is found under its name. -/
theorem value?_writtenTag {key : String} (hkey : IsName key) :
    (writtenTag name attributes).value? key =
      (attributes.find? (·.1 = key)).map (·.2) := by
  let read (a : String × String) : Attribute := ⟨bytesOf a.1, Utf8.encodeChars (escape a.2)⟩
  have hvalue (a : String × String) : (read a).valueOrRaw = a.2 := by
    rw [Attribute.valueOrRaw, Attribute.value, textOf_escape]
  have hall : ((attributes.map fun a ↦ some (read a)).takeWhile Option.isSome).filterMap id =
      attributes.map read := by
    have hsome : ∀ r ∈ attributes.map fun a ↦ some (read a), r.isSome = true := by
      rw [List.forall_mem_map]
      exact fun _ _ ↦ rfl
    rw [List.takeWhile_eq_self_iff.2 hsome, List.filterMap_map]
    exact congrFun List.filterMap_eq_map attributes
  have hfind : (attributes.map read).find? (·.name = bytesOf key) =
      (attributes.find? (·.1 = key)).map read := by
    rw [List.find?_map]
    congr 1
    apply List.find?_congr
    intro a ha
    rw [Function.comp_apply, Bool.eq_iff_iff, decide_eq_true_iff, decide_eq_true_iff]
    exact (hattributes a ha).bytesOf_inj hkey
  calc (writtenTag name attributes).value? key
      = ((attributes.map read).find? (·.name = bytesOf key)).map Attribute.valueOrRaw := by
        rw [Tag.value?, Tag.attribute?, attributePart_writtenTag hname hattributes,
          attempts_renderAttributes hattributes, hall]
    _ = ((attributes.find? (·.1 = key)).map read).map Attribute.valueOrRaw := by
        rw [hfind]
    _ = (attributes.find? (·.1 = key)).map (·.2) := by
        rw [Option.map_map]
        congr 1
        funext a
        exact hvalue a

end Tags

end PetriAlign.Xml
