import PetriAlign.Json.Printer
import PetriAlign.Proofs.Json.Scalar

/-!
# Printed values are read back

The compact text of a value is read as this value, if its strings are escaped texts and its numbers
are written with digits alone. A value is read up to its end and no further, so the induction goes
over values with anything behind them that could not go on with a number.
-/

namespace PetriAlign.Json

open Utf8 (encode encodeChars IsUtf8)

/-- The values that are written: strings are escaped texts, numbers have digits alone. -/
inductive IsWritten : Json → Prop
  | null : IsWritten .null
  | bool (value : Bool) : IsWritten (.bool value)
  | ofNat (n : Nat) : IsWritten (.ofNat n)
  | ofText (s : String) : IsWritten (.ofText s)
  | array {elements : List Json} (h : ∀ j ∈ elements, IsWritten j) : IsWritten (.array elements)
  | object {members : List (Bytes × Json)} (hkeys : ∀ m ∈ members, ∃ k, m.1 = escape k)
    (h : ∀ m ∈ members, IsWritten m.2) : IsWritten (.object members)

variable {j : Json} {elements : List Json} {members : List (Bytes × Json)} {rest : Bytes}
  {fuel : Nat}

/-! ## Values in front of other bytes -/

theorem skipSpace_cons {b : UInt8} (hb : isSpace b = false) (bytes : Bytes) :
    skipSpace (b :: bytes) = b :: bytes := by
  rw [skipSpace, List.dropWhile_cons_of_neg]
  rw [hb]
  exact Bool.false_ne_true

/-- With enough fuel the text of a value is read as the value and nothing behind it is touched. -/
structure Reads (j : Json) : Prop where
  /-- What the text begins with is neither white space nor the end of a list. -/
  exists_cons : ∃ b bytes, j.print = b :: bytes ∧ isSpace b = false ∧ b ≠ 0x5D
  valueFrom : ∀ fuel rest, 2 * j.print.length ≤ fuel → EndsNumber rest →
    Json.valueFrom fuel (j.print ++ rest) = .ok (j, rest)

theorem Reads.isEmpty_skipSpace (hj : Reads j) (rest : Bytes) :
    (skipSpace (j.print ++ rest)).isEmpty = false := by
  obtain ⟨b, bytes, hprint, hspace, -⟩ := hj.exists_cons
  rw [hprint, List.cons_append, skipSpace_cons hspace]
  rfl

/-- What is no list and no object is read by its first byte. -/
theorem reads_scalar {b : UInt8} {bytes : Bytes} (hprint : j.print = b :: bytes)
    (hb : isSpace b = false ∧ b ≠ 0x5B ∧ b ≠ 0x7B ∧ b ≠ 0x5D)
    (h : ∀ rest, EndsNumber rest → scalar (j.print ++ rest) = .ok (j, rest)) : Reads j := by
  obtain ⟨hspace, hlist, hobject, hend⟩ := hb
  refine ⟨⟨b, bytes, hprint, hspace, hend⟩, fun fuel rest hfuel hrest ↦ ?_⟩
  cases fuel with
  | zero =>
    rw [hprint, List.length_cons] at hfuel
    omega
  | succ fuel =>
    rw [← h rest hrest, hprint, List.cons_append, valueFrom, skipSpace_cons hspace]
    split
    case h_1 heq => exact absurd (List.cons.inj heq).1 hlist
    case h_2 heq => exact absurd (List.cons.inj heq).1 hobject
    case h_3 => rfl

theorem reads_null : Reads .null :=
  reads_scalar (b := 0x6E) rfl (by decide) fun _ _ ↦ rfl

theorem reads_bool (value : Bool) : Reads (.bool value) := by
  cases value with
  | true => exact reads_scalar (b := 0x74) rfl (by decide) fun _ _ ↦ rfl
  | false => exact reads_scalar (b := 0x66) rfl (by decide) fun _ _ ↦ rfl

theorem reads_ofText (s : String) : Reads (.ofText s) := by
  apply reads_scalar (b := 0x22) List.cons_append (by decide)
  intro rest _
  have htext : (ofText s).print ++ rest = 0x22 :: (escape s ++ 0x22 :: rest) := by
    simp [ofText, print]
  rw [htext, scalar, if_pos rfl, stringFrom_escape]
  rfl

theorem isSpace_of_isDigit {b : UInt8} (hb : isDigit b = true) : isSpace b = false := by
  have hne {b' : UInt8} (hb' : isDigit b' = false) : b ≠ b' := ne_of_isDigit hb hb'
  have h20 : b ≠ 0x20 := hne rfl
  have h0A : b ≠ 0x0A := hne rfl
  have h0D : b ≠ 0x0D := hne rfl
  have h09 : b ≠ 0x09 := hne rfl
  simp [isSpace, h20, h0A, h0D, h09]

theorem reads_ofNat (n : Nat) : Reads (.ofNat n) := by
  obtain ⟨b, bytes, hbytes, hb⟩ := exists_cons_decimal n
  have hne {b' : UInt8} (hb' : isDigit b' = false) : b ≠ b' := ne_of_isDigit hb hb'
  have hprint : (ofNat n).print = b :: bytes := hbytes
  apply reads_scalar hprint ⟨isSpace_of_isDigit hb, hne rfl, hne rfl, hne rfl⟩
  intro rest hrest
  have hnumber := numberFrom_decimal n hrest
  rw [hbytes, List.cons_append] at hnumber
  rw [hprint, List.cons_append, scalar, if_neg (hne rfl), if_pos (.inr hb), hnumber]

/-! ## Lists -/

variable {found : List Json} {next : UInt8}

theorem elementsFrom_last (hj : Reads j) (hfuel : 2 * j.print.length ≤ fuel) :
    elementsFrom (fuel + 1) found (j.print ++ 0x5D :: rest) = .ok ((j :: found).reverse, rest) := by
  rw [elementsFrom, hj.isEmpty_skipSpace,
    hj.valueFrom fuel _ hfuel (endsNumber_cons (by decide) _)]
  dsimp only
  rw [skipSpace_cons rfl]
  rfl

theorem elementsFrom_comma (hj : Reads j) (hfuel : 2 * j.print.length ≤ fuel)
    (hspace : isSpace next = false) (hnext : next ≠ 0x5D) :
    elementsFrom (fuel + 1) found (j.print ++ 0x2C :: next :: rest) =
      elementsFrom fuel (j :: found) (next :: rest) := by
  rw [elementsFrom, hj.isEmpty_skipSpace,
    hj.valueFrom fuel _ hfuel (endsNumber_cons (by decide) _)]
  dsimp only
  rw [skipSpace_cons rfl]
  change (if (skipSpace (next :: rest)).head? = some 0x5D then _ else _) = _
  rw [skipSpace_cons hspace]
  exact if_neg fun h ↦ hnext (Option.some.inj h)

theorem printElements_cons (j j' : Json) (elements : List Json) :
    printElements (j :: j' :: elements) = j.print ++ 0x2C :: printElements (j' :: elements) := by
  rw [printElements]
  exact List.cons_ne_nil _ _

theorem exists_cons_printElements (hj : Reads j) (elements : List Json) :
    ∃ b bytes, printElements (j :: elements) = b :: bytes ∧ isSpace b = false ∧ b ≠ 0x5D := by
  obtain ⟨b, bytes, hprint, hb⟩ := hj.exists_cons
  cases elements with
  | nil => exact ⟨b, bytes, by rw [printElements, hprint], hb⟩
  | cons j' elements => exact ⟨b, _, by rw [printElements_cons, hprint, List.cons_append], hb⟩

theorem elementsFrom_printElements (hne : elements ≠ []) (h : ∀ j ∈ elements, Reads j)
    (hfuel : 2 * (printElements elements).length < fuel) (found : List Json) (rest : Bytes) :
    elementsFrom fuel found (printElements elements ++ 0x5D :: rest) =
      .ok (found.reverse ++ elements, rest) := by
  induction elements generalizing found fuel with
  | nil => exact absurd rfl hne
  | cons j elements ih =>
    obtain ⟨hj, helements⟩ := List.forall_mem_cons.1 h
    obtain ⟨fuel, rfl⟩ := Nat.exists_eq_add_one_of_ne_zero (Nat.ne_zero_of_lt hfuel)
    cases elements with
    | nil =>
      rw [printElements] at hfuel ⊢
      rw [elementsFrom_last hj (by omega), List.reverse_cons]
    | cons j' elements =>
      rw [printElements_cons, List.length_append, List.length_cons] at hfuel
      have hless : 2 * (printElements (j' :: elements)).length < fuel := by omega
      have htail := ih (List.cons_ne_nil _ _) helements hless (j :: found)
      obtain ⟨b, bytes, hbytes, hspace, hend⟩ :=
        exists_cons_printElements (helements j' List.mem_cons_self) elements
      rw [hbytes, List.cons_append] at htail
      rw [printElements_cons, List.append_assoc, List.cons_append, hbytes, List.cons_append,
        elementsFrom_comma hj (by omega) hspace hend, htail, List.reverse_cons, List.append_assoc]
      rfl

theorem valueFrom_list {b : UInt8} {bytes : Bytes} (hspace : isSpace b = false) (hend : b ≠ 0x5D) :
    valueFrom (fuel + 1) (0x5B :: b :: bytes) =
      (elementsFrom fuel [] (b :: bytes)).map fun (elements, rest) ↦ (.array elements, rest) := by
  simp [valueFrom, skipSpace_cons (b := 0x5B) rfl, skipSpace_cons hspace, hend]

theorem reads_array (h : ∀ j ∈ elements, Reads j) : Reads (.array elements) := by
  refine ⟨⟨0x5B, printElements elements ++ [0x5D], by rw [print, List.cons_append], rfl, by decide⟩,
    fun fuel rest hfuel hrest ↦ ?_⟩
  rw [print, List.length_append, List.length_cons, List.length_singleton] at hfuel
  obtain ⟨fuel, rfl⟩ := Nat.exists_eq_add_one_of_ne_zero (n := fuel) (by omega)
  rw [print, List.append_assoc, List.singleton_append, List.cons_append]
  cases elements with
  | nil => rfl
  | cons j elements =>
    have hless : 2 * (printElements (j :: elements)).length < fuel := by omega
    have helements := elementsFrom_printElements (List.cons_ne_nil _ _) h hless [] rest
    obtain ⟨b, bytes, hbytes, hspace, hend⟩ :=
      exists_cons_printElements (h j List.mem_cons_self) elements
    rw [hbytes, List.cons_append] at helements ⊢
    rw [valueFrom_list hspace hend, helements]
    rfl

/-! ## Objects -/

variable {before : List (Bytes × Json)}

theorem key_escape (k : String) (rest : Bytes) :
    key (0x22 :: (escape k ++ 0x22 :: 0x3A :: rest)) = .ok (escape k, rest) := by
  rw [key, stringFrom_escape]
  rfl

theorem membersFrom_last (k : String) (hj : Reads j) (hfuel : 2 * j.print.length ≤ fuel) :
    membersFrom (fuel + 1) before
        (0x22 :: (escape k ++ 0x22 :: 0x3A :: (j.print ++ 0x7D :: rest))) =
      .ok (((escape k, j) :: before).reverse, rest) := by
  rw [membersFrom, skipSpace_cons rfl, key_escape]
  dsimp only
  rw [hj.valueFrom fuel _ hfuel (endsNumber_cons (by decide) _)]
  dsimp only
  rw [skipSpace_cons rfl]
  rfl

theorem membersFrom_comma (k : String) (hj : Reads j) (hfuel : 2 * j.print.length ≤ fuel) :
    membersFrom (fuel + 1) before
        (0x22 :: (escape k ++ 0x22 :: 0x3A :: (j.print ++ 0x2C :: 0x22 :: rest))) =
      membersFrom fuel ((escape k, j) :: before) (0x22 :: rest) := by
  rw [membersFrom, skipSpace_cons rfl, key_escape]
  dsimp only
  rw [hj.valueFrom fuel _ hfuel (endsNumber_cons (by decide) _)]
  dsimp only
  rw [skipSpace_cons rfl]
  rfl

theorem printMembers_singleton (key : Bytes) (j : Json) :
    printMembers [(key, j)] = 0x22 :: (key ++ 0x22 :: 0x3A :: j.print) := by
  rw [printMembers, List.cons_append]

theorem printMembers_cons (key : Bytes) (j : Json) (m : Bytes × Json) :
    printMembers ((key, j) :: m :: members) =
      0x22 :: (key ++ 0x22 :: 0x3A :: (j.print ++ 0x2C :: printMembers (m :: members))) := by
  rw [printMembers, List.append_assoc, List.cons_append]
  · rfl
  · exact List.cons_ne_nil _ _

theorem exists_cons_printMembers (m : Bytes × Json) (members : List (Bytes × Json)) :
    ∃ bytes, printMembers (m :: members) = 0x22 :: bytes := by
  cases members with
  | nil => exact ⟨_, printMembers_singleton m.1 m.2⟩
  | cons m' members => exact ⟨_, printMembers_cons m.1 m.2 m'⟩

theorem membersFrom_printMembers (hne : members ≠ [])
    (hkeys : ∀ m ∈ members, ∃ k, m.1 = escape k) (h : ∀ m ∈ members, Reads m.2)
    (hfuel : 2 * (printMembers members).length < fuel) (before : List (Bytes × Json))
    (rest : Bytes) :
    membersFrom fuel before (printMembers members ++ 0x7D :: rest) =
      .ok (before.reverse ++ members, rest) := by
  induction members generalizing before fuel with
  | nil => exact absurd rfl hne
  | cons m members ih =>
    obtain ⟨key, j⟩ := m
    rw [List.forall_mem_cons] at hkeys h
    obtain ⟨⟨k, rfl⟩, hrest⟩ := hkeys
    obtain ⟨hj, hmembers⟩ := h
    dsimp only at hj
    obtain ⟨fuel, rfl⟩ := Nat.exists_eq_add_one_of_ne_zero (Nat.ne_zero_of_lt hfuel)
    cases members with
    | nil =>
      simp only [printMembers_singleton, List.length_cons, List.length_append] at hfuel
      rw [printMembers_singleton, List.cons_append, List.append_assoc, List.cons_append,
        List.cons_append, membersFrom_last k hj (by omega), List.reverse_cons]
    | cons m members =>
      simp only [printMembers_cons, List.length_cons, List.length_append] at hfuel
      have hless : 2 * (printMembers (m :: members)).length < fuel := by omega
      have htail := ih (List.cons_ne_nil _ _) hrest hmembers hless ((escape k, j) :: before)
      obtain ⟨bytes, hbytes⟩ := exists_cons_printMembers m members
      rw [hbytes, List.cons_append] at htail
      rw [printMembers_cons, hbytes, List.cons_append, List.append_assoc, List.cons_append,
        List.cons_append, List.append_assoc, List.cons_append, List.cons_append,
        membersFrom_comma k hj (by omega), htail, List.reverse_cons, List.append_assoc]
      rfl

theorem reads_object (hkeys : ∀ m ∈ members, ∃ k, m.1 = escape k)
    (h : ∀ m ∈ members, Reads m.2) : Reads (.object members) := by
  refine ⟨⟨0x7B, printMembers members ++ [0x7D], by rw [print, List.cons_append], rfl, by decide⟩,
    fun fuel rest hfuel hrest ↦ ?_⟩
  rw [print, List.length_append, List.length_cons, List.length_singleton] at hfuel
  obtain ⟨fuel, rfl⟩ := Nat.exists_eq_add_one_of_ne_zero (n := fuel) (by omega)
  rw [print, List.append_assoc, List.singleton_append, List.cons_append]
  cases members with
  | nil => rfl
  | cons m members =>
    have hless : 2 * (printMembers (m :: members)).length < fuel := by omega
    have hmembers := membersFrom_printMembers (List.cons_ne_nil _ _) hkeys h hless [] rest
    obtain ⟨bytes, hbytes⟩ := exists_cons_printMembers m members
    rw [hbytes, List.cons_append] at hmembers ⊢
    change (membersFrom fuel [] (0x22 :: (bytes ++ 0x7D :: rest))).map _ = _
    rw [hmembers]
    rfl

/-! ## Documents -/

theorem IsWritten.reads (h : IsWritten j) : Reads j := by
  induction h with
  | null => exact reads_null
  | bool value => exact reads_bool value
  | ofNat n => exact reads_ofNat n
  | ofText s => exact reads_ofText s
  | array _ ih => exact reads_array ih
  | object hkeys _ ih => exact reads_object hkeys ih

/-- What is printed is parsed again. -/
theorem parse_print (h : IsWritten j) : parse j.print = .ok j := by
  have hvalue := h.reads.valueFrom (2 * j.print.length + 2) [] (Nat.le_add_right _ _) endsNumber_nil
  rw [List.append_nil] at hvalue
  rw [parse, hvalue]
  rfl

/-! ## Texts -/

theorem isUtf8_printElements (h : ∀ j ∈ elements, IsUtf8 j.print) :
    IsUtf8 (printElements elements) := by
  induction elements with
  | nil => exact Utf8.isUtf8_encodeChars []
  | cons j elements ih =>
    rw [List.forall_mem_cons] at h
    cases elements with
    | nil =>
      rw [printElements]
      exact h.1
    | cons j' elements =>
      rw [printElements_cons]
      exact h.1.append ((Utf8.isUtf8_encodeChars [',']).append (ih h.2))

theorem isUtf8_printMembers (hkeys : ∀ m ∈ members, ∃ k, m.1 = escape k)
    (h : ∀ m ∈ members, IsUtf8 m.2.print) : IsUtf8 (printMembers members) := by
  have hmark : IsUtf8 [0x22] := Utf8.isUtf8_encodeChars ['\x22']
  have hcolon : IsUtf8 [0x22, 0x3A] := Utf8.isUtf8_encodeChars ['\x22', ':']
  induction members with
  | nil => exact Utf8.isUtf8_encodeChars []
  | cons m members ih =>
    obtain ⟨key, j⟩ := m
    rw [List.forall_mem_cons] at hkeys h
    obtain ⟨⟨k, rfl⟩, hrest⟩ := hkeys
    obtain ⟨hj, hmembers⟩ := h
    cases members with
    | nil =>
      rw [printMembers_singleton]
      exact hmark.append ((isUtf8_escape k).append (hcolon.append hj))
    | cons m members =>
      rw [printMembers_cons]
      exact hmark.append ((isUtf8_escape k).append (hcolon.append
        (hj.append ((Utf8.isUtf8_encodeChars [',']).append (ih hrest hmembers)))))

theorem IsWritten.isUtf8 (h : IsWritten j) : IsUtf8 j.print := by
  induction h with
  | null => exact ⟨"null", by rw [print]⟩
  | bool value => exact ⟨_, by rw [print]⟩
  | ofNat n => exact Utf8.isUtf8_encodeChars _
  | ofText s =>
    exact (Utf8.isUtf8_encodeChars ['\x22']).append
      ((isUtf8_escape s).append (Utf8.isUtf8_encodeChars ['\x22']))
  | array _ ih =>
    rw [print]
    exact (Utf8.isUtf8_encodeChars ['[']).append
      ((isUtf8_printElements ih).append (Utf8.isUtf8_encodeChars [']']))
  | object hkeys _ ih =>
    rw [print]
    exact (Utf8.isUtf8_encodeChars ['\x7b']).append
      ((isUtf8_printMembers hkeys ih).append (Utf8.isUtf8_encodeChars ['\x7d']))

/-- The text of a value is read as what the value stands for. -/
theorem read_text {α : Type} {ofJson? : Json → Option α} {x : α} (h : IsWritten j)
    (hx : ofJson? j = some x) : read ofJson? (.ofText j.text) = .ok x := by
  have hbytes : encode j.text = j.print := Utf8.encode_decodeLossy h.isUtf8
  refine bind_eq_ok_iff.2 ⟨encode j.text, rfl, bind_eq_ok_iff.2 ⟨j, ?_, ?_⟩⟩
  · rw [hbytes]
    exact parse_print h
  · rw [hx]
    rfl

end PetriAlign.Json
