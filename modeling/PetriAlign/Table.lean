/-!
# Finite tables with text keys

A table maps finitely many keys to values. Its entries are kept in strictly increasing key
order, so two tables with the same look-ups are equal (`Table.ext_get?`), and walking a table
visits its keys in the order of their UTF-8 bytes.
-/

namespace PetriAlign

/-- Entries in strictly increasing key order. -/
structure Table (α : Type) where
  entries : List (String × α)
  sorted : entries.Pairwise (·.1 < ·.1) := by simp

namespace Table

variable {α : Type}

/-- The value of the first entry with this key. -/
def lookup (key : String) : List (String × α) → Option α
  | [] => none
  | (k, v) :: rest => if k = key then some v else lookup key rest

/-- Put a pair where its key belongs, over an entry with the same key. -/
def insertEntry (key : String) (value : α) : List (String × α) → List (String × α)
  | [] => [(key, value)]
  | (k, v) :: rest =>
    if key < k then (key, value) :: (k, v) :: rest
    else if k = key then (key, value) :: rest
    else (k, v) :: insertEntry key value rest

theorem mem_insertEntry {key : String} {value : α} {entries : List (String × α)}
    {e : String × α} (h : e ∈ insertEntry key value entries) : e = (key, value) ∨ e ∈ entries := by
  induction entries with
  | nil => simpa [insertEntry] using h
  | cons head rest ih =>
    obtain ⟨k, v⟩ := head
    simp only [insertEntry] at h
    split at h
    · simpa using h
    · split at h
      · simp only [List.mem_cons] at h ⊢
        rcases h with h | h
        · exact .inl h
        · exact .inr (.inr h)
      · simp only [List.mem_cons] at h ⊢
        rcases h with h | h
        · exact .inr (.inl h)
        · exact (ih h).imp_right .inr

theorem lt_of_not_lt_of_ne {a b : String} (h : ¬ a < b) (hne : b ≠ a) : b < a := by
  by_cases hba : b < a
  · exact hba
  · exact absurd (String.le_antisymm (String.not_lt.1 h) (String.not_lt.1 hba)) hne

theorem pairwise_insertEntry {key : String} {value : α} {entries : List (String × α)}
    (h : entries.Pairwise (·.1 < ·.1)) : (insertEntry key value entries).Pairwise (·.1 < ·.1) := by
  induction entries with
  | nil => simp [insertEntry]
  | cons head rest ih =>
    obtain ⟨k, v⟩ := head
    obtain ⟨hhead, hrest⟩ := List.pairwise_cons.1 h
    simp only [insertEntry]
    split
    case isTrue hlt =>
      refine List.pairwise_cons.2 ⟨fun e he ↦ ?_, h⟩
      rcases List.mem_cons.1 he with rfl | he
      · exact hlt
      · exact String.lt_trans hlt (hhead e he)
    case isFalse hlt =>
      split
      case isTrue heq =>
        subst heq
        exact List.pairwise_cons.2 ⟨hhead, hrest⟩
      case isFalse hne =>
        refine List.pairwise_cons.2 ⟨fun e he ↦ ?_, ih hrest⟩
        rcases mem_insertEntry he with rfl | he
        · exact lt_of_not_lt_of_ne hlt hne
        · exact hhead e he

theorem lookup_insertEntry {key other : String} {value : α} {entries : List (String × α)}
    (h : entries.Pairwise (·.1 < ·.1)) :
    lookup other (insertEntry key value entries) =
      if key = other then some value else lookup other entries := by
  induction entries with
  | nil => simp [insertEntry, lookup]
  | cons head rest ih =>
    obtain ⟨k, v⟩ := head
    obtain ⟨hhead, hrest⟩ := List.pairwise_cons.1 h
    simp only [insertEntry]
    split
    · simp [lookup]
    · split
      case isTrue heq =>
        subst heq
        by_cases hk : k = other <;> simp [lookup, hk]
      case isFalse hne =>
        by_cases hk : k = other
        · subst hk
          simp [lookup, Ne.symm hne]
        · simp [lookup, hk, ih hrest]

theorem lookup_eq_none_of_lt {key : String} {entries : List (String × α)}
    (h : ∀ e ∈ entries, key < e.1) : lookup key entries = none := by
  induction entries with
  | nil => rfl
  | cons head rest ih =>
    obtain ⟨k, v⟩ := head
    have hk : key < k := h (k, v) (by simp)
    have hne : k ≠ key := fun heq ↦ String.lt_irrefl _ (heq ▸ hk)
    simp [lookup, hne, ih fun e he ↦ h e (by simp [he])]

theorem lookup_filter_ne {key other : String} (entries : List (String × α)) :
    lookup other (entries.filter (·.1 ≠ key)) =
      if key = other then none else lookup other entries := by
  induction entries with
  | nil => simp [lookup]
  | cons head rest ih =>
    obtain ⟨k, v⟩ := head
    by_cases hk : k = key
    · subst hk
      by_cases ho : k = other <;> simp_all [lookup]
    · by_cases ho : k = other
      · subst ho
        simp [lookup, hk, Ne.symm hk]
      · simp_all [lookup]

theorem eq_of_lookup_eq {s t : List (String × α)} (hs : s.Pairwise (·.1 < ·.1))
    (ht : t.Pairwise (·.1 < ·.1)) (h : ∀ key, lookup key s = lookup key t) : s = t := by
  induction s generalizing t with
  | nil =>
    cases t with
    | nil => rfl
    | cons head rest =>
      have := h head.1
      simp [lookup] at this
  | cons a s ih =>
    cases t with
    | nil =>
      have := h a.1
      simp [lookup] at this
    | cons b t =>
      obtain ⟨hsa, hs⟩ := List.pairwise_cons.1 hs
      obtain ⟨htb, ht⟩ := List.pairwise_cons.1 ht
      have hab : a.1 = b.1 := by
        by_cases hab : a.1 = b.1
        · exact hab
        · by_cases hlt : a.1 < b.1
          · have hl := h a.1
            have hbelow : ∀ e ∈ b :: t, a.1 < e.1 := by
              intro e he
              rcases List.mem_cons.1 he with rfl | he
              · exact hlt
              · exact String.lt_trans hlt (htb e he)
            rw [lookup_eq_none_of_lt hbelow] at hl
            simp [lookup] at hl
          · have hlt := lt_of_not_lt_of_ne hlt (Ne.symm hab)
            have hl := h b.1
            have hbelow : ∀ e ∈ a :: s, b.1 < e.1 := by
              intro e he
              rcases List.mem_cons.1 he with rfl | he
              · exact hlt
              · exact String.lt_trans hlt (hsa e he)
            rw [lookup_eq_none_of_lt hbelow] at hl
            simp [lookup] at hl
      have hv : a.2 = b.2 := by
        have hl := h a.1
        simpa [lookup, hab] using hl
      have hst : s = t := ih hs ht fun key ↦ by
        by_cases hk : a.1 = key
        · subst hk
          rw [lookup_eq_none_of_lt hsa, hab, lookup_eq_none_of_lt htb]
        · have hl := h key
          simpa [lookup, hk, hab ▸ hk] using hl
      rw [hst, Prod.ext hab hv]

def empty : Table α := ⟨[], .nil⟩

instance : EmptyCollection (Table α) := ⟨empty⟩
instance : Inhabited (Table α) := ⟨empty⟩

def get? (t : Table α) (key : String) : Option α := lookup key t.entries

def contains (t : Table α) (key : String) : Bool := (t.get? key).isSome

def insert (t : Table α) (key : String) (value : α) : Table α :=
  ⟨insertEntry key value t.entries, pairwise_insertEntry t.sorted⟩

def erase (t : Table α) (key : String) : Table α :=
  ⟨t.entries.filter (·.1 ≠ key), t.sorted.filter _⟩

def keys (t : Table α) : List String := t.entries.map (·.1)

/-- Later pairs replace earlier ones with the same key. -/
def ofList (pairs : List (String × α)) : Table α :=
  pairs.foldl (fun t e ↦ t.insert e.1 e.2) ∅

@[simp] theorem get?_empty (key : String) : (∅ : Table α).get? key = none := rfl

theorem get?_insert (t : Table α) (key other : String) (value : α) :
    (t.insert key value).get? other = if key = other then some value else t.get? other :=
  lookup_insertEntry t.sorted

theorem get?_erase (t : Table α) (key other : String) :
    (t.erase key).get? other = if key = other then none else t.get? other :=
  lookup_filter_ne t.entries

/-- A table is determined by its look-ups. -/
theorem ext_get? {s t : Table α} (h : ∀ key, s.get? key = t.get? key) : s = t := by
  obtain ⟨s, hs⟩ := s
  obtain ⟨t, ht⟩ := t
  obtain rfl := eq_of_lookup_eq hs ht h
  rfl

instance [DecidableEq α] : DecidableEq (Table α) := fun s t ↦
  if h : s.entries = t.entries then
    isTrue (by cases s; cases t; cases h; rfl)
  else isFalse fun he ↦ h (he ▸ rfl)

instance [Hashable α] : Hashable (Table α) := ⟨fun t ↦ hash t.entries⟩

instance [Repr α] : Repr (Table α) := ⟨fun t n ↦ reprPrec t.entries n⟩

end Table

/-- A finite set of ids. -/
abbrev IdSet := Table Unit

namespace IdSet

def ofIds (ids : List String) : IdSet := Table.ofList (ids.map fun id ↦ (id, ()))

def add (s : IdSet) (id : String) : IdSet := s.insert id ()

end IdSet

end PetriAlign
