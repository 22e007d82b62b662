import Mathlib.Data.List.Basic
import Mathlib.Data.List.Induction
import Mathlib.Data.List.Nodup
import PetriAlign.Net.Firing

/-!
# Look-ups in markings

What the operations on markings do to the count of each place. A table that is filled from a list
holds the last pair of each key.
-/

namespace PetriAlign

namespace Table

variable {α : Type}

theorem lookup_eq_find? (key : String) (pairs : List (String × α)) :
    lookup key pairs = (pairs.find? (·.1 = key)).map (·.2) := by
  induction pairs with
  | nil => rfl
  | cons e pairs ih =>
    rw [lookup, ih]
    by_cases hkey : e.1 = key
    · rw [if_pos hkey, List.find?_cons_of_pos (by simpa using hkey)]
      rfl
    · rw [if_neg hkey, List.find?_cons_of_neg (by simpa using hkey)]

theorem lookup_eq_none_iff {key : String} {pairs : List (String × α)} :
    lookup key pairs = none ↔ key ∉ pairs.map (·.1) := by
  rw [lookup_eq_find?, Option.map_eq_none_iff, List.find?_eq_none, List.mem_map]
  simp only [decide_eq_true_eq, not_exists, not_and]

theorem lookup_eq_some_iff {pairs : List (String × α)} (h : (pairs.map (·.1)).Nodup)
    {key : String} {value : α} : lookup key pairs = some value ↔ (key, value) ∈ pairs := by
  induction pairs with
  | nil => simp [lookup]
  | cons e pairs ih =>
    obtain ⟨k, v⟩ := e
    obtain ⟨hk, hpairs⟩ := List.nodup_cons.1 h
    rw [lookup]
    split
    case isTrue heq =>
      subst heq
      have hnone : (k, value) ∉ pairs := fun hmem ↦ hk (List.mem_map.2 ⟨_, hmem, rfl⟩)
      simp [hnone, eq_comm]
    case isFalse hne =>
      rw [ih hpairs, List.mem_cons, Prod.mk.injEq]
      exact ⟨.inr, fun hmem ↦ hmem.resolve_left fun heq ↦ hne heq.1.symm⟩

/-- With distinct keys the order of the pairs does not matter. -/
theorem lookup_reverse {pairs : List (String × α)} (h : (pairs.map (·.1)).Nodup) (key : String) :
    lookup key pairs.reverse = lookup key pairs := by
  have hrev : (pairs.reverse.map (·.1)).Nodup := by
    rw [List.map_reverse]
    exact List.nodup_reverse.2 h
  apply Option.ext
  intro value
  rw [lookup_eq_some_iff hrev, lookup_eq_some_iff h, List.mem_reverse]

theorem nodup_keys (t : Table α) : (t.entries.map (·.1)).Nodup := by
  rw [List.Nodup, List.pairwise_map]
  apply t.sorted.imp
  intro a b hlt heq
  rw [heq] at hlt
  exact String.lt_irrefl _ hlt

theorem get?_ofList (pairs : List (String × α)) (key : String) :
    (ofList pairs).get? key = lookup key pairs.reverse := by
  induction pairs using List.reverseRecOn with
  | nil => rfl
  | append_singleton pairs e ih =>
    have hstep : ofList (pairs ++ [e]) = (ofList pairs).insert e.1 e.2 := by
      simp [ofList, List.foldl_append]
    rw [hstep, get?_insert, ih, List.reverse_append]
    rfl

theorem ofList_entries (t : Table α) : ofList t.entries = t := by
  apply ext_get?
  intro key
  rw [get?_ofList, lookup_reverse t.nodup_keys]
  rfl

end Table

namespace Marking

theorem count_insert (m : Marking) (place other : String) (n : UInt64) :
    count (m.insert place n) other = if place = other then n else m.count other := by
  unfold count
  rw [Table.get?_insert]
  split <;> rfl

/-- Counts on finitely many places can be chosen freely. -/
theorem exists_count_eq (places : List String) (f : String → UInt64) :
    ∃ m : Marking, ∀ p ∈ places, m.count p = f p := by
  induction places with
  | nil => exact ⟨∅, by simp⟩
  | cons q places ih =>
    obtain ⟨m, hm⟩ := ih
    refine ⟨m.insert q (f q), fun p hp ↦ ?_⟩
    rw [count_insert]
    split
    case isTrue heq => rw [heq]
    case isFalse hne => exact hm p ((List.mem_cons.1 hp).resolve_left (Ne.symm hne))

/-- The marking with the given counts put over its own, in the order of the records. -/
def overwrite (m : Marking) (records : List (String × UInt64)) : Marking :=
  records.foldl (fun m record ↦ m.insert record.1 record.2) m

variable {m : Marking} {p : String} {records : List (String × UInt64)}

theorem overwrite_cons (record : String × UInt64) :
    m.overwrite (record :: records) = overwrite (m.insert record.1 record.2) records := rfl

/-- A place that is not recorded keeps its count. -/
theorem count_overwrite_of_notMem (h : p ∉ records.map (·.1)) :
    (m.overwrite records).count p = m.count p := by
  induction records generalizing m with
  | nil => rfl
  | cons record records ih =>
    rw [List.map_cons, List.mem_cons, not_or] at h
    rw [overwrite_cons, ih h.2, count_insert, if_neg (Ne.symm h.1)]

/-- A place that is recorded once has the recorded count. -/
theorem count_overwrite_of_mem (hrecords : (records.map (·.1)).Nodup)
    {record : String × UInt64} (h : record ∈ records) :
    (m.overwrite records).count record.1 = record.2 := by
  induction records generalizing m with
  | nil => exact absurd h List.not_mem_nil
  | cons other records ih =>
    rw [List.map_cons, List.nodup_cons] at hrecords
    rw [overwrite_cons]
    rcases List.mem_cons.1 h with rfl | hmem
    · rw [count_overwrite_of_notMem hrecords.1, count_insert, if_pos rfl]
    · exact ih hrecords.2 hmem

end Marking

end PetriAlign
