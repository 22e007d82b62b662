import PetriAlign.FileTree.Change
import PetriAlign.Proofs.Except

/-!
# Where paths lead

Which directories there are decides where a path leads: following names looks at nothing else in the
tree. So changes to files do not change where other files are written.
-/

namespace PetriAlign.FileTree

variable {t t' : FileTree} {l : Location} {name : String} {p : Path}

/-- The two trees have the same directories. -/
def SameDirectories (t t' : FileTree) : Prop :=
  ∀ key, t.get? key = some .directory ↔ t'.get? key = some .directory

theorem SameDirectories.refl (t : FileTree) : t.SameDirectories t := fun _ ↦ Iff.rfl

theorem SameDirectories.symm (h : t.SameDirectories t') : t'.SameDirectories t :=
  fun key ↦ (h key).symm

theorem SameDirectories.trans {t'' : FileTree} (h : t.SameDirectories t')
    (h' : t'.SameDirectories t'') : t.SameDirectories t'' :=
  fun key ↦ (h key).trans (h' key)

theorem entry?_child (t : FileTree) (l : Location) (name : String) :
    t.entry? (l.child name) = t.get? (l.child name).key :=
  if_neg (List.cons_ne_nil name l.names)

/-- Putting a file where no directory is keeps the directories. -/
theorem sameDirectories_put (h : t.get? l.key ≠ some .directory) (content : Bytes) :
    t.SameDirectories (t.put l (.file content)) := by
  intro key
  rw [put, Table.get?_insert]
  split
  case isTrue hkey =>
    subst hkey
    exact ⟨fun hdirectory ↦ absurd hdirectory h, fun hfile ↦ by cases hfile⟩
  case isFalse => exact Iff.rfl

theorem sameDirectories_remove (t : FileTree) (l : Location) : t.SameDirectories (t.remove l) := by
  intro key
  unfold remove
  split
  case h_1 content hentry =>
    rw [Table.get?_erase]
    split
    case isTrue hkey =>
      subst hkey
      unfold entry? at hentry
      split at hentry
      · cases hentry
      · rw [hentry]
        exact ⟨nofun, nofun⟩
    case isFalse => exact Iff.rfl
  case h_2 => exact Iff.rfl

/-! ## Following names -/

theorem enter_eq_ok_iff {l' : Location} : t.enter name l = .ok l' ↔
    (Path.isPoints name = false →
      name.utf8ByteSize ≤ 255 ∧ t.get? (l.child name).key = some .directory) ∧
    l.follow name = l' := by
  unfold enter
  cases hpoints : Path.isPoints name with
  | true =>
    rw [if_pos rfl]
    constructor
    · intro h
      exact ⟨nofun, Except.ok.inj h⟩
    · rintro ⟨-, rfl⟩
      rfl
  | false =>
    have hfollow : l.follow name = l.child name := by
      simp only [Path.isPoints, Bool.or_eq_false_iff, decide_eq_false_iff_not] at hpoints
      rw [Location.follow, if_neg hpoints.1, if_neg hpoints.2]
    rw [if_neg Bool.false_ne_true, find, entry?_child, hfollow]
    by_cases hlong : 255 < name.utf8ByteSize
    · rw [if_pos hlong]
      exact ⟨nofun, fun h ↦ absurd (h.1 rfl).1 (Nat.not_le.2 hlong)⟩
    · rw [if_neg hlong]
      have hshort : name.utf8ByteSize ≤ 255 := Nat.not_lt.1 hlong
      cases hentry : t.get? (l.child name).key with
      | none => exact ⟨nofun, fun h ↦ nomatch (h.1 rfl).2⟩
      | some e =>
        cases e with
        | file content => exact ⟨nofun, fun h ↦ nomatch (h.1 rfl).2⟩
        | directory => exact ⟨fun h ↦ ⟨fun _ ↦ ⟨hshort, rfl⟩, Except.ok.inj h⟩, fun h ↦ h.2 ▸ rfl⟩

/-- The directory that these names lead to, if all of them are directories. -/
def follow (start : Start) (names : List String) : Location :=
  names.foldr (fun name l ↦ l.follow name) ⟨start, []⟩

theorem eq_follow_of_enterAll {start : Start} {names : List String}
    (h : t.enterAll start names = .ok l) : l = follow start names := by
  unfold enterAll at h
  induction names generalizing l with
  | nil => exact (Except.ok.inj h).symm
  | cons name names ih =>
    rw [List.foldrM_cons, bind_eq_ok_iff] at h
    obtain ⟨l', hl', hname⟩ := h
    rw [follow, List.foldr_cons, ← follow, ← ih hl']
    exact (enter_eq_ok_iff.1 hname).2.symm

/-- Following names looks at directories alone. -/
theorem enterAll_congr (h : t.SameDirectories t') {start : Start} {names : List String}
    (hl : t.enterAll start names = .ok l) : t'.enterAll start names = .ok l := by
  unfold enterAll at hl ⊢
  induction names generalizing l with
  | nil => exact hl
  | cons name names ih =>
    rw [List.foldrM_cons, bind_eq_ok_iff] at hl ⊢
    obtain ⟨l', hl', hname⟩ := hl
    refine ⟨l', ih hl', ?_⟩
    rw [enter_eq_ok_iff] at hname ⊢
    refine ⟨fun hpoints ↦ ?_, hname.2⟩
    rw [← h]
    exact hname.1 hpoints

/-- One point leads nowhere else. -/
theorem enterAll_steps (t : FileTree) (start : Start) (names : List String) :
    t.enterAll start (names.filter (· ≠ ".")) = t.enterAll start names := by
  unfold enterAll
  induction names with
  | nil => rfl
  | cons name names ih =>
    rw [List.foldrM_cons, ← ih]
    by_cases hname : name = "."
    · subst hname
      rw [List.filter_cons_of_neg (by simp)]
      have henter : t.enter "." = fun l ↦ .ok l := by
        funext l
        rfl
      rw [henter]
      cases (names.filter (· ≠ ".")).foldrM t.enter ⟨start, []⟩ <;> rfl
    · rw [List.filter_cons_of_pos (by simpa using hname), List.foldrM_cons]

end PetriAlign.FileTree
