import PetriAlign.Proofs.FileTree.Directories

/-!
# Replacing a group of files

Staged files are moved one after the other. A move changes no directory, so each file is moved where
its path led before all of them. When a move fails, what was moved so far is removed: these places
are empty then, whatever stood there, and everything else is as it was.
-/

namespace PetriAlign.FileTree

variable {t t' : FileTree} {l : Location} {path : String}

/-! ## Where files are moved -/

theorem target_congr (h : t.SameDirectories t') {p : Path} {x : Target} (hx : t.target p = .ok x) :
    t'.target p = .ok x := by
  unfold target at hx ⊢
  split at hx
  case h_1 => exact hx
  case h_2 =>
    obtain ⟨l, hl, rfl⟩ := exists_of_map_eq_ok hx
    rw [enterAll_congr h hl]
    rfl

/-- A file is moved to a name in a directory unless a directory stands there. -/
theorem moveTarget_of_named {p : Path} (hnul : Path.hasNul path = false)
    (hread : Path.read path = .ok p) {directory : Location} {name : String} {closed : Bool}
    (htarget : t.target p = .ok (.named directory name closed)) :
    t.moveTarget path =
      if 255 < name.utf8ByteSize then .error .nameTooLong
      else if closed then .error .notDirectory
      else if t.get? (directory.child name).key = some .directory then .error .isDirectory
      else .ok (directory.child name) := by
  rw [moveTarget, hnul, if_neg Bool.false_ne_true, hread]
  change (t.target p >>= _) = _
  rw [htarget]
  change (t.find directory name >>= _) = _
  rw [find, entry?_child]
  split
  · rfl
  · change (if closed = true then _ else _) = _
    split
    · rfl
    · split <;> rfl

theorem moveTarget_eq_ok_iff : t.moveTarget path = .ok l ↔
    Path.hasNul path = false ∧ ∃ p, Path.read path = .ok p ∧ ∃ directory name,
      t.target p = .ok (.named directory name false) ∧ name.utf8ByteSize ≤ 255 ∧
      t.get? (directory.child name).key ≠ some .directory ∧ directory.child name = l := by
  constructor
  · intro h
    have hmove := h
    unfold moveTarget at h
    cases hnul : Path.hasNul path with
    | true =>
      rw [hnul] at h
      cases h
    | false =>
      rw [hnul, if_neg Bool.false_ne_true] at h
      obtain ⟨p, hread, h⟩ := bind_eq_ok_iff.1 h
      obtain ⟨x, htarget, h⟩ := bind_eq_ok_iff.1 h
      cases x with
      | present l => cases h
      | named directory name closed =>
        rw [moveTarget_of_named hnul hread htarget] at hmove
        split_ifs at hmove with hlong hclosed hstands
        obtain rfl : closed = false := eq_false_of_ne_true hclosed
        exact ⟨rfl, p, hread, directory, name, htarget, Nat.not_lt.1 hlong, hstands,
          Except.ok.inj hmove⟩
  · rintro ⟨hnul, p, hread, directory, name, htarget, hshort, hstands, rfl⟩
    rw [moveTarget_of_named hnul hread htarget, if_neg (Nat.not_lt.2 hshort),
      if_neg Bool.false_ne_true, if_neg hstands]

/-- Where a file is moved depends on directories alone. -/
theorem moveTarget_congr (h : t.SameDirectories t') (hl : t.moveTarget path = .ok l) :
    t'.moveTarget path = .ok l := by
  obtain ⟨hnul, p, hread, directory, name, htarget, hshort, hstands, rfl⟩ :=
    moveTarget_eq_ok_iff.1 hl
  refine moveTarget_eq_ok_iff.2 ⟨hnul, p, hread, directory, name, target_congr h htarget, hshort,
    ?_, rfl⟩
  rwa [Ne, ← h]

/-- No directory stands where a file is moved. -/
theorem get?_ne_directory_of_moveTarget (h : t.moveTarget path = .ok l) :
    l.names ≠ [] ∧ t.get? l.key ≠ some .directory := by
  obtain ⟨-, -, -, directory, name, -, -, hstands, rfl⟩ := moveTarget_eq_ok_iff.1 h
  exact ⟨List.cons_ne_nil name directory.names, hstands⟩

/-! ## Moving and taking back -/

theorem get?_remove (t : FileTree) (l : Location) (hl : l.names ≠ []) (key : String) :
    (t.remove l).get? key =
      if l.key = key ∧ t.get? key ≠ some .directory then none else t.get? key := by
  have hentry : t.entry? l = t.get? l.key := if_neg hl
  by_cases hkey : l.key = key
  · subst hkey
    unfold remove
    rw [hentry]
    cases h : t.get? l.key with
    | none => simp [h]
    | some e => cases e <;> simp [h, Table.get?_erase]
  · unfold remove
    split
    · rw [Table.get?_erase, if_neg hkey, if_neg fun h ↦ hkey h.1]
    · rw [if_neg fun h ↦ hkey h.1]

/-- Removing files leaves nothing at their places. -/
theorem get?_foldl_remove {moved : List Location} (hnames : ∀ l ∈ moved, l.names ≠ [])
    (hstands : ∀ l ∈ moved, t.get? l.key ≠ some .directory) (key : String) :
    (moved.foldl remove t).get? key = if key ∈ moved.map (·.key) then none else t.get? key := by
  induction moved generalizing t with
  | nil => rfl
  | cons l moved ih =>
    rw [List.forall_mem_cons] at hnames hstands
    have hrest : ∀ l' ∈ moved, (t.remove l).get? l'.key ≠ some .directory := by
      intro l' hl'
      rw [Ne, ← sameDirectories_remove t l]
      exact hstands.2 l' hl'
    rw [List.foldl_cons, ih hnames.2 hrest, get?_remove t l hnames.1, List.map_cons]
    by_cases hkey : l.key = key
    · subst hkey
      simp [hstands.1]
    · simp [hkey, Ne.symm hkey]

/-- What a failed group of moves leaves of the tree `t₀` that it began with. So far the files in
`done` were moved, which changed nothing else. -/
theorem error_persistAll {t₀ : FileTree} {done : List Location} {staged : List Staged}
    {fault : ReadFault} (hdirectories : t₀.SameDirectories t)
    (hdone : ∀ l ∈ done, l.names ≠ [] ∧ t₀.get? l.key ≠ some .directory)
    (hframe : ∀ key, key ∉ done.map (·.key) → t.get? key = t₀.get? key)
    (h : t.persistAll done staged = (.error fault, t')) :
    ∃ moved : List Location, moved.length < staged.length ∧
      (staged.take moved.length).mapM (fun s ↦ t₀.moveTarget s.path) = .ok moved ∧
      ∀ key, t'.get? key = if key ∈ (done ++ moved).map (·.key) then none else t₀.get? key := by
  induction staged generalizing t done with
  | nil => cases h
  | cons s rest ih =>
    rw [persistAll] at h
    cases hmove : t.moveTarget s.path with
    | ok l =>
      rw [hmove] at h
      have hl := moveTarget_congr hdirectories.symm hmove
      have hdone' : ∀ l' ∈ done ++ [l], l'.names ≠ [] ∧ t₀.get? l'.key ≠ some .directory :=
        List.forall_mem_append.2
          ⟨hdone, List.forall_mem_singleton.2 (get?_ne_directory_of_moveTarget hl)⟩
      have hput := sameDirectories_put (get?_ne_directory_of_moveTarget hmove).2 s.content
      have hframe' : ∀ key, key ∉ (done ++ [l]).map (·.key) →
          (t.put l (.file s.content)).get? key = t₀.get? key := by
        intro key hkey
        simp only [List.map_append, List.map_singleton, List.mem_append, List.mem_singleton,
          not_or] at hkey
        rw [put, Table.get?_insert, if_neg (Ne.symm hkey.2)]
        exact hframe key hkey.1
      obtain ⟨moved, hlength, hmoved, hentries⟩ := ih (hdirectories.trans hput) hdone' hframe' h
      refine ⟨l :: moved, Nat.succ_lt_succ hlength, ?_, ?_⟩
      · rw [List.length_cons, List.take_succ_cons, List.mapM_cons]
        exact bind_eq_ok_iff.2 ⟨l, hl, bind_eq_ok_iff.2 ⟨moved, hmoved, rfl⟩⟩
      · rwa [List.append_assoc] at hentries
    | error e =>
      rw [hmove] at h
      cases h
      refine ⟨[], Nat.succ_pos _, rfl, fun key ↦ ?_⟩
      have hstands : ∀ l ∈ done, t.get? l.key ≠ some .directory := by
        intro l hl
        rw [Ne, ← hdirectories]
        exact (hdone l hl).2
      rw [List.append_nil, get?_foldl_remove (fun l hl ↦ (hdone l hl).1) hstands]
      split
      · rfl
      case isFalse hkey => exact hframe key hkey

theorem staged_of_mapM {files : List (String × Bytes)} {staged : List Staged}
    (h : files.mapM (fun file ↦ t.stage file.1 file.2) = .ok staged) :
    staged = files.map fun file ↦ ⟨file.1, file.2⟩ := by
  apply eq_map_of_mapM h
  intro file s hs
  obtain ⟨l, -, rfl⟩ := exists_of_map_eq_ok hs
  rfl

/-- What a failed group of files leaves: some of the files, from the first one on, were moved and
taken back. Nothing is left at their places, and nothing else has changed. -/
theorem error_writeAll {files : List (String × Bytes)} {fault : ReadFault}
    (h : t.writeAll files = (.error fault, t')) :
    ∃ moved : List Location, moved.length < files.length ∧
      (files.take moved.length).mapM (fun file ↦ t.moveTarget file.1) = .ok moved ∧
      ∀ key, t'.get? key = if key ∈ moved.map (·.key) then none else t.get? key := by
  unfold writeAll at h
  split at h
  case h_1 fault' hstage =>
    cases h
    refine ⟨[], ?_, rfl, fun key ↦ rfl⟩
    cases files with
    | nil => cases hstage
    | cons file files => exact Nat.succ_pos _
  case h_2 staged hstage =>
    obtain rfl := staged_of_mapM hstage
    obtain ⟨moved, hlength, hmoved, hentries⟩ := error_persistAll (SameDirectories.refl t)
      (fun l hl ↦ absurd hl List.not_mem_nil) (fun key _ ↦ rfl) h
    rw [List.length_map] at hlength
    rw [← List.map_take, List.mapM_map] at hmoved
    exact ⟨moved, hlength, hmoved, hentries⟩

end PetriAlign.FileTree
