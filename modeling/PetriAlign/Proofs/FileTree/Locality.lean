import PetriAlign.Proofs.FileTree.Replace

/-!
# What a group of files depends on

A group of files is replaced by looking at their places alone. If the paths lie in directories that
are there, then two trees with the same entries at the places of the files get the same result and
have the same entries at these places afterwards, and no other entry is changed.
-/

namespace PetriAlign

theorem Path.of_read_eq_ok {path : String} {p : Path} (h : Path.read path = .ok p) :
    Path.hasNul path = false ∧ path ≠ "" ∧ p = Path.ofText path := by
  unfold Path.read at h
  split_ifs at h with hnul hempty hlong
  exact ⟨eq_false_of_ne_true hnul, hempty, (Except.ok.inj h).symm⟩

namespace FileTree

variable {t t' : FileTree} {l : Location} {path : String}

theorem isDirectory_iff : t.isDirectory path = true ↔
    ∃ p l, Path.read path = .ok p ∧ t.directoryAt p = .ok l := by
  unfold isDirectory
  cases Path.read path with
  | error fault => exact ⟨nofun, fun ⟨p, l, h, _⟩ ↦ nomatch h⟩
  | ok p =>
    change (t.directoryAt p).isOk = true ↔ _
    cases hl : t.directoryAt p with
    | error fault => exact ⟨nofun, fun ⟨p', l, hp, h⟩ ↦ by cases hp; rw [hl] at h; cases h⟩
    | ok l => exact ⟨fun _ ↦ ⟨p, l, rfl, hl⟩, fun _ ↦ rfl⟩

/-- A directory is where the names of its path lead. -/
theorem isDirectory_congr (h : t.SameDirectories t') (hpath : t.isDirectory path = true) :
    t'.isDirectory path = true := by
  obtain ⟨p, l, hread, hl⟩ := isDirectory_iff.1 hpath
  exact isDirectory_iff.2 ⟨p, l, hread, enterAll_congr h hl⟩

/-! ## Places -/

/-- Where a path leads if the directories on it are there. -/
def place (path : String) : Location :=
  follow (.ofPath (Path.ofText path)) (Path.ofText path).names

theorem target_eq_named_iff {p : Path} {directory : Location} {name : String} {closed : Bool} :
    t.target p = .ok (.named directory name closed) ↔
      p.closed = closed ∧ Path.isPoints name = false ∧
        ∃ others, p.names = name :: others ∧ t.enterAll (.ofPath p) others = .ok directory := by
  unfold target
  constructor
  · intro h
    split at h
    case h_1 => cases h
    case h_2 last others hnames =>
      obtain ⟨l, hl, heq⟩ := exists_of_map_eq_ok h
      split at heq
      case isTrue => cases heq
      case isFalse hpoints =>
        cases heq
        exact ⟨rfl, eq_false_of_ne_true hpoints, others, hnames, hl⟩
  · rintro ⟨rfl, hpoints, others, hnames, hl⟩
    simp only [hnames, hl, hpoints]
    rfl

/-- The path is one of a file in a directory that is there. -/
structure LiesInDirectory (t : FileTree) (path : String) : Prop where
  noNul : Path.hasNul path = false
  nonempty : path ≠ ""
  exists_target : ∃ directory name,
    t.target (Path.ofText path) = .ok (.named directory name false)

namespace LiesInDirectory

theorem congr (h : t.SameDirectories t') (hpath : t.LiesInDirectory path) :
    t'.LiesInDirectory path := by
  obtain ⟨directory, name, htarget⟩ := hpath.exists_target
  exact ⟨hpath.noNul, hpath.nonempty, directory, name, target_congr h htarget⟩

/-- The directory of the path is there, and its place has a name in it. -/
theorem exists_child_eq_place (hpath : t.LiesInDirectory path) : ∃ directory name,
    t.target (Path.ofText path) = .ok (.named directory name false) ∧
      directory.child name = place path := by
  obtain ⟨directory, name, htarget⟩ := hpath.exists_target
  refine ⟨directory, name, htarget, ?_⟩
  obtain ⟨-, hpoints, others, hnames, hl⟩ := target_eq_named_iff.1 htarget
  simp only [Path.isPoints, Bool.or_eq_false_iff, decide_eq_false_iff_not] at hpoints
  calc
    directory.child name = directory.follow name := by
      rw [Location.follow, if_neg hpoints.1, if_neg hpoints.2]
    _ = (follow (.ofPath (Path.ofText path)) others).follow name := by
      rw [eq_follow_of_enterAll hl]
    _ = place path := by rw [place, hnames]; rfl

theorem names_ne_nil (hpath : t.LiesInDirectory path) : (place path).names ≠ [] := by
  obtain ⟨directory, name, -, hchild⟩ := hpath.exists_child_eq_place
  rw [← hchild]
  exact List.cons_ne_nil name directory.names

/-- A file can be staged in a directory that is there. -/
theorem stage_eq_ok (hpath : t.LiesInDirectory path) (content : Bytes) :
    t.stage path content = .ok ⟨path, content⟩ := by
  obtain ⟨directory, name, htarget⟩ := hpath.exists_target
  obtain ⟨-, hpoints, others, hnames, hl⟩ := target_eq_named_iff.1 htarget
  simp only [Path.isPoints, Bool.or_eq_false_iff, decide_eq_false_iff_not] at hpoints
  have hparent : (Path.ofText path).parent.names = others.filter (· ≠ ".") := by
    rw [Path.parent, Path.steps, hnames, List.filter_cons_of_pos (by simpa using hpoints.1),
      List.tail_cons]
  have hdirectory : t.directoryAt (Path.ofText path).parent = .ok directory := by
    rw [directoryAt, hparent, enterAll_steps]
    exact hl
  rw [stage, hdirectory]
  rfl

/-- A file in a directory is moved to its place unless the names are too long or a directory stands
there. -/
theorem moveTarget_eq (hpath : t.LiesInDirectory path) : t.moveTarget path =
    if 4096 ≤ path.utf8ByteSize ∨ 255 < ((place path).names.headD "").utf8ByteSize then
      .error .nameTooLong
    else if t.get? (place path).key = some .directory then .error .isDirectory
    else .ok (place path) := by
  obtain ⟨directory, name, htarget, hchild⟩ := hpath.exists_child_eq_place
  have hname : (place path).names.headD "" = name := by
    rw [← hchild]
    rfl
  rw [hname]
  by_cases hlong : 4096 ≤ path.utf8ByteSize
  · have hread : Path.read path = .error .nameTooLong := by
      rw [Path.read, hpath.noNul, if_neg Bool.false_ne_true, if_neg hpath.nonempty, if_pos hlong]
    rw [if_pos (.inl hlong), moveTarget, hpath.noNul, if_neg Bool.false_ne_true, hread]
    rfl
  · have hread : Path.read path = .ok (Path.ofText path) := by
      rw [Path.read, hpath.noNul, if_neg Bool.false_ne_true, if_neg hpath.nonempty, if_neg hlong]
    rw [moveTarget_of_named hpath.noNul hread htarget, if_neg Bool.false_ne_true, hchild]
    simp only [hlong, false_or]

theorem eq_place_of_moveTarget (hpath : t.LiesInDirectory path) (h : t.moveTarget path = .ok l) :
    l = place path := by
  rw [hpath.moveTarget_eq] at h
  split_ifs at h
  exact (Except.ok.inj h).symm

/-- What is read behind the path of a file is what stands at its place. -/
theorem openFile_eq (hpath : t.LiesInDirectory path) (hmove : t.moveTarget path = .ok l)
    {content : Bytes} (hentry : t'.get? (place path).key = some (.file content))
    (h : t.SameDirectories t') : t'.openFile path = .ok { bytes := content } := by
  obtain ⟨hnul, p, hread, directory, name, htarget, hshort, -, hl⟩ := moveTarget_eq_ok_iff.1 hmove
  rw [← hpath.eq_place_of_moveTarget hmove, ← hl] at hentry
  rw [openFile, hread]
  change (t'.target p >>= _) = _
  rw [target_congr h htarget]
  change (t'.find directory name >>= _) = _
  rw [find, if_neg (Nat.not_lt.2 hshort), entry?_child, hentry]
  rfl

end LiesInDirectory

/-! ## Directories stay -/

theorem sameDirectories_foldl_remove (t : FileTree) (moved : List Location) :
    t.SameDirectories (moved.foldl remove t) := by
  induction moved generalizing t with
  | nil => exact .refl t
  | cons l moved ih => exact (sameDirectories_remove t l).trans (ih (t.remove l))

theorem sameDirectories_persistAll (t : FileTree) (done : List Location) (staged : List Staged) :
    t.SameDirectories (t.persistAll done staged).2 := by
  induction staged generalizing t done with
  | nil => exact .refl t
  | cons s rest ih =>
    rw [persistAll]
    cases hmove : t.moveTarget s.path with
    | error fault => exact sameDirectories_foldl_remove t done
    | ok l =>
      have hput := sameDirectories_put (get?_ne_directory_of_moveTarget hmove).2 s.content
      exact hput.trans (ih _ _)

/-! ## Entries elsewhere stay -/

theorem get?_foldl_remove_of_ne {moved : List Location} {key : String}
    (h : ∀ l ∈ moved, l.names ≠ [] ∧ l.key ≠ key) :
    (moved.foldl remove t).get? key = t.get? key := by
  induction moved generalizing t with
  | nil => rfl
  | cons l moved ih =>
    rw [List.forall_mem_cons] at h
    rw [List.foldl_cons, ih h.2, get?_remove t l h.1.1, if_neg fun hkey ↦ h.1.2 hkey.1]

theorem get?_persistAll_of_ne {done : List Location} {staged : List Staged} {key : String}
    (hdone : ∀ l ∈ done, l.names ≠ [] ∧ l.key ≠ key)
    (hstaged : ∀ s ∈ staged, t.LiesInDirectory s.path ∧ (place s.path).key ≠ key) :
    (t.persistAll done staged).2.get? key = t.get? key := by
  induction staged generalizing t done with
  | nil => rfl
  | cons s rest ih =>
    rw [List.forall_mem_cons] at hstaged
    rw [persistAll]
    cases hmove : t.moveTarget s.path with
    | error fault => exact get?_foldl_remove_of_ne hdone
    | ok l =>
      have hput := sameDirectories_put (get?_ne_directory_of_moveTarget hmove).2 s.content
      obtain rfl := hstaged.1.1.eq_place_of_moveTarget hmove
      have hdone' : ∀ l ∈ done ++ [place s.path], l.names ≠ [] ∧ l.key ≠ key :=
        List.forall_mem_append.2
          ⟨hdone, List.forall_mem_singleton.2 ⟨hstaged.1.1.names_ne_nil, hstaged.1.2⟩⟩
      have hrest : ∀ s' ∈ rest,
          (t.put (place s.path) (.file s.content)).LiesInDirectory s'.path ∧
            (place s'.path).key ≠ key := by
        intro s' hs'
        exact ⟨(hstaged.2 s' hs').1.congr hput, (hstaged.2 s' hs').2⟩
      calc
        (persistAll _ (done ++ [place s.path]) rest).2.get? key =
            (t.put (place s.path) (.file s.content)).get? key := ih hdone' hrest
        _ = t.get? key := by rw [put, Table.get?_insert, if_neg hstaged.1.2]

/-! ## Entries at the places decide -/

theorem get?_foldl_remove_congr {moved : List Location} {key : String}
    (hnames : ∀ l ∈ moved, l.names ≠ []) (h : t.get? key = t'.get? key) :
    (moved.foldl remove t).get? key = (moved.foldl remove t').get? key := by
  induction moved generalizing t t' with
  | nil => exact h
  | cons l moved ih =>
    rw [List.forall_mem_cons] at hnames
    apply ih hnames.2
    rw [get?_remove t l hnames.1, get?_remove t' l hnames.1, h]

/-- Two trees with the same entries at some keys, to which the staged files go, keep the same
entries there. -/
theorem persistAll_congr {keys : List String} {done : List Location} {staged : List Staged}
    (hagree : ∀ key ∈ keys, t.get? key = t'.get? key) (hdone : ∀ l ∈ done, l.names ≠ [])
    (hstaged : ∀ s ∈ staged, t.LiesInDirectory s.path ∧ t'.LiesInDirectory s.path ∧
      (place s.path).key ∈ keys) :
    (t.persistAll done staged).1 = (t'.persistAll done staged).1 ∧
      ∀ key ∈ keys, (t.persistAll done staged).2.get? key =
        (t'.persistAll done staged).2.get? key := by
  induction staged generalizing t t' done with
  | nil => exact ⟨rfl, hagree⟩
  | cons s rest ih =>
    rw [List.forall_mem_cons] at hstaged
    obtain ⟨⟨hpath, hpath', hkey⟩, hrest⟩ := hstaged
    have hmove : t'.moveTarget s.path = t.moveTarget s.path := by
      rw [hpath'.moveTarget_eq, hpath.moveTarget_eq, hagree _ hkey]
    rw [persistAll, persistAll, hmove]
    cases htarget : t.moveTarget s.path with
    | error fault => exact ⟨rfl, fun key hk ↦ get?_foldl_remove_congr hdone (hagree key hk)⟩
    | ok l =>
      have hput := sameDirectories_put (get?_ne_directory_of_moveTarget htarget).2 s.content
      have hput' := sameDirectories_put
        (get?_ne_directory_of_moveTarget (hmove.trans htarget)).2 s.content
      obtain rfl := hpath.eq_place_of_moveTarget htarget
      apply ih
      · intro key hk
        rw [put, put, Table.get?_insert, Table.get?_insert, hagree key hk]
      · exact List.forall_mem_append.2
          ⟨hdone, List.forall_mem_singleton.2 hpath.names_ne_nil⟩
      · intro s' hs'
        obtain ⟨hl, hl', hkey'⟩ := hrest s' hs'
        exact ⟨hl.congr hput, hl'.congr hput', hkey'⟩

/-- What was moved before matters only when a move fails. -/
theorem persistAll_ok_of_done {done : List Location} (done' : List Location) {staged : List Staged}
    (h : t.persistAll done staged = (.ok (), t')) : t.persistAll done' staged = (.ok (), t') := by
  induction staged generalizing t done done' with
  | nil => exact h
  | cons s rest ih =>
    rw [persistAll] at h ⊢
    cases hmove : t.moveTarget s.path with
    | error fault =>
      rw [hmove] at h
      cases h
    | ok l =>
      rw [hmove] at h
      exact ih (done' ++ [l]) h

/-- After files were moved to different places, each of them is there. -/
theorem get?_of_persistAll_ok {done : List Location} {staged : List Staged}
    (hstaged : ∀ s ∈ staged, t.LiesInDirectory s.path)
    (hnodup : (staged.map fun s ↦ (place s.path).key).Nodup)
    (h : t.persistAll done staged = (.ok (), t')) :
    ∀ s ∈ staged, t.moveTarget s.path = .ok (place s.path) ∧
      t'.get? (place s.path).key = some (.file s.content) := by
  induction staged generalizing t done with
  | nil => exact fun s hs ↦ absurd hs List.not_mem_nil
  | cons s rest ih =>
    rw [List.forall_mem_cons] at hstaged
    rw [List.map_cons, List.nodup_cons] at hnodup
    rw [persistAll] at h
    cases hmove : t.moveTarget s.path with
    | error fault =>
      rw [hmove] at h
      cases h
    | ok l =>
      rw [hmove] at h
      have hput := sameDirectories_put (get?_ne_directory_of_moveTarget hmove).2 s.content
      obtain rfl := hstaged.1.eq_place_of_moveTarget hmove
      have hrest : ∀ s' ∈ rest,
          (t.put (place s.path) (.file s.content)).LiesInDirectory s'.path :=
        fun s' hs' ↦ (hstaged.2 s' hs').congr hput
      refine List.forall_mem_cons.2 ⟨⟨hmove, ?_⟩, fun s' hs' ↦ ?_⟩
      · -- the files that are moved later go to other places
        have hothers : ∀ s' ∈ rest, (place s'.path).key ≠ (place s.path).key :=
          fun s' hs' heq ↦ hnodup.1 (List.mem_map.2 ⟨s', hs', heq⟩)
        have hnone : ∀ l ∈ ([] : List Location), l.names ≠ [] ∧ l.key ≠ (place s.path).key :=
          fun l hl ↦ absurd hl List.not_mem_nil
        have hlater := get?_persistAll_of_ne hnone
          fun s' hs' ↦ ⟨hrest s' hs', hothers s' hs'⟩
        rw [persistAll_ok_of_done [] h] at hlater
        rw [hlater, put, Table.get?_insert, if_pos rfl]
      · obtain ⟨hmove', hentry⟩ := ih hrest hnodup.2 h s' hs'
        exact ⟨moveTarget_congr hput.symm hmove', hentry⟩

/-! ## Groups of files -/

section Group

variable {files : List (String × Bytes)}

/-- Files that lie in directories can all be staged. -/
theorem writeAll_eq_persistAll (hfiles : ∀ file ∈ files, t.LiesInDirectory file.1) :
    t.writeAll files = t.persistAll [] (files.map fun file ↦ ⟨file.1, file.2⟩) := by
  have hstaged : files.mapM (fun file ↦ t.stage file.1 file.2) =
      .ok (files.map fun file ↦ ⟨file.1, file.2⟩) :=
    mapM_eq_ok fun file hfile ↦ (hfiles file hfile).stage_eq_ok file.2
  rw [writeAll, hstaged]

theorem sameDirectories_writeAll (t : FileTree) (files : List (String × Bytes)) :
    t.SameDirectories (t.writeAll files).2 := by
  unfold writeAll
  split
  · exact .refl t
  · exact sameDirectories_persistAll t [] _

/-- Only entries at the places of the files are changed. -/
theorem get?_writeAll_of_ne (hfiles : ∀ file ∈ files, t.LiesInDirectory file.1) {key : String}
    (hkey : ∀ file ∈ files, (place file.1).key ≠ key) :
    (t.writeAll files).2.get? key = t.get? key := by
  rw [writeAll_eq_persistAll hfiles]
  apply get?_persistAll_of_ne (fun l hl ↦ absurd hl List.not_mem_nil)
  exact List.forall_mem_map.2 fun file hfile ↦ ⟨hfiles file hfile, hkey file hfile⟩

/-- The result, and what stands at the places afterwards, depend on what stands there before. -/
theorem writeAll_congr {keys : List String} (hfiles : ∀ file ∈ files, t.LiesInDirectory file.1)
    (hfiles' : ∀ file ∈ files, t'.LiesInDirectory file.1)
    (hkeys : ∀ file ∈ files, (place file.1).key ∈ keys)
    (hagree : ∀ key ∈ keys, t.get? key = t'.get? key) :
    (t.writeAll files).1 = (t'.writeAll files).1 ∧
      ∀ key ∈ keys, (t.writeAll files).2.get? key = (t'.writeAll files).2.get? key := by
  rw [writeAll_eq_persistAll hfiles, writeAll_eq_persistAll hfiles']
  apply persistAll_congr hagree (fun l hl ↦ absurd hl List.not_mem_nil)
  exact List.forall_mem_map.2 fun file hfile ↦
    ⟨hfiles file hfile, hfiles' file hfile, hkeys file hfile⟩

/-- If all files could be written, each of them is at its place. -/
theorem get?_of_writeAll_ok (hfiles : ∀ file ∈ files, t.LiesInDirectory file.1)
    (hnodup : (files.map fun file ↦ (place file.1).key).Nodup)
    (h : t.writeAll files = (.ok (), t')) :
    ∀ file ∈ files, t.moveTarget file.1 = .ok (place file.1) ∧
      t'.get? (place file.1).key = some (.file file.2) := by
  rw [writeAll_eq_persistAll hfiles] at h
  have hstaged := get?_of_persistAll_ok (List.forall_mem_map.2 hfiles) (by rwa [List.map_map]) h
  exact fun file hfile ↦ hstaged _ (List.mem_map.2 ⟨file, hfile, rfl⟩)

end Group

end FileTree

end PetriAlign
