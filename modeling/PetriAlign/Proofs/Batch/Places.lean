import PetriAlign.Batch
import PetriAlign.Proofs.FileTree.Locality
import PetriAlign.Proofs.Text.Numeral

/-!
# Where the files of a trace are written

The paths of the files are names in the output directory. No two files of a log have the same name:
the number of the trace can be read off a name, and so can the kind of the file.
-/

namespace PetriAlign

/-! ## Paths of files in a directory -/

namespace Text

variable {α : Type} [DecidableEq α] {separator : α}

theorem pieces_of_notMem {xs : List α} (h : separator ∉ xs) : pieces separator xs = [xs] := by
  induction xs with
  | nil => rfl
  | cons x xs ih =>
    rw [List.mem_cons, not_or] at h
    rw [pieces, if_neg (Ne.symm h.1), ih h.2]

theorem pieces_ne_nil (xs : List α) : pieces separator xs ≠ [] := by
  cases xs with
  | nil => exact List.cons_ne_nil [] []
  | cons x xs =>
    rw [pieces]
    split
    · exact List.cons_ne_nil _ _
    · split <;> exact List.cons_ne_nil _ _

theorem pieces_append_cons (xs ys : List α) :
    pieces separator (xs ++ separator :: ys) = pieces separator xs ++ pieces separator ys := by
  induction xs with
  | nil => exact if_pos rfl
  | cons x xs ih =>
    rw [List.cons_append, pieces, ih, pieces]
    split
    · rfl
    · cases h : pieces separator xs with
      | nil => exact absurd h (pieces_ne_nil xs)
      | cons piece others => rfl

end Text

namespace Batch

open FileTree (place LiesInDirectory)

variable {directory name : String} {t : FileTree}

/-- A name that a file can have. -/
structure IsFileName (name : String) : Prop where
  nonempty : name ≠ ""
  noSlash : '/' ∉ name.toList
  noNul : '\x00' ∉ name.toList
  notPoints : Path.isPoints name = false

/-- What stands before the last slash of the path of a file has the names of the directory. -/
theorem toList_join (hdirectory : directory ≠ "") (name : String) : ∃ above,
    (join directory name).toList = above ++ '/' :: name.toList ∧
    (Text.pieces '/' above).filter (!·.isEmpty) =
      (Text.pieces '/' directory.toList).filter (!·.isEmpty) ∧
    (above ++ ['/']).head? = directory.toList.head? := by
  have hne : directory.toList ≠ [] := fun h ↦ hdirectory (String.toList_eq_nil_iff.1 h)
  by_cases hclosed : directory.toList.getLast? = some '/'
  · obtain ⟨above, habove⟩ := List.getLast?_eq_some_iff.1 hclosed
    have hlist : (join directory name).toList = above ++ '/' :: name.toList := by
      rw [join, if_pos hclosed, String.toList_append, habove, List.append_assoc,
        List.singleton_append]
    have hpieces : (Text.pieces '/' above).filter (!·.isEmpty) =
        (Text.pieces '/' directory.toList).filter (!·.isEmpty) := by
      rw [habove, Text.pieces_append_cons, List.filter_append]
      exact (List.append_nil _).symm
    exact ⟨above, hlist, hpieces, by rw [habove]⟩
  · have hlist : (join directory name).toList = directory.toList ++ '/' :: name.toList := by
      rw [join, if_neg hclosed, String.toList_append, String.toList_append, List.append_assoc]
      rfl
    exact ⟨directory.toList, hlist, rfl, List.head?_append_of_ne_nil _ hne⟩

/-- The path of a file is read as the names of its directory and the name of the file. -/
theorem ofText_join (hdirectory : directory ≠ "") (hname : IsFileName name) :
    Path.ofText (join directory name) =
      ⟨(Path.ofText directory).rooted, name :: (Path.ofText directory).names, false⟩ := by
  obtain ⟨above, hlist, hpieces, hhead⟩ := toList_join hdirectory name
  have hne : name.toList ≠ [] := fun h ↦ hname.nonempty (String.toList_eq_nil_iff.1 h)
  have hrooted : (above ++ '/' :: name.toList).head? = directory.toList.head? := by
    rw [← hhead, List.append_cons]
    exact List.head?_append_of_ne_nil _ (List.concat_ne_nil _ _)
  have hnames : (Text.pieces '/' (above ++ '/' :: name.toList)).filter (!·.isEmpty) =
      (Text.pieces '/' directory.toList).filter (!·.isEmpty) ++ [name.toList] := by
    rw [Text.pieces_append_cons, Text.pieces_of_notMem hname.noSlash, List.filter_append, hpieces,
      List.filter_cons_of_pos (by simpa using hne), List.filter_nil]
  have hclosed : (above ++ '/' :: name.toList).getLast? ≠ some '/' := by
    rw [List.append_cons, List.getLast?_append_of_ne_nil _ hne]
    exact fun h ↦ hname.noSlash (List.mem_of_getLast? h)
  simp only [Path.ofText, hlist, hrooted, hnames, hclosed, List.map_append, List.map_singleton,
    String.ofList_toList, List.reverse_append, List.reverse_singleton, List.singleton_append,
    decide_false]

theorem hasNul_join (hdirectory : Path.hasNul directory = false) (hname : IsFileName name) :
    Path.hasNul (join directory name) = false := by
  have hnul := hname.noNul
  simp only [Path.hasNul, List.contains_eq_mem, decide_eq_false_iff_not] at hdirectory ⊢
  unfold join
  split <;> simp [hdirectory, hnul]

/-- A file lies in the output directory if that is there. -/
theorem liesInDirectory_join (hdirectory : t.isDirectory directory = true)
    (hname : IsFileName name) : LiesInDirectory t (join directory name) := by
  obtain ⟨p, l, hread, hl⟩ := FileTree.isDirectory_iff.1 hdirectory
  obtain ⟨hnul, hne, rfl⟩ := Path.of_read_eq_ok hread
  have hnonempty : join directory name ≠ "" := by
    intro hempty
    obtain ⟨above, hlist, -⟩ := toList_join hne name
    simp [hempty] at hlist
  have htarget : t.target (Path.ofText (join directory name)) = .ok (.named l name false) := by
    rw [FileTree.target_eq_named_iff, ofText_join hne hname]
    exact ⟨rfl, hname.notPoints, (Path.ofText directory).names, rfl, hl⟩
  exact ⟨hasNul_join hnul hname, hnonempty, l, name, htarget⟩

theorem place_join (hdirectory : directory ≠ "") (hname : IsFileName name) :
    place (join directory name) = (place directory).child name := by
  have hpoints := hname.notPoints
  simp only [Path.isPoints, Bool.or_eq_false_iff, decide_eq_false_iff_not] at hpoints
  rw [place, ofText_join hdirectory hname]
  change (place directory).follow name = _
  rw [Location.follow, if_neg hpoints.1, if_neg hpoints.2]

theorem key_child (l : Location) (name : String) :
    (l.child name).key = l.key ++ "/" ++ name := rfl

/-- In one directory, different names are different places. -/
theorem eq_of_key_place_join {name' : String} (hdirectory : directory ≠ "")
    (hname : IsFileName name) (hname' : IsFileName name')
    (h : (place (join directory name)).key = (place (join directory name')).key) :
    name = name' := by
  rw [place_join hdirectory hname, place_join hdirectory hname', key_child, key_child] at h
  have hlist := congrArg String.toList h
  simp only [String.toList_append] at hlist
  exact String.toList_inj.1 (List.append_cancel_left hlist)

/-! ## Names of files -/

/-- The kinds of files of a trace: how their names begin and how they end. -/
def fileKinds : List (String × String) :=
  [("syncmodel", "pnml"), ("invariant", "txt"), ("syncmodel", "dot")]

/-- The name of a file of the trace with number `index`. -/
def fileName (index : Nat) (kind : String × String) : String :=
  kind.1 ++ "-" ++ Text.showNat index ++ "." ++ kind.2

theorem toList_fileName (index : Nat) (kind : String × String) : (fileName index kind).toList =
    kind.1.toList ++ '-' :: (Text.decimal index ++ '.' :: kind.2.toList) := by
  simp [fileName]

theorem isFileName_fileName (index : Nat) {kind : String × String} (h : kind ∈ fileKinds) :
    IsFileName (fileName index kind) := by
  have hslash : '/' ∉ Text.decimal index := Text.notMem_decimal index (by decide)
  have hnul : '\x00' ∉ Text.decimal index := Text.notMem_decimal index (by decide)
  have hparts : ∀ kind ∈ fileKinds, ('/' ∉ kind.1.toList ∧ '/' ∉ kind.2.toList) ∧
      '\x00' ∉ kind.1.toList ∧ '\x00' ∉ kind.2.toList := by decide
  obtain ⟨hslashes, hnuls⟩ := hparts kind h
  have hdash : '-' ∈ (fileName index kind).toList := by simp [toList_fileName]
  have hne : ∀ text : String, '-' ∉ text.toList → fileName index kind ≠ text := by
    rintro text htext rfl
    exact htext hdash
  have hpoints : Path.isPoints (fileName index kind) = false := by
    rw [Path.isPoints, Bool.or_eq_false_iff, decide_eq_false_iff_not, decide_eq_false_iff_not]
    exact ⟨hne "." (by decide), hne ".." (by decide)⟩
  have hnoSlash : '/' ∉ (fileName index kind).toList := by
    simp [toList_fileName, hslash, hslashes]
  have hnoNul : '\x00' ∉ (fileName index kind).toList := by
    simp [toList_fileName, hnul, hnuls]
  exact ⟨hne "" (by decide), hnoSlash, hnoNul, hpoints⟩

/-- The name of a file tells its kind and the number of its trace. -/
theorem fileName_inj {i j : Nat} {kind kind' : String × String} (h : kind ∈ fileKinds)
    (h' : kind' ∈ fileKinds) (heq : fileName i kind = fileName j kind') : i = j ∧ kind = kind' := by
  have hdash : ∀ kind ∈ fileKinds, '-' ∉ kind.1.toList := by decide
  rw [← String.toList_inj, toList_fileName, toList_fileName] at heq
  obtain ⟨hstem, hrest⟩ := Text.append_cons_inj (hdash kind h) (hdash kind' h') heq
  obtain ⟨hindex, hending⟩ := Text.append_cons_inj (Text.notMem_decimal i (by decide))
    (Text.notMem_decimal j (by decide)) hrest
  exact ⟨Text.decimal_injective hindex, Prod.ext (String.toList_inj.1 hstem)
    (String.toList_inj.1 hending)⟩

/-! ## Files of a trace -/

/-- The paths of the files that the trace with number `index` can have. -/
def tracePaths (outDir : String) (index : Nat) : List String :=
  let i := Text.showNat index
  ["syncmodel-" ++ i ++ ".pnml", "invariant-" ++ i ++ ".txt", "syncmodel-" ++ i ++ ".dot"].map
    (join outDir)

/-- The places of these files, by their keys. -/
def traceKeys (outDir : String) (index : Nat) : List String :=
  (tracePaths outDir index).map fun path ↦ (place path).key

/-- The files of a numbered trace, with what is written to them. -/
def filesOf (net : Net) (outDir : String) (config : Config) (trace : LabelTrace × Nat) :
    List (String × Bytes) :=
  let product := net.product trace.1
  contents (traceFiles outDir config trace.2 product) config product

theorem tracePaths_eq_map (outDir : String) (index : Nat) :
    tracePaths outDir index = fileKinds.map fun kind ↦ join outDir (fileName index kind) := by
  have hnames : fileKinds.map (fileName index) =
      ["syncmodel-" ++ Text.showNat index ++ ".pnml", "invariant-" ++ Text.showNat index ++ ".txt",
        "syncmodel-" ++ Text.showNat index ++ ".dot"] := by
    simp only [fileKinds, fileName, List.map_cons, List.map_nil, String.append_assoc]
    rfl
  rw [tracePaths, ← hnames, List.map_map]
  rfl

theorem traceKeys_eq_map (outDir : String) (index : Nat) : traceKeys outDir index =
    fileKinds.map fun kind ↦ (place (join outDir (fileName index kind))).key := by
  rw [traceKeys, tracePaths_eq_map, List.map_map]
  rfl

/-- The paths of the files that the trace with number `index` has. -/
def writtenPaths (outDir : String) (config : Config) (index : Nat) : List String :=
  if config.writeDot then tracePaths outDir index else (tracePaths outDir index).take 2

theorem map_fst_filesOf (net : Net) (outDir : String) (config : Config)
    (trace : LabelTrace × Nat) :
    (filesOf net outDir config trace).map (·.1) = writtenPaths outDir config trace.2 := by
  unfold filesOf contents traceFiles writtenPaths
  cases config.writeDot <;> rfl

theorem sublist_tracePaths (net : Net) (outDir : String) (config : Config)
    (trace : LabelTrace × Nat) :
    ((filesOf net outDir config trace).map (·.1)).Sublist (tracePaths outDir trace.2) := by
  rw [map_fst_filesOf, writtenPaths]
  split
  · exact .refl _
  · exact List.take_sublist 2 _

variable {outDir path : String} {index : Nat}

theorem liesInDirectory_of_mem (hdirectory : t.isDirectory outDir = true)
    (h : path ∈ tracePaths outDir index) : LiesInDirectory t path := by
  rw [tracePaths_eq_map] at h
  obtain ⟨kind, hkind, rfl⟩ := List.mem_map.1 h
  exact liesInDirectory_join hdirectory (isFileName_fileName index hkind)

/-- Different traces write to different places. -/
theorem eq_of_mem_traceKeys {i j : Nat} {key : String} (hdirectory : outDir ≠ "")
    (hi : key ∈ traceKeys outDir i) (hj : key ∈ traceKeys outDir j) : i = j := by
  rw [traceKeys_eq_map, List.mem_map] at hi hj
  obtain ⟨kind, hkind, rfl⟩ := hi
  obtain ⟨kind', hkind', heq⟩ := hj
  have hname := eq_of_key_place_join hdirectory (isFileName_fileName j hkind')
    (isFileName_fileName i hkind) heq
  exact (fileName_inj hkind' hkind hname).1.symm

theorem nodup_traceKeys (hdirectory : outDir ≠ "") (index : Nat) :
    (traceKeys outDir index).Nodup := by
  rw [traceKeys_eq_map]
  apply List.Nodup.map_on _ (by decide)
  intro kind hkind kind' hkind' heq
  have hname := eq_of_key_place_join hdirectory (isFileName_fileName index hkind)
    (isFileName_fileName index hkind') heq
  exact (fileName_inj hkind hkind' hname).2

section Files

variable {net : Net} {config : Config} {trace : LabelTrace × Nat} {file : String × Bytes}

/-- The files of a trace hold its product, its constraint and, if it is asked for, its drawing. -/
theorem mem_filesOf_iff : file ∈ filesOf net outDir config trace ↔
    file = (join outDir ("syncmodel-" ++ Text.showNat trace.2 ++ ".pnml"),
      Utf8.encode (Pnml.write (net.product trace.1).net)) ∨
    file = (join outDir ("invariant-" ++ Text.showNat trace.2 ++ ".txt"),
      Utf8.encode ((net.product trace.1).constraint.render config.constraint)) ∨
    config.writeDot = true ∧ file = (join outDir ("syncmodel-" ++ Text.showNat trace.2 ++ ".dot"),
      Utf8.encode ((net.product trace.1).net.dot none)) := by
  unfold filesOf contents traceFiles
  cases config.writeDot <;> simp

theorem liesInDirectory_of_mem_filesOf (hdirectory : t.isDirectory outDir = true)
    (h : file ∈ filesOf net outDir config trace) : LiesInDirectory t file.1 :=
  liesInDirectory_of_mem hdirectory
    ((sublist_tracePaths net outDir config trace).subset (List.mem_map_of_mem h))

theorem mem_traceKeys_of_mem_filesOf (h : file ∈ filesOf net outDir config trace) :
    (place file.1).key ∈ traceKeys outDir trace.2 :=
  List.mem_map_of_mem
    ((sublist_tracePaths net outDir config trace).subset (List.mem_map_of_mem h))

/-- The files of a trace lie elsewhere than those of a trace with another number. -/
theorem key_ne_of_mem_filesOf {key : String} (hdirectory : outDir ≠ "") (hindex : trace.2 ≠ index)
    (hkey : key ∈ traceKeys outDir index) :
    ∀ file ∈ filesOf net outDir config trace, (place file.1).key ≠ key := by
  rintro file hfile rfl
  exact hindex (eq_of_mem_traceKeys hdirectory (mem_traceKeys_of_mem_filesOf hfile) hkey)

theorem nodup_filesOf (hdirectory : outDir ≠ "") :
    ((filesOf net outDir config trace).map fun file ↦ (place file.1).key).Nodup := by
  have hsublist := (sublist_tracePaths net outDir config trace).map fun path ↦ (place path).key
  rw [List.map_map] at hsublist
  exact (nodup_traceKeys hdirectory trace.2).sublist hsublist

end Files

end Batch

end PetriAlign
