import PetriAlign.Batch
import PetriAlign.Proofs.FileTree.Replace

/-!
# Traces that fail

A trace whose files cannot all be written adds nothing to the file tree and changes no directory.
But the files that were moved before the failure are taken back by removing them, and with them goes
what earlier runs had left in their places.
-/

namespace PetriAlign.Batch

/-- What a trace leaves whose files cannot all be written: some of the files, from the first one on,
were moved and taken back. Nothing is left in their places, and everything else is as it was. So the
tree is the same exactly if these places were free. -/
theorem entries_of_failed_files {t t' : FileTree} {outDir : String} {config : Config} {index : Nat}
    {product : SyncProduct} {fault : ReadFault}
    (h : t.writeAll (contents (traceFiles outDir config index product) config product) =
      (.error fault, t')) :
    ∃ moved : List Location,
      moved.length < (contents (traceFiles outDir config index product) config product).length ∧
      ((contents (traceFiles outDir config index product) config product).take moved.length).mapM
        (fun file ↦ t.moveTarget file.1) = .ok moved ∧
      (∀ key, t'.get? key = if key ∈ moved.map (·.key) then none else t.get? key) ∧
      t.SameDirectories t' ∧ (t' = t ↔ ∀ l ∈ moved, t.get? l.key = none) := by
  obtain ⟨moved, hlength, hmoved, hentries⟩ := FileTree.error_writeAll h
  have hstands : ∀ l ∈ moved, t.get? l.key ≠ some .directory := by
    intro l hl
    obtain ⟨file, -, hfile⟩ := mem_mapM_eq_ok hmoved hl
    exact (FileTree.get?_ne_directory_of_moveTarget hfile).2
  refine ⟨moved, hlength, hmoved, hentries, fun key ↦ ?_, ?_, fun hfree ↦ ?_⟩
  · rw [hentries]
    split
    case isTrue hkey =>
      obtain ⟨l, hl, rfl⟩ := List.mem_map.1 hkey
      exact ⟨fun h ↦ absurd h (hstands l hl), nofun⟩
    case isFalse => exact Iff.rfl
  · rintro rfl l hl
    rw [hentries, if_pos (List.mem_map.2 ⟨l, hl, rfl⟩)]
  · apply Table.ext_get?
    intro key
    rw [hentries]
    split
    case isTrue hkey =>
      obtain ⟨l, hl, rfl⟩ := List.mem_map.1 hkey
      exact (hfree l hl).symm
    case isFalse => rfl

/-! ## A file of an earlier run -/

/-- A directory with a product of an earlier run, in which a directory stands where the constraint
of the first trace is to be written. -/
def earlierRun : FileTree :=
  .ofList [("./out", .directory), ("./out/syncmodel-0.pnml", .file [0x6F, 0x6C, 0x64]),
    ("./out/invariant-0.txt", .directory)]

/-- The files of an empty product as the first trace. -/
def firstFiles : List (String × Bytes) :=
  contents (traceFiles "out" {} 0 ⟨{}, ⟨[]⟩⟩) {} ⟨{}, ⟨[]⟩⟩

theorem writeAll_earlierRun : earlierRun.writeAll firstFiles = (.error .isDirectory,
    .ofList [("./out", .directory), ("./out/invariant-0.txt", .directory)]) := by
  have hresult : (earlierRun.writeAll firstFiles).1 = .error .isDirectory := by decide +kernel
  have htree : (earlierRun.writeAll firstFiles).2 =
      .ofList [("./out", .directory), ("./out/invariant-0.txt", .directory)] := by decide +kernel
  exact Prod.ext hresult htree

/-- The product of the earlier run was moved over and taken back. -/
theorem entries_of_failed_files_earlierRun :
    earlierRun.writeAll firstFiles = (.error .isDirectory,
      .ofList [("./out", .directory), ("./out/invariant-0.txt", .directory)]) ∧
    ∃ moved : List Location, moved.length < firstFiles.length ∧
      (firstFiles.take moved.length).mapM (fun file ↦ earlierRun.moveTarget file.1) = .ok moved ∧
      ∃ l ∈ moved, earlierRun.get? l.key ≠ none := by
  refine ⟨writeAll_earlierRun, ?_⟩
  obtain ⟨moved, hlength, hmoved, -, -, hsame⟩ := entries_of_failed_files writeAll_earlierRun
  refine ⟨moved, hlength, hmoved, ?_⟩
  by_contra! hfree
  exact absurd (hsame.2 hfree) (by decide +kernel)

/-- A failed trace does not leave the file tree as it was. -/
theorem not_forall_failed_files_unchanged :
    ¬ ∀ (t t' : FileTree) (outDir : String) (config : Config) (index : Nat) (product : SyncProduct)
      (fault : ReadFault),
      t.writeAll (contents (traceFiles outDir config index product) config product) =
        (.error fault, t') → t' = t := by
  intro h
  have hsame := h earlierRun _ "out" {} 0 ⟨{}, ⟨[]⟩⟩ .isDirectory writeAll_earlierRun
  exact absurd hsame (by decide +kernel)

end PetriAlign.Batch
