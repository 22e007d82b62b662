import PetriAlign.Proofs.Batch.Places

/-!
# The order of the traces

The traces of a log write to different places, and each looks at its own places alone. So they can
be worked on in any order: each trace has the outcome that it would have as the only one, and leaves
the same at its places.
-/

namespace PetriAlign.Batch

open FileTree (place)

variable {net : Net} {outDir : String} {config : Config} {t t' : FileTree}
  {trace : LabelTrace × Nat} {order order' : List (LabelTrace × Nat)} {key : String}

/-! ## One trace -/

theorem fst_writeTrace (net : Net) (outDir : String) (config : Config) (t : FileTree)
    (trace : LabelTrace × Nat) : (writeTrace net outDir config t trace).1 =
      ⟨trace.2, ((t.writeAll (filesOf net outDir config trace)).1.mapError .read).map fun _ ↦
        traceFiles outDir config trace.2 (net.product trace.1)⟩ := by
  rw [writeTrace, filesOf]

theorem snd_writeTrace (net : Net) (outDir : String) (config : Config) (t : FileTree)
    (trace : LabelTrace × Nat) : (writeTrace net outDir config t trace).2 =
      (t.writeAll (filesOf net outDir config trace)).2 := by
  rw [writeTrace, filesOf]

theorem sameDirectories_writeTrace (net : Net) (outDir : String) (config : Config) (t : FileTree)
    (trace : LabelTrace × Nat) : t.SameDirectories (writeTrace net outDir config t trace).2 := by
  rw [snd_writeTrace]
  exact FileTree.sameDirectories_writeAll t (filesOf net outDir config trace)

/-- A trace changes nothing but its files. -/
theorem get?_writeTrace_of_ne (hdirectory : t.isDirectory outDir = true)
    (hkey : ∀ file ∈ filesOf net outDir config trace, (place file.1).key ≠ key) :
    (writeTrace net outDir config t trace).2.get? key = t.get? key := by
  rw [snd_writeTrace]
  exact FileTree.get?_writeAll_of_ne
    (fun _ hfile ↦ liesInDirectory_of_mem_filesOf hdirectory hfile) hkey

/-- The outcome of a trace, and what it leaves at its places, depend on what stands there before. -/
theorem writeTrace_congr (net : Net) (config : Config) (hdirectory : t.isDirectory outDir = true)
    (hdirectory' : t'.isDirectory outDir = true)
    (hagree : ∀ key ∈ traceKeys outDir trace.2, t.get? key = t'.get? key) :
    (writeTrace net outDir config t trace).1 = (writeTrace net outDir config t' trace).1 ∧
      ∀ key ∈ traceKeys outDir trace.2, (writeTrace net outDir config t trace).2.get? key =
        (writeTrace net outDir config t' trace).2.get? key := by
  obtain ⟨hresult, hentries⟩ := FileTree.writeAll_congr
    (fun file hfile ↦ liesInDirectory_of_mem_filesOf hdirectory hfile)
    (fun file hfile ↦ liesInDirectory_of_mem_filesOf hdirectory' hfile)
    (fun file (hfile : file ∈ filesOf net outDir config trace) ↦
      mem_traceKeys_of_mem_filesOf hfile) hagree
  constructor
  · rw [fst_writeTrace, fst_writeTrace, hresult]
  · rw [snd_writeTrace, snd_writeTrace]
    exact hentries

/-- All files of a trace that did not fail are at their places. -/
theorem get?_of_writeTrace_ok {files : TraceFiles} (hdirectory : t.isDirectory outDir = true)
    (hne : outDir ≠ "") (h : (writeTrace net outDir config t trace).1.result = .ok files) :
    files = traceFiles outDir config trace.2 (net.product trace.1) ∧
      ∀ file ∈ filesOf net outDir config trace, t.moveTarget file.1 = .ok (place file.1) ∧
        (writeTrace net outDir config t trace).2.get? (place file.1).key =
          some (.file file.2) := by
  rw [fst_writeTrace] at h
  rw [snd_writeTrace]
  cases hwrite : t.writeAll (filesOf net outDir config trace) with
  | mk result t' =>
    rw [hwrite] at h
    cases result with
    | error fault => cases h
    | ok u =>
      refine ⟨(Except.ok.inj h).symm, ?_⟩
      exact FileTree.get?_of_writeAll_ok
        (fun file hfile ↦ liesInDirectory_of_mem_filesOf hdirectory hfile) (nodup_filesOf hne)
        hwrite

/-! ## All traces -/

theorem writeTraces_cons (net : Net) (outDir : String) (config : Config) (t : FileTree)
    (trace : LabelTrace × Nat) (rest : List (LabelTrace × Nat)) :
    writeTraces net outDir config (trace :: rest) t =
      ((writeTrace net outDir config t trace).1 ::
          (writeTraces net outDir config rest (writeTrace net outDir config t trace).2).1,
        (writeTraces net outDir config rest (writeTrace net outDir config t trace).2).2) := by
  rw [writeTraces]

theorem sameDirectories_writeTraces (net : Net) (outDir : String) (config : Config)
    (order : List (LabelTrace × Nat)) (t : FileTree) :
    t.SameDirectories (writeTraces net outDir config order t).2 := by
  induction order generalizing t with
  | nil => exact .refl t
  | cons trace rest ih =>
    rw [writeTraces_cons]
    exact (sameDirectories_writeTrace net outDir config t trace).trans (ih _)

theorem get?_writeTraces_of_ne (hdirectory : t.isDirectory outDir = true)
    (hkey : ∀ trace ∈ order, ∀ file ∈ filesOf net outDir config trace, (place file.1).key ≠ key) :
    (writeTraces net outDir config order t).2.get? key = t.get? key := by
  induction order generalizing t with
  | nil => rfl
  | cons trace rest ih =>
    rw [List.forall_mem_cons] at hkey
    have hdirectory' := FileTree.isDirectory_congr
      (sameDirectories_writeTrace net outDir config t trace) hdirectory
    rw [writeTraces_cons]
    exact (ih hdirectory' hkey.2).trans (get?_writeTrace_of_ne hdirectory hkey.1)

/-- In a run over numbered traces, every trace has the outcome of a run of its own and leaves the
same at its places. -/
theorem writeTraces_each (net : Net) (config : Config) (hdirectory : t.isDirectory outDir = true)
    (hne : outDir ≠ "") (hnodup : (order.map (·.2)).Nodup) :
    (writeTraces net outDir config order t).1 =
        order.map (fun trace ↦ (writeTrace net outDir config t trace).1) ∧
      ∀ trace ∈ order, ∀ key ∈ traceKeys outDir trace.2,
        (writeTraces net outDir config order t).2.get? key =
          (writeTrace net outDir config t trace).2.get? key := by
  induction order generalizing t with
  | nil => exact ⟨rfl, fun trace htrace ↦ absurd htrace List.not_mem_nil⟩
  | cons first rest ih =>
    rw [List.map_cons, List.nodup_cons] at hnodup
    have hdirectory' := FileTree.isDirectory_congr
      (sameDirectories_writeTrace net outDir config t first) hdirectory
    obtain ⟨houtcomes, hentries⟩ := ih hdirectory' hnodup.2
    -- the first trace leaves the places of the others alone
    have hothers : ∀ trace ∈ rest, ∀ key ∈ traceKeys outDir trace.2,
        (writeTrace net outDir config t first).2.get? key = t.get? key := by
      intro trace htrace key hkey
      have hindex : first.2 ≠ trace.2 :=
        fun heq ↦ hnodup.1 (heq ▸ List.mem_map_of_mem htrace)
      exact get?_writeTrace_of_ne hdirectory (key_ne_of_mem_filesOf hne hindex hkey)
    have hsame := fun trace htrace ↦
      writeTrace_congr net config hdirectory' hdirectory (hothers trace htrace)
    rw [writeTraces_cons]
    constructor
    · rw [houtcomes, List.map_cons, List.map_congr_left fun trace htrace ↦ (hsame trace htrace).1]
    · refine List.forall_mem_cons.2 ⟨fun key hkey ↦ ?_, fun trace htrace key hkey ↦ ?_⟩
      · apply get?_writeTraces_of_ne hdirectory'
        intro trace htrace
        have hindex : trace.2 ≠ first.2 :=
          fun heq ↦ hnodup.1 (heq ▸ List.mem_map_of_mem htrace)
        exact key_ne_of_mem_filesOf hne hindex hkey
      · exact (hentries trace htrace key hkey).trans ((hsame trace htrace).2 key hkey)

/-- The order of numbered traces does not matter. -/
theorem writeTraces_perm (net : Net) (config : Config) (hdirectory : t.isDirectory outDir = true)
    (hne : outDir ≠ "") (hnodup : (order.map (·.2)).Nodup) (hperm : order.Perm order') :
    (writeTraces net outDir config order t).1.Perm (writeTraces net outDir config order' t).1 ∧
      (writeTraces net outDir config order t).2 = (writeTraces net outDir config order' t).2 := by
  have hnodup' : (order'.map (·.2)).Nodup := (hperm.map _).nodup_iff.1 hnodup
  obtain ⟨houtcomes, hentries⟩ := writeTraces_each net config hdirectory hne hnodup
  obtain ⟨houtcomes', hentries'⟩ := writeTraces_each net config hdirectory hne hnodup'
  constructor
  · rw [houtcomes, houtcomes']
    exact hperm.map _
  · apply Table.ext_get?
    intro key
    by_cases hkey : ∃ trace ∈ order, key ∈ traceKeys outDir trace.2
    · obtain ⟨trace, htrace, hkey⟩ := hkey
      exact (hentries trace htrace key hkey).trans
        (hentries' trace (hperm.mem_iff.1 htrace) key hkey).symm
    · have hwritten : ∀ trace ∈ order, ∀ file ∈ filesOf net outDir config trace,
          (place file.1).key ≠ key := by
        rintro trace htrace file hfile rfl
        exact hkey ⟨trace, htrace, mem_traceKeys_of_mem_filesOf hfile⟩
      calc
        (writeTraces net outDir config order t).2.get? key = t.get? key :=
          get?_writeTraces_of_ne hdirectory hwritten
        _ = (writeTraces net outDir config order' t).2.get? key :=
          (get?_writeTraces_of_ne hdirectory fun trace htrace ↦
            hwritten trace (hperm.mem_iff.2 htrace)).symm

/-! ## A log -/

/-- Works on numbered traces in some order, and lists the outcomes by the numbers. -/
def writeInOrder (net : Net) (outDir : String) (config : Config)
    (order : List (LabelTrace × Nat)) (t : FileTree) : List TraceOutcome × FileTree :=
  let (outcomes, t) := writeTraces net outDir config order t
  (outcomes.mergeSort fun a b ↦ a.index ≤ b.index, t)

theorem mergeSort_eq_of_perm {outcomes outcomes' : List TraceOutcome}
    (hperm : outcomes.Perm outcomes') (hsorted : outcomes'.Pairwise (·.index < ·.index)) :
    (outcomes.mergeSort fun a b ↦ a.index ≤ b.index) = outcomes' := by
  have hmerge : (outcomes.mergeSort fun a b ↦ a.index ≤ b.index).Pairwise
      fun a b ↦ decide (a.index ≤ b.index) = true := by
    apply List.pairwise_mergeSort
    · intro a b c hab hbc
      rw [decide_eq_true_iff] at *
      exact Nat.le_trans hab hbc
    · intro a b
      rw [Bool.or_eq_true, decide_eq_true_iff, decide_eq_true_iff]
      exact Nat.le_total a.index b.index
  have hperm' := (List.mergeSort_perm outcomes fun a b ↦ a.index ≤ b.index).trans hperm
  have hnodup : (outcomes'.map (·.index)).Nodup :=
    (List.pairwise_map.2 hsorted).imp fun h ↦ Nat.ne_of_lt h
  apply hperm'.eq_of_pairwise _ hmerge (hsorted.imp fun h ↦ decide_eq_true (Nat.le_of_lt h))
  intro a b ha hb hab hba
  apply List.inj_on_of_nodup_map hnodup (hperm'.mem_iff.1 ha) hb
  exact Nat.le_antisymm (of_decide_eq_true hab) (of_decide_eq_true hba)

theorem index_writeTrace (net : Net) (outDir : String) (config : Config) (t : FileTree)
    (trace : LabelTrace × Nat) : (writeTrace net outDir config t trace).1.index = trace.2 := by
  rw [fst_writeTrace]

/-- The traces of a log have the numbers from zero on. -/
theorem nodup_zipIdx (traces : List LabelTrace) : (traces.zipIdx.map (·.2)).Nodup := by
  rw [List.zipIdx_map_snd]
  exact List.nodup_range'

/-- The outcomes of a log are those of its traces one by one. -/
theorem indices_writeTraces (net : Net) (config : Config)
    (hdirectory : t.isDirectory outDir = true) (hne : outDir ≠ "") (traces : List LabelTrace) :
    (writeTraces net outDir config traces.zipIdx t).1.map (·.index) =
      List.range traces.length := by
  rw [(writeTraces_each net config hdirectory hne (nodup_zipIdx traces)).1, List.map_map]
  calc
    traces.zipIdx.map _ = traces.zipIdx.map (·.2) :=
      List.map_congr_left fun trace _ ↦ index_writeTrace net outDir config t trace
    _ = List.range traces.length := by rw [List.zipIdx_map_snd, List.range_eq_range']

theorem writeInOrder_eq (net : Net) (config : Config)
    (hdirectory : t.isDirectory outDir = true) (hne : outDir ≠ "") {traces : List LabelTrace}
    (hperm : order.Perm traces.zipIdx) :
    writeInOrder net outDir config order t = writeTraces net outDir config traces.zipIdx t := by
  obtain ⟨houtcomes, htree⟩ := writeTraces_perm net config hdirectory hne
    ((hperm.map _).nodup_iff.2 (nodup_zipIdx traces)) hperm
  have hsorted : (writeTraces net outDir config traces.zipIdx t).1.Pairwise
      (·.index < ·.index) := by
    have hrange := List.pairwise_lt_range (n := traces.length)
    rw [← indices_writeTraces net config hdirectory hne traces] at hrange
    exact List.pairwise_map.1 hrange
  exact Prod.ext (mergeSort_eq_of_perm houtcomes hsorted) htree

/-- Each trace of a log has the outcome of a run of its own and leaves the same at its places. -/
theorem writeTraces_zipIdx (net : Net) (config : Config)
    (hdirectory : t.isDirectory outDir = true) (hne : outDir ≠ "") {traces : List LabelTrace}
    (htrace : trace ∈ traces.zipIdx) :
    (writeTraces net outDir config traces.zipIdx t).1[trace.2]? =
        some (writeTrace net outDir config t trace).1 ∧
      ∀ key ∈ traceKeys outDir trace.2,
        (writeTraces net outDir config traces.zipIdx t).2.get? key =
          (writeTrace net outDir config t trace).2.get? key := by
  obtain ⟨houtcomes, hentries⟩ := writeTraces_each net config hdirectory hne (nodup_zipIdx traces)
  refine ⟨?_, hentries trace htrace⟩
  have hget : traces.zipIdx[trace.2]? = some trace := by
    rw [List.getElem?_zipIdx, List.mem_zipIdx_iff_getElem?.1 htrace, Option.map_some, Nat.zero_add]
  rw [houtcomes, List.getElem?_map, hget, Option.map_some]

/-- A trace that two logs have at the same number has the same outcome in both, and leaves the same,
if the same stands at its places before. -/
theorem writeTraces_zipIdx_congr (net : Net) (config : Config)
    (hdirectory : t.isDirectory outDir = true) (hdirectory' : t'.isDirectory outDir = true)
    (hne : outDir ≠ "") {traces traces' : List LabelTrace} (htrace : trace ∈ traces.zipIdx)
    (htrace' : trace ∈ traces'.zipIdx)
    (hagree : ∀ key ∈ traceKeys outDir trace.2, t'.get? key = t.get? key) :
    (writeTraces net outDir config traces'.zipIdx t').1[trace.2]? =
        (writeTraces net outDir config traces.zipIdx t).1[trace.2]? ∧
      ∀ key ∈ traceKeys outDir trace.2,
        (writeTraces net outDir config traces'.zipIdx t').2.get? key =
          (writeTraces net outDir config traces.zipIdx t).2.get? key := by
  obtain ⟨houtcome, hentries⟩ := writeTraces_zipIdx net config hdirectory hne htrace
  obtain ⟨houtcome', hentries'⟩ := writeTraces_zipIdx net config hdirectory' hne htrace'
  obtain ⟨hsame, hleft⟩ := writeTrace_congr net config hdirectory' hdirectory hagree
  refine ⟨?_, fun key hkey ↦ ?_⟩
  · rw [houtcome, houtcome', hsame]
  · rw [hentries key hkey, hentries' key hkey, hleft key hkey]

/-- What is read behind the paths of a trace that did not fail. -/
theorem openFile_writeTraces (net : Net) (config : Config)
    (hdirectory : t.isDirectory outDir = true) (hne : outDir ≠ "") {traces : List LabelTrace}
    (htrace : trace ∈ traces.zipIdx) {files : TraceFiles}
    (hfiles : (writeTraces net outDir config traces.zipIdx t).1[trace.2]? =
      some ⟨trace.2, .ok files⟩) :
    files = traceFiles outDir config trace.2 (net.product trace.1) ∧
      ∀ file ∈ filesOf net outDir config trace,
        (writeTraces net outDir config traces.zipIdx t).2.openFile file.1 =
          .ok { bytes := file.2 } := by
  obtain ⟨houtcome, hentries⟩ := writeTraces_zipIdx net config hdirectory hne htrace
  rw [houtcome] at hfiles
  have hresult := congrArg TraceOutcome.result (Option.some.inj hfiles)
  obtain ⟨hpaths, hwritten⟩ := get?_of_writeTrace_ok hdirectory hne hresult
  refine ⟨hpaths, fun file hfile ↦ ?_⟩
  obtain ⟨hmove, hentry⟩ := hwritten file hfile
  rw [← hentries _ (mem_traceKeys_of_mem_filesOf hfile)] at hentry
  exact (liesInDirectory_of_mem_filesOf hdirectory hfile).openFile_eq hmove hentry
    (sameDirectories_writeTraces net outDir config traces.zipIdx t)

/-- The files of a trace that did not fail, and what they hold. -/
theorem files_of_writeTraces_ok (net : Net) (config : Config)
    (hdirectory : t.isDirectory outDir = true) (hne : outDir ≠ "") {traces : List LabelTrace}
    {labels : LabelTrace} {i : Nat} (htrace : (labels, i) ∈ traces.zipIdx) {files : TraceFiles}
    (hfiles : (writeTraces net outDir config traces.zipIdx t).1[i]? = some ⟨i, .ok files⟩) :
    let product := net.product labels
    let netPath := join outDir ("syncmodel-" ++ Text.showNat i ++ ".pnml")
    let constraintPath := join outDir ("invariant-" ++ Text.showNat i ++ ".txt")
    let dotPath := join outDir ("syncmodel-" ++ Text.showNat i ++ ".dot")
    let t' := (writeTraces net outDir config traces.zipIdx t).2
    files = ⟨netPath, constraintPath, if config.writeDot then some dotPath else none,
      product.net.statistics⟩ ∧
    t'.openFile netPath = .ok { bytes := Utf8.encode (Pnml.write product.net) } ∧
    t'.openFile constraintPath =
      .ok { bytes := Utf8.encode (product.constraint.render config.constraint) } ∧
    (config.writeDot = true →
      t'.openFile dotPath = .ok { bytes := Utf8.encode (product.net.dot none) }) := by
  obtain ⟨hpaths, hopen⟩ := openFile_writeTraces net config hdirectory hne htrace hfiles
  have hnet := hopen _ (mem_filesOf_iff.2 (.inl rfl))
  have hconstraint := hopen _ (mem_filesOf_iff.2 (.inr (.inl rfl)))
  have hdrawing (hdot : config.writeDot = true) :=
    hopen _ (mem_filesOf_iff.2 (.inr (.inr ⟨hdot, rfl⟩)))
  dsimp only at hnet hconstraint hdrawing
  exact ⟨hpaths, hnet, hconstraint, hdrawing⟩

theorem buildProducts_eq {model log : String} {traces : List LabelTrace}
    (hdirectory : t.isDirectory outDir = true) (hmodel : readModel t model config = .ok net)
    (hlog : readLog t log = .ok traces) : buildProducts t model log outDir config =
      (.ok (writeTraces net outDir config traces.zipIdx t).1,
        (writeTraces net outDir config traces.zipIdx t).2) := by
  rw [buildProducts, hdirectory, hmodel, hlog]
  rfl

/-- Without the directory, the model and the log nothing is written. With them, the traces are. -/
theorem buildProducts_cases (t : FileTree) (model log outDir : String) (config : Config) :
    (∃ e, buildProducts t model log outDir config = (.error e, t)) ∨
    ∃ net traces, t.isDirectory outDir = true ∧ readModel t model config = .ok net ∧
      readLog t log = .ok traces ∧ buildProducts t model log outDir config =
        (.ok (writeTraces net outDir config traces.zipIdx t).1,
          (writeTraces net outDir config traces.zipIdx t).2) := by
  cases hdirectory : t.isDirectory outDir with
  | false =>
    rw [buildProducts, hdirectory]
    exact .inl ⟨_, rfl⟩
  | true =>
    cases hmodel : readModel t model config with
    | error e =>
      rw [buildProducts, hdirectory, hmodel]
      exact .inl ⟨e, rfl⟩
    | ok net =>
      cases hlog : readLog t log with
      | error e =>
        rw [buildProducts, hdirectory, hmodel, hlog]
        exact .inl ⟨e, rfl⟩
      | ok traces =>
        exact .inr ⟨net, traces, rfl, rfl, rfl, buildProducts_eq hdirectory hmodel hlog⟩

/-- The products of a log are written in any order with the same outcomes and the same files. The
outcome of a trace and what it leaves at its places are those of any run with the same model, the
same trace and the same entries at these places. If it does not fail, its files hold the product,
the constraint and, if it is asked for, the drawing. Everything but these files is as it was. -/
theorem buildProducts_any_order (t : FileTree) (model log outDir : String) (config : Config) :
    (∃ e, buildProducts t model log outDir config = (.error e, t)) ∨
    ∃ net traces outcomes t',
      readModel t model config = .ok net ∧ readLog t log = .ok traces ∧
      buildProducts t model log outDir config = (.ok outcomes, t') ∧
      outcomes.map (·.index) = List.range traces.length ∧
      (∀ order : List (LabelTrace × Nat), order.Perm traces.zipIdx →
        writeInOrder net outDir config order t = (outcomes, t')) ∧
      (∀ trace ∈ traces.zipIdx, ∀ t₂ model₂ log₂ traces₂ outcomes₂ t₂',
        readModel t₂ model₂ config = .ok net → readLog t₂ log₂ = .ok traces₂ →
        buildProducts t₂ model₂ log₂ outDir config = (.ok outcomes₂, t₂') →
        trace ∈ traces₂.zipIdx → (∀ key ∈ traceKeys outDir trace.2, t₂.get? key = t.get? key) →
          outcomes₂[trace.2]? = outcomes[trace.2]? ∧
          ∀ key ∈ traceKeys outDir trace.2, t₂'.get? key = t'.get? key) ∧
      (∀ labels i, (labels, i) ∈ traces.zipIdx → ∀ files, outcomes[i]? = some ⟨i, .ok files⟩ →
        let product := net.product labels
        let netPath := join outDir ("syncmodel-" ++ Text.showNat i ++ ".pnml")
        let constraintPath := join outDir ("invariant-" ++ Text.showNat i ++ ".txt")
        let dotPath := join outDir ("syncmodel-" ++ Text.showNat i ++ ".dot")
        files = ⟨netPath, constraintPath, if config.writeDot then some dotPath else none,
          product.net.statistics⟩ ∧
        t'.openFile netPath = .ok { bytes := Utf8.encode (Pnml.write product.net) } ∧
        t'.openFile constraintPath =
          .ok { bytes := Utf8.encode (product.constraint.render config.constraint) } ∧
        (config.writeDot = true →
          t'.openFile dotPath = .ok { bytes := Utf8.encode (product.net.dot none) })) ∧
      ∀ key, (∀ trace ∈ traces.zipIdx, ∀ path ∈ writtenPaths outDir config trace.2,
        (place path).key ≠ key) → t'.get? key = t.get? key := by
  rcases buildProducts_cases t model log outDir config with
    herror | ⟨net, traces, hdirectory, hmodel, hlog, hrun⟩
  · exact .inl herror
  obtain ⟨p, -, hread, -⟩ := FileTree.isDirectory_iff.1 hdirectory
  have hne := (Path.of_read_eq_ok hread).2.1
  refine .inr ⟨net, traces, _, _, hmodel, hlog, hrun,
    indices_writeTraces net config hdirectory hne traces,
    fun order hperm ↦ writeInOrder_eq net config hdirectory hne hperm, ?_, ?_, ?_⟩
  · intro trace htrace t₂ model₂ log₂ traces₂ outcomes₂ t₂' hmodel₂ hlog₂ hrun₂ htrace₂ hagree
    rcases buildProducts_cases t₂ model₂ log₂ outDir config with
      ⟨e, herror⟩ | ⟨net₂, others, hdirectory₂, hmodel₂', hlog₂', hrun₂'⟩
    · rw [herror] at hrun₂
      cases hrun₂
    · obtain rfl := Except.ok.inj (hmodel₂.symm.trans hmodel₂')
      obtain rfl := Except.ok.inj (hlog₂.symm.trans hlog₂')
      rw [hrun₂'] at hrun₂
      obtain ⟨houtcomes₂, htree₂⟩ := Prod.mk.inj hrun₂
      obtain rfl := Except.ok.inj houtcomes₂
      obtain rfl := htree₂
      exact writeTraces_zipIdx_congr net config hdirectory hdirectory₂ hne htrace htrace₂ hagree
  · intro labels i htrace files hfiles
    exact files_of_writeTraces_ok net config hdirectory hne htrace hfiles
  · intro key hkey
    apply get?_writeTraces_of_ne hdirectory
    intro trace htrace file hfile
    apply hkey trace htrace
    rw [← map_fst_filesOf net outDir config trace]
    exact List.mem_map_of_mem hfile

/-! ## A log whose first trace fails -/

/-- A model and a log of two traces, with an output directory where a directory stands in the way of
the first trace. -/
def blocked : FileTree :=
  let model := "<pnml><net><place id='p'/><finalmarkings><marking><place idref='p'>" ++
    "<text>1</text></place></marking></finalmarkings></net></pnml>"
  .ofList [("./m.pnml", .file (Utf8.encode model)), ("./l.csv", .file (Utf8.encode "a\nb\n")),
    ("./out", .directory), ("./out/invariant-0.txt", .directory)]

/-- The same with another first trace, and with nothing in its way. -/
def unblocked : FileTree :=
  (blocked.insert "./l.csv" (.file (Utf8.encode "c\nb\n"))).erase "./out/invariant-0.txt"

theorem exists_files_of_isOk {outcomes : List TraceOutcome} {i : Nat}
    (h : (outcomes.map fun o ↦ (o.index, o.result.isOk))[i]? = some (i, true)) :
    ∃ files, outcomes[i]? = some ⟨i, .ok files⟩ := by
  rw [List.getElem?_map] at h
  obtain ⟨⟨index, result⟩, hget, heq⟩ := Option.map_eq_some_iff.1 h
  obtain ⟨rfl, hok⟩ := Prod.mk.inj heq
  cases result with
  | error e => cases hok
  | ok files => exact ⟨files, hget⟩

/-- The second trace is written, also if it comes first, and has the same outcome behind another
first trace. -/
theorem buildProducts_any_order_blocked :
    let config : Config := { constraint := ⟨true, true⟩, writeDot := true }
    ∃ net traces outcomes t', readModel blocked "m.pnml" config = .ok net ∧
      readLog blocked "l.csv" = .ok traces ∧
      buildProducts blocked "m.pnml" "l.csv" "out" config = (.ok outcomes, t') ∧
      writeInOrder net "out" config traces.zipIdx.reverse blocked = (outcomes, t') ∧
      outcomes.map (fun o ↦ (o.index, o.result.isOk)) = [(0, false), (1, true)] ∧
      (∃ outcomes₂ t₂', buildProducts unblocked "m.pnml" "l.csv" "out" config =
        (.ok outcomes₂, t₂') ∧ outcomes₂[1]? = outcomes[1]?) ∧
      t'.openFile "out/syncmodel-1.pnml" =
        .ok { bytes := Utf8.encode (Pnml.write (net.product ["b"]).net) } ∧
      t'.openFile "out/invariant-1.txt" = .ok { bytes := Utf8.encode "!(p==1 && logp1==1)" } ∧
      t'.openFile "out/syncmodel-1.dot" =
        .ok { bytes := Utf8.encode ((net.product ["b"]).net.dot none) } ∧
      t'.get? "./l.csv" = blocked.get? "./l.csv" := by
  intro config
  have hresults : (buildProducts blocked "m.pnml" "l.csv" "out" config).1.toOption.map
      (·.map fun o ↦ (o.index, o.result.isOk)) = some [(0, false), (1, true)] := by
    decide +kernel
  have hrender : (readModel blocked "m.pnml" config).toOption.map (fun net ↦
      (net.product ["b"]).constraint.render config.constraint) = some "!(p==1 && logp1==1)" := by
    decide +kernel
  have hlog : readLog blocked "l.csv" = .ok [["a"], ["b"]] :=
    eq_ok_of_toOption_eq_some (by decide +kernel)
  have hlog₂ : readLog unblocked "l.csv" = .ok [["c"], ["b"]] :=
    eq_ok_of_toOption_eq_some (by decide +kernel)
  have hmodels : readModel unblocked "m.pnml" config = readModel blocked "m.pnml" config := by
    have hopen : unblocked.openFile "m.pnml" = blocked.openFile "m.pnml" := by rfl
    rw [readModel, readModel, FileTree.readWith, hopen]
    rfl
  have hplaces : ∀ key ∈ traceKeys "out" 1, unblocked.get? key = blocked.get? key := by
    decide +kernel
  have helsewhere : ∀ i < 2, ∀ path ∈ writtenPaths "out" config i,
      (place path).key ≠ "./l.csv" := by
    decide +kernel
  have hnetPath : join "out" ("syncmodel-" ++ Text.showNat 1 ++ ".pnml") =
      "out/syncmodel-1.pnml" := by
    decide +kernel
  have hconstraintPath : join "out" ("invariant-" ++ Text.showNat 1 ++ ".txt") =
      "out/invariant-1.txt" := by
    decide +kernel
  have hdotPath : join "out" ("syncmodel-" ++ Text.showNat 1 ++ ".dot") =
      "out/syncmodel-1.dot" := by
    decide +kernel
  rcases buildProducts_any_order blocked "m.pnml" "l.csv" "out" config with
    ⟨e, herror⟩ |
    ⟨net, traces, outcomes, t', hmodel, htraces, hrun, -, horder, hsame, hfiles, helse⟩
  · rw [herror] at hresults
    cases hresults
  obtain rfl := Except.ok.inj (hlog.symm.trans htraces)
  rw [hrun] at hresults
  rw [hmodel] at hrender
  have houtcomes := Option.some.inj hresults
  obtain ⟨files, hsecond⟩ := exists_files_of_isOk (i := 1) (congrArg (·[1]?) houtcomes)
  obtain ⟨-, hnet, hconstraint, hdrawing⟩ := hfiles ["b"] 1 (by decide) files hsecond
  have hmodel₂ := hmodels.trans hmodel
  have hdirectory₂ : unblocked.isDirectory "out" = true := by decide
  have hrun₂ := buildProducts_eq hdirectory₂ hmodel₂ hlog₂
  refine ⟨net, _, outcomes, t', hmodel, hlog, hrun, horder _ (List.reverse_perm _), houtcomes,
    ⟨_, _, hrun₂, ?_⟩, ?_, ?_, ?_, ?_⟩
  · exact (hsame (["b"], 1) (by decide) _ _ _ _ _ _ hmodel₂ hlog₂ hrun₂ (by decide) hplaces).1
  · rw [← hnetPath]
    exact hnet
  · rw [← hconstraintPath, ← Option.some.inj hrender]
    exact hconstraint
  · rw [← hdotPath]
    exact hdrawing rfl
  · apply helse
    intro trace htrace
    exact helsewhere trace.2 (List.mem_zipIdx' htrace).1

end PetriAlign.Batch
