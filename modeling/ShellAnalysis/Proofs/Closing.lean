import ShellAnalysis.Proofs.Frames

/-!
# Closing a document

A close takes the root of a document away, prunes, and reads the file again if
some root still reaches it (`closeDocument_frame`).

Whether the document was ever opened is not asked.  It is enough that its path
has a number, and a path gets one when some script sources it.  So a close of a
file that no editor and no directory ever brought in is no failure: it leaves
the roots and what they reach, but drops the files that none of them reaches
and reads the file again (`run_close_unopened`).  Such a file is no root, since
`runRooted` lists all files that a run makes roots (`run_roots`).
-/

namespace ShellAnalysis

namespace Workspace

open WorkspaceIndex

variable {canonical : Path → Path} {ws : Workspace} {fs : FileSystem} {path : Path}
  {file other : FileId}

/-! ## What a close does -/

/-- Reading a file again changes no other file, and this one is tracked with what the disk holds, if
it changes. -/
theorem reload_agree (h : ws.Settled canonical) (hfs : Names canonical fs) (file : FileId) :
    (∀ other ≠ file, Agree ws (ws.reload fs file) other) ∧
      (Agree ws (ws.reload fs file) file ∨ (ws.reload fs file).ReadFromDisk fs file) := by
  obtain heq | ⟨script, hpath, hload, heq⟩ := reload_cases ws fs file
  · rw [heq]
    exact ⟨fun other _ => .refl ws other, .inl (.refl ws file)⟩
  · have hid : (ws.setFile fs script).2 = file := h.setFile_known hfs hpath
    rw [heq]
    exact ⟨fun other hother => setFile_agree (hid ▸ hother), .inr (h.setFile_read hfs hpath hload)⟩

theorem closeDocument_snd : (ws.closeDocument fs path).2 = (ws.files.lookup? fs path).isSome := by
  unfold closeDocument
  cases ws.files.lookup? fs path <;> rfl

theorem reload_roots : (ws.reload fs file).index.roots = ws.index.roots := by
  obtain heq | ⟨_, -, -, heq⟩ := reload_cases ws fs file <;> rw [heq]
  rfl

theorem closeDocument_roots (h : ws.files.lookup? fs path = some file) :
    (ws.closeDocument fs path).1.index.roots = (ws.release file).index.roots := by
  rw [closeDocument_known h]
  split
  · rw [reload_roots]
    rfl
  · rfl

theorem release_roots_subset (ws : Workspace) (file : FileId) :
    (ws.release file).index.roots ⊆ ws.index.roots := by
  unfold release
  split
  · exact List.Subset.refl _
  · exact List.filter_sublist.subset

/-- No close makes a root. -/
theorem closeDocument_roots_subset :
    (ws.closeDocument fs path).1.index.roots ⊆ ws.index.roots := by
  cases hlookup : ws.files.lookup? fs path with
  | none =>
    unfold closeDocument
    rw [hlookup]
    exact List.Subset.refl _
  | some file =>
    rw [closeDocument_roots hlookup]
    exact release_roots_subset ws file

theorem release_agree (ws : Workspace) (file other : FileId) : Agree ws (ws.release file) other := by
  unfold release
  split
  · exact .refl ws other
  · exact ⟨rfl, rfl, rfl⟩

/-- A close leaves the other files that roots reach, and forgets all that they do not reach; the
closed file is no root any more then, unless it came with a directory.  If some root reaches the
closed file, it stays as it is or is read again. -/
theorem closeDocument_frame (h : ws.Settled canonical) (hfs : Names canonical fs)
    (hlookup : ws.files.lookup? fs path = some file) :
    let closed := (ws.closeDocument fs path).1
    (∀ other ∉ (ws.release file).index.reachable, closed.Forgot other) ∧
      (∀ other ∈ (ws.release file).index.reachable, other ≠ file → Agree ws closed other) ∧
      (file ∈ (ws.release file).index.reachable →
        Agree ws closed file ∨ closed.ReadFromDisk fs file) := by
  intro closed
  have hreleased : (ws.release file).Settled canonical := (kept_settled hfs).release file h
  have hpruned : (ws.release file).prune.Settled canonical := (kept_settled hfs).prune hreleased
  have hdropped : ∀ other ∉ (ws.release file).index.reachable,
      (ws.release file).prune.Forgot other := fun _ => prune_forgot hreleased.consistent
  have hstays : ∀ other ∈ (ws.release file).index.reachable,
      Agree ws (ws.release file).prune other :=
    fun other hother => (release_agree ws file other).trans (prune_agree hother)
  have hclosed : closed = if file ∈ (ws.release file).index.reachable
      then (ws.release file).prune.reload fs file else (ws.release file).prune := by
    have htracked : (ws.release file).prune.index.contains file = true ↔
        file ∈ (ws.release file).index.reachable :=
      OrderedMap.contains_iff.trans mem_prune_fileIds
    simp only [← htracked]
    exact closeDocument_known hlookup
  obtain ⟨hothers, hfile⟩ := reload_agree hpruned hfs file
  rw [hclosed]
  split
  · rename_i hreached
    refine ⟨fun other hother => ?_, fun other hother hne => ?_, fun _ => ?_⟩
    · have hne : other ≠ file := fun heq => hother (heq ▸ hreached)
      exact (hdropped other hother).of_agree (hothers other hne)
    · exact (hstays other hother).trans (hothers other hne)
    · exact hfile.imp_left (hstays file hreached).trans
  · rename_i hlost
    exact ⟨hdropped, fun other hother _ => hstays other hother, fun hreached => absurd hreached hlost⟩

/-! ## Files that a run makes roots -/

/-- The files that an operation hands to an editor or takes from a directory. -/
def rooted (ws : Workspace) (fs : FileSystem) : Operation → List FileId
  | .openDocument path _ | .updateDocument path _ => [(ws.files.intern fs path).2]
  | .loadDirectory directory =>
    match ws.loadDirectory fs directory with
    | .ok (_, summary) => summary.loaded
    | .error _ => []
  | .closeDocument _ | .loadFile .. | .loadDependencies .. => []

/-- All files that a run hands to an editor or takes from a directory. -/
def runRooted (ws : Workspace) : List (FileSystem × Operation) → List FileId
  | [] => []
  | (fs, op) :: rest => ws.rooted fs op ++ (ws.perform fs op).runRooted rest

theorem setFiles_roots (ws : Workspace) (fs : FileSystem) (paths : List Path) :
    (ws.setFiles fs paths).1.index.roots = ws.index.roots := by
  induction paths generalizing ws with
  | nil => rfl
  | cons path rest ih =>
    unfold setFiles
    split
    · rename_i script _
      exact ih (ws.setFile fs script).1
    · exact ih ws

theorem loadAllDependencies_roots (ws : Workspace) (fs : FileSystem) (files : List FileId) :
    (ws.loadAllDependencies fs files).index.roots = ws.index.roots := by
  unfold loadAllDependencies
  induction files generalizing ws with
  | nil => rfl
  | cons file rest ih => exact (ih _).trans (loadDependencies_roots ws fs file)

theorem mem_openDocument_roots {text : String} :
    file ∈ (ws.openDocument fs path text).1.index.roots ↔
      file ∈ ws.index.roots ∨ file ∈ [(ws.files.intern fs path).2] := by
  have hroots : (ws.index.addRoot (ws.openDocument fs path text).2).roots =
      ([(ws.files.intern fs path).2].foldl .addRoot ws.index).roots := rfl
  rw [openDocument_roots, hroots, mem_foldl_addRoot]

theorem mem_loadDirectory_roots {directory : Path} {loaded : Workspace} {summary : LoadSummary}
    (h : ws.loadDirectory fs directory = .ok (loaded, summary)) :
    file ∈ loaded.index.roots ↔ file ∈ ws.index.roots ∨ file ∈ summary.loaded := by
  unfold loadDirectory at h
  split at h
  · rename_i paths _
    cases h
    have hroots : (((ws.setFiles fs paths).1.addRoots
        (ws.setFiles fs paths).2.loaded).loadAllDependencies fs
          (ws.setFiles fs paths).2.loaded).index.roots =
        ((ws.setFiles fs paths).2.loaded.foldl .addRoot (ws.setFiles fs paths).1.index).roots :=
      loadAllDependencies_roots _ _ _
    rw [hroots, mem_foldl_addRoot, setFiles_roots]
  · cases h

theorem loadFile_roots {loaded : Workspace} (h : ws.loadFile fs path = .ok (loaded, file)) :
    loaded.index.roots = ws.index.roots := by
  unfold loadFile at h
  split at h
  · cases h
    exact loadDependencies_roots _ _ _
  · cases h

/-- Only what an operation hands over becomes a root. -/
theorem perform_roots {op : Operation} (h : file ∈ (ws.perform fs op).index.roots) :
    file ∈ ws.index.roots ∨ file ∈ ws.rooted fs op := by
  cases op with
  | openDocument path text => exact mem_openDocument_roots.1 h
  | updateDocument path text => exact mem_openDocument_roots.1 h
  | closeDocument path => exact .inl (closeDocument_roots_subset h)
  | loadDirectory directory =>
    cases hloaded : ws.loadDirectory fs directory with
    | ok loaded =>
      simp only [perform, hloaded] at h
      simp only [rooted, hloaded]
      exact (mem_loadDirectory_roots hloaded).1 h
    | error error =>
      simp only [perform, hloaded] at h
      exact .inl h
  | loadFile options path =>
    cases hloaded : loadFile { ws with options } fs path with
    | ok loaded =>
      simp only [perform, hloaded] at h
      have hroots := loadFile_roots hloaded
      exact .inl (hroots ▸ h)
    | error error =>
      simp only [perform, hloaded] at h
      exact .inl h
  | loadDependencies options start =>
    have hroots := loadDependencies_roots { ws with options } fs start
    exact .inl (hroots ▸ h)

/-- A file that a run hands to no editor and takes from no directory is no root after it. -/
theorem run_roots {steps : List (FileSystem × Operation)} (hroot : file ∈ (ws.run steps).index.roots) :
    file ∈ ws.index.roots ∨ file ∈ ws.runRooted steps := by
  induction steps generalizing ws with
  | nil => exact .inl hroot
  | cons step rest ih =>
    obtain ⟨fs, op⟩ := step
    rw [runRooted, List.mem_append, ← or_assoc]
    exact (ih hroot).imp_left perform_roots

/-! ## Closing what was never opened -/

theorem run_reached {steps : List (FileSystem × Operation)} (h : Reached canonical ws)
    (hsteps : ∀ step ∈ steps, Names canonical step.1) : Reached canonical (ws.run steps) := by
  induction steps generalizing ws with
  | nil => exact h
  | cons step rest ih =>
    have hstep := Reached.perform step.2 h (hsteps step List.mem_cons_self)
    exact ih hstep fun step hmem => hsteps step (List.mem_cons_of_mem _ hmem)

/-- A file that is no root has nothing to give up. -/
theorem release_of_not_root (h : file ∉ ws.index.roots) : ws.release file = ws := by
  have hroots : ws.index.roots.filter (· ≠ file) = ws.index.roots :=
    List.filter_eq_self.2 fun root hroot => by
      rw [decide_eq_true_eq]
      exact fun heq => h (heq ▸ hroot)
  unfold release removeRoot
  rw [hroots, ite_self]

/-- After any run, a close of a file that was never opened and came with no directory answers true
if the path has a number.  The roots stay, and so does what is known of the other files that they
reach.  Files that they do not reach are forgotten, the closed one like any other, and if they reach
the closed file it stays as it is or is read again. -/
theorem run_close_unopened {steps : List (FileSystem × Operation)} (options : LoadOptions)
    (hsteps : ∀ step ∈ steps, Names canonical step.1) (hfs : Names canonical fs)
    (hlookup : ((empty options).run steps).files.lookup? fs path = some file)
    (hnever : file ∉ (empty options).runRooted steps) :
    let ws := (empty options).run steps
    let closed := (ws.closeDocument fs path).1
    (ws.closeDocument fs path).2 = true ∧ closed.index.roots = ws.index.roots ∧
      (∀ other ∉ ws.index.reachable, closed.Forgot other) ∧
      (∀ other ∈ ws.index.reachable, other ≠ file → Agree ws closed other) ∧
      (file ∈ ws.index.reachable → Agree ws closed file ∨ closed.ReadFromDisk fs file) := by
  intro ws closed
  have hnot : file ∉ ws.index.roots := fun hroot =>
    (run_roots hroot).elim List.not_mem_nil hnever
  have hsettled := (run_reached (.empty options) hsteps).settled
  have hframe := closeDocument_frame hsettled hfs hlookup
  have hroots := closeDocument_roots hlookup
  rw [release_of_not_root hnot] at hframe hroots
  refine ⟨?_, hroots, hframe⟩
  rw [closeDocument_snd, hlookup]
  rfl

/-- Only `/a` was ever opened, and a close of `/b`, which it sources, answers true. -/
theorem smallWorkspace_close :
    let steps : List (FileSystem × Operation) := [(smallDisk, .openDocument ⟨"/a"⟩ "source b")]
    (empty { maxDepth := 0 }).run steps = smallWorkspace ∧
      1 ∉ (empty { maxDepth := 0 }).runRooted steps ∧
      (smallWorkspace.closeDocument smallDisk ⟨"/b"⟩).2 = true := by
  refine ⟨rfl, by decide, ?_⟩
  rw [closeDocument_snd, smallWorkspace_lookup?]
  rfl

end Workspace

end ShellAnalysis
