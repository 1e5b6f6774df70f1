import ShellAnalysis.Proofs.Loads
import ShellAnalysis.Workspace.Queries

/-!
# Numbers of link targets

A path has a number as soon as some script sources it, and keeps the number when
its file is dropped.  A link shows that number.  So every link of a tracked
script has one, whether its target is tracked or not, and the numbers are those
that the index lists for the script (`links_numbered`).  Whether a target is
tracked `fileId?` tells, which asks the index as well.
-/

namespace ShellAnalysis

namespace Workspace

variable {canonical : Path → Path} {ws : Workspace} {fs fs' : FileSystem} {file : FileId}
  {script : Script}

/-! ## Entries of tracked scripts -/

/-- On file systems that agree on canonical paths a script sources the same files. -/
theorem Indexed.names (h : ws.Indexed fs file script) (hfs : Names canonical fs)
    (hfs' : Names canonical fs') : ws.Indexed fs' file script := by
  obtain ⟨sources, hsources, hentry⟩ := h
  refine ⟨sources, ?_, hentry⟩
  rw [← hsources]
  refine List.map_congr_left fun target _ => ?_
  rw [FileTable.lookup?, FileTable.lookup?, hfs.normalize, hfs'.normalize]

/-- The entry of every tracked script is what the script gives. -/
def Filed (canonical : Path → Path) (ws : Workspace) : Prop :=
  ∀ {fs file script}, Names canonical fs → ws.documents.get? file = some script →
    ws.Indexed fs file script

theorem Filed.setFile (h : ws.Filed canonical) (hfs : Names canonical fs) :
    (ws.setFile fs script).1.Filed canonical := by
  intro fs' file known hfs' hknown
  rw [setFile_documents, OrderedMap.get?_insert] at hknown
  split at hknown
  · rename_i hfile
    cases hknown
    rw [hfile]
    exact (setFile_indexed ws fs script).names hfs hfs'
  · rename_i hother
    exact (h hfs' hknown).mono (setFile_paths ws fs script) (setFile_get? hother)

theorem Filed.prune (h : ws.Filed canonical) : ws.prune.Filed canonical := by
  intro fs file known hfs hknown
  rw [prune_documents, OrderedMap.get?_filterKeys] at hknown
  obtain ⟨hstays, hknown⟩ := Option.ite_none_right_eq_some.1 hknown
  have hpaths : ws.prune.files.paths = ws.files.paths := by rw [prune_files]
  refine (h hfs hknown).mono (hpaths ▸ List.prefix_rfl) ?_
  rw [prune_get?_files, if_neg (by simpa using hstays)]

theorem kept_filed (hfs : Names canonical fs) : Kept fs (Filed canonical) where
  setFile := fun h => h.setFile hfs
  prune := .prune
  relabel := fun _ _ _ h => h

theorem Reached.filed (h : Reached canonical ws) : ws.Filed canonical := by
  induction h with
  | empty options => exact fun _ hknown => nomatch hknown
  | perform op _ hfs ih => exact (kept_filed hfs).perform op ih
  | setFile script _ hfs ih => exact ih.setFile hfs
  | @intern ws fs path _ _ ih =>
    exact fun hfs hknown =>
      (ih hfs hknown).mono (FileTable.intern_extends ws.files fs path).paths rfl

/-! ## Links -/

theorem documentLinks_targets (fs : FileSystem) (files : FileTable) (script : Script) :
    (documentLinks fs files script).map (·.target) = script.targets := by
  unfold documentLinks Script.targets
  rw [List.map_filterMap]
  congr 1
  funext link
  cases link.target <;> rfl

theorem documentLinks_file {files : FileTable} {link : DocumentLink}
    (h : link ∈ documentLinks fs files script) : link.file = files.lookup? fs link.target := by
  obtain ⟨source, -, hlink⟩ := List.mem_filterMap.1 h
  obtain ⟨target, -, rfl⟩ := Option.map_eq_some_iff.1 hlink
  rfl

/-- The numbers that links show are those that their paths have. -/
theorem documentLinks_files (fs : FileSystem) (files : FileTable) (script : Script) :
    (documentLinks fs files script).map (·.file) = script.targets.map (files.lookup? fs) := by
  rw [← documentLinks_targets fs files script, List.map_map]
  exact List.map_congr_left fun link hlink => documentLinks_file hlink

/-- `fileId?` knows the target of a link by its number if it is tracked. -/
theorem links_fileId? {link : DocumentLink} (h : link ∈ ws.links fs file) :
    ws.fileId? fs link.target = link.file.filter ws.index.contains := by
  unfold links at h
  split at h
  · rw [documentLinks_file h, fileId?]
  · cases h

/-- Every link shows a number.  The numbers, but for that of the file itself, are what the index
lists for the file, and of these `fileId?` gives the tracked ones only. -/
theorem links_numbered (h : Reached canonical ws) (hfs : Names canonical fs) (file : FileId) :
    ∃ sources : List FileId,
      (ws.links fs file).map (·.file) = sources.map some ∧
      (ws.links fs file).map (fun link => ws.fileId? fs link.target) =
        sources.map (Option.guard ws.index.contains) ∧
      ws.index.dependencies file = (sources.filter (· ≠ file)).eraseDups := by
  have hshown : ∃ sources : List FileId, (ws.links fs file).map (·.file) = sources.map some ∧
      ws.index.dependencies file = (sources.filter (· ≠ file)).eraseDups := by
    unfold links
    split
    · rename_i script hscript
      obtain ⟨sources, hsources, hentry⟩ := h.filed hfs hscript
      refine ⟨sources, (documentLinks_files fs ws.files script).trans hsources, ?_⟩
      rw [WorkspaceIndex.dependencies, hentry]
    · rename_i hscript
      have huntracked : file ∉ ws.index.fileIds := by
        rw [← h.settled.consistent.documents_keys]
        exact OrderedMap.get?_eq_none.1 hscript
      refine ⟨[], rfl, List.eq_nil_iff_forall_not_mem.2 fun target htarget => huntracked ?_⟩
      exact WorkspaceIndex.mem_fileIds_of_mem_dependencies htarget
  obtain ⟨sources, hnumbers, hdependencies⟩ := hshown
  refine ⟨sources, hnumbers, ?_, hdependencies⟩
  calc (ws.links fs file).map (fun link => ws.fileId? fs link.target)
      = ((ws.links fs file).map (·.file)).map (Option.filter ws.index.contains) := by
        rw [List.map_map]
        exact List.map_congr_left fun _ hlink => links_fileId? hlink
    _ = sources.map (Option.guard ws.index.contains) := by
        rw [hnumbers, List.map_map]
        rfl

/-- The link to `/b` shows a number, and `/b` is not tracked. -/
theorem smallWorkspace_links :
    (smallWorkspace.links smallDisk 0).map (·.file) = [some 1] ∧
      1 ∉ smallWorkspace.index.fileIds := by
  have hlinks : smallWorkspace.links smallDisk 0 = documentLinks smallDisk smallWorkspace.files
      (.analyze smallDisk ⟨"/a"⟩ "source b") := rfl
  refine ⟨?_, by decide⟩
  rw [hlinks, documentLinks_files, smallDisk_targets _ (.inl rfl), List.map_singleton, smallWorkspace_lookup?]

end Workspace

end ShellAnalysis
