import ShellAnalysis.Proofs.Tracking

/-!
# Files that a root reaches

A walk finds exactly the tracked files to which `source` commands lead from its
starts (`mem_walk`).

A prune leaves out entries, and with them links of the graph in which files are
reached.  A walk does not notice, as long as everything that it meets is kept
(`walkFrom_filter`), and what a reached file leads to is reached itself.  So a
walk from reached files stays the same list (`prune_walk`), and after a prune
the index holds exactly the files that some root reaches (`prune_exact`).  That
is so after a document was changed, too.

A close prunes before it reads the closed file again.  What the text of the
editor sourced stays tracked then, even if the file does not source it, so the
index is exact only if the file sources all of it (`closeDocument_exact`).
-/

namespace ShellAnalysis

namespace WorkspaceIndex

/-! ## Walks -/

/-- There is a way to the file from one of the starts along `next`, through tracked files only. -/
inductive Reaches (next : FileId → List FileId) (tracked starts : List FileId) : FileId → Prop
  | start {file : FileId} : file ∈ starts → file ∈ tracked → Reaches next tracked starts file
  | step {file target : FileId} : Reaches next tracked starts file → target ∈ next file →
      target ∈ tracked → Reaches next tracked starts target

section

variable {next next' : FileId → List FileId} {tracked tracked' starts : List FileId}
  {file : FileId}

theorem Reaches.mem (h : Reaches next tracked starts file) : file ∈ tracked := by
  cases h with
  | start _ htracked => exact htracked
  | step _ _ htracked => exact htracked

/-- A way stays a way if all files on ways from the starts stay tracked and keep their links. -/
theorem Reaches.mono (h : Reaches next tracked starts file)
    (htracked : ∀ {file}, Reaches next tracked starts file → file ∈ tracked')
    (hnext : ∀ {file}, Reaches next tracked starts file → next file ⊆ next' file) :
    Reaches next' tracked' starts file := by
  induction h with
  | start hstart hfile => exact .start hstart (htracked (.start hstart hfile))
  | step hfile htarget hin ih =>
    exact .step ih (hnext hfile htarget) (htracked (.step hfile htarget hin))

theorem not_reaches_nil : ¬Reaches next tracked [] file := by
  intro h
  induction h with
  | start h _ => cases h
  | step _ _ _ ih => exact ih

/-- Behind a first file that is tracked, ways need not come back to it. -/
theorem reaches_cons_of_mem {first : FileId} (hfirst : first ∈ tracked) :
    Reaches next tracked (first :: starts) file ↔
      file = first ∨ Reaches next (tracked.erase first) (starts ++ next first) file := by
  constructor
  · intro h
    induction h with
    | @start file hstart hin =>
      by_cases heq : file = first
      · exact .inl heq
      · have hstart := (List.mem_cons.1 hstart).resolve_left heq
        exact .inr (.start (List.mem_append_left _ hstart) ((List.mem_erase_of_ne heq).2 hin))
    | @step file target _ htarget hin ih =>
      by_cases heq : target = first
      · exact .inl heq
      · have hin := (List.mem_erase_of_ne heq).2 hin
        rcases ih with rfl | hway
        · exact .inr (.start (List.mem_append_right _ htarget) hin)
        · exact .inr (.step hway htarget hin)
  · rintro (rfl | h)
    · exact .start List.mem_cons_self hfirst
    · induction h with
      | start hstart hin =>
        have hin := List.mem_of_mem_erase hin
        rcases List.mem_append.1 hstart with hstart | hnext
        · exact .start (List.mem_cons_of_mem _ hstart) hin
        · exact .step (.start List.mem_cons_self hfirst) hnext hin
      | step _ htarget hin ih => exact .step ih htarget (List.mem_of_mem_erase hin)

/-- A first file that is not tracked leads nowhere. -/
theorem reaches_cons_of_not_mem {first : FileId} (hfirst : first ∉ tracked) :
    Reaches next tracked (first :: starts) file ↔ Reaches next tracked starts file := by
  constructor
  · intro h
    induction h with
    | start hstart hin =>
      rcases List.mem_cons.1 hstart with rfl | hstart
      · exact absurd hin hfirst
      · exact .start hstart hin
    | step _ htarget hin ih => exact .step ih htarget hin
  · intro h
    induction h with
    | start hstart hin => exact .start (List.mem_cons_of_mem _ hstart) hin
    | step _ htarget hin ih => exact .step ih htarget hin

theorem mem_walkFrom : file ∈ walkFrom next tracked starts ↔ Reaches next tracked starts file := by
  fun_induction walkFrom next tracked starts with
  | case1 => exact ⟨fun h => absurd h List.not_mem_nil, fun h => absurd h not_reaches_nil⟩
  | case2 tracked first queue hfirst ih => rw [List.mem_cons, ih, reaches_cons_of_mem hfirst]
  | case3 tracked first queue hfirst ih => rw [ih, reaches_cons_of_not_mem hfirst]

end

variable {index : WorkspaceIndex} {file : FileId}

theorem mem_walk {starts : List FileId} :
    file ∈ index.walk starts ↔ Reaches index.dependencies index.fileIds starts file := mem_walkFrom

theorem mem_reachable :
    file ∈ index.reachable ↔ Reaches index.dependencies index.fileIds index.roots file := mem_walk

/-- Only tracked files have links. -/
theorem mem_fileIds_of_mem_dependencies {target : FileId}
    (h : target ∈ index.dependencies file) : file ∈ index.fileIds := by
  unfold dependencies at h
  split at h
  · rename_i entry hentry
    exact OrderedMap.mem_keys_of_get? hentry
  · cases h

/-! ## Walks over fewer files -/

section

variable {next next' : FileId → List FileId} {tracked starts queue : List FileId}
  {keep : FileId → Bool} {file : FileId}

/-- A walk decides whether a file is reached. -/
instance : Decidable (Reaches next tracked starts file) := decidable_of_iff _ mem_walkFrom

/-- What reached files lead to is reached. -/
theorem Reaches.trans (h : Reaches next tracked queue file)
    (hqueue : ∀ start ∈ queue, start ∈ tracked → Reaches next tracked starts start) :
    Reaches next tracked starts file := by
  induction h with
  | start hstart hin => exact hqueue _ hstart hin
  | step _ htarget hin ih => exact .step ih htarget hin

/-- A walk that meets only files that are kept, with their links, does not notice that others are
left out. -/
theorem walkFrom_filter
    (h : ∀ file, Reaches next tracked queue file → keep file = true ∧ next' file = next file) :
    walkFrom next' (tracked.filter keep) queue = walkFrom next tracked queue := by
  fun_induction walkFrom next tracked queue with
  | case1 => rw [walkFrom]
  | case2 tracked first queue hfirst ih =>
    obtain ⟨hkeep, hnext⟩ := h first (.start List.mem_cons_self hfirst)
    have hrest := ih fun file hway => h file ((reaches_cons_of_mem hfirst).2 (.inr hway))
    rw [walkFrom, dif_pos (List.mem_filter.2 ⟨hfirst, hkeep⟩), List.erase_filter, hnext, hrest]
  | case3 tracked first queue hfirst ih =>
    have hrest := ih fun file hway => h file ((reaches_cons_of_not_mem hfirst).2 hway)
    rw [walkFrom, dif_neg fun hmem => hfirst (List.mem_filter.1 hmem).1, hrest]

end

/-! ## A prune of the index -/

theorem prune_index (index : WorkspaceIndex) :
    index.prune.1 = ⟨index.files.filterKeys index.reachable.contains, index.roots⟩ := rfl

theorem mem_prune_fileIds : file ∈ index.prune.1.fileIds ↔ file ∈ index.reachable := by
  rw [prune_index, fileIds, OrderedMap.keys_filterKeys, List.mem_filter, List.contains_iff_mem]
  exact ⟨And.right, fun hfile => ⟨(mem_reachable.1 hfile).mem, hfile⟩⟩

/-- A walk from reached files meets the same files in the same order after a prune. -/
theorem prune_walk {starts : List FileId}
    (hstarts : ∀ start ∈ starts, start ∈ index.fileIds → start ∈ index.reachable) :
    index.prune.1.walk starts = index.walk starts := by
  have hids : index.prune.1.fileIds = index.fileIds.filter index.reachable.contains :=
    OrderedMap.keys_filterKeys
  rw [walk, hids]
  refine walkFrom_filter fun file hway => ?_
  have hreached := hway.trans fun start hstart hin => mem_reachable.1 (hstarts start hstart hin)
  have hkept : index.reachable.contains file = true :=
    List.contains_iff_mem.2 (mem_reachable.2 hreached)
  exact ⟨hkept, dependencies_filterKeys.trans (if_pos hkept)⟩

theorem prune_reachable (index : WorkspaceIndex) : index.prune.1.reachable = index.reachable :=
  prune_walk fun _ hroot hin => mem_reachable.2 (.start hroot hin)

theorem prune_closure (h : file ∈ index.reachable) :
    index.prune.1.closure file = index.closure file :=
  prune_walk fun _ hstart _ => List.mem_singleton.1 hstart ▸ h

/-- After a prune another one drops nothing. -/
theorem prune_prune (index : WorkspaceIndex) : index.prune.1.prune = (index.prune.1, []) := by
  have hstays : ∀ file ∈ index.prune.1.fileIds, index.prune.1.reachable.contains file = true := by
    intro file hfile
    rw [prune_reachable, List.contains_iff_mem]
    exact mem_prune_fileIds.1 hfile
  refine Prod.ext ?_ ?_
  · have hentries : index.prune.1.files.filterKeys index.prune.1.reachable.contains =
        index.prune.1.files := by
      rw [OrderedMap.filterKeys, List.filter_eq_self.2 fun entry hentry =>
        hstays entry.1 (List.mem_map_of_mem hentry)]
    rw [prune_index index.prune.1, hentries]
  · refine List.filter_eq_nil_iff.2 fun file hfile => ?_
    simpa using hstays file hfile

/-- A prune leaves the roots alone.  It keeps the entries of the files that some root reaches, in
their order, and gives back the other files in theirs.  The roots reach what they reached before, a
file that is kept has the closure that it had, and a second prune drops nothing. -/
theorem prune_keeps (index : WorkspaceIndex) :
    let pruned := index.prune.1
    pruned.files.entries = index.files.entries.filter
        (fun entry => Reaches index.dependencies index.fileIds index.roots entry.1) ∧
      index.prune.2 = index.fileIds.filter
        (fun file => ¬Reaches index.dependencies index.fileIds index.roots file) ∧
      pruned.roots = index.roots ∧
      pruned.reachable = index.reachable ∧
      (∀ file ∈ pruned.fileIds, pruned.closure file = index.closure file) ∧
      pruned.prune = (pruned, []) := by
  intro pruned
  have hreached : ∀ file, index.reachable.contains file =
      decide (Reaches index.dependencies index.fileIds index.roots file) := by
    intro file
    rw [Bool.eq_iff_iff, List.contains_iff_mem, decide_eq_true_eq, mem_reachable]
  refine ⟨?_, ?_, rfl, prune_reachable index, fun file hfile => ?_, prune_prune index⟩
  · exact List.filter_congr fun entry _ => hreached entry.1
  · refine List.filter_congr fun file _ => ?_
    rw [hreached, decide_not]
  · exact prune_closure (mem_prune_fileIds.1 hfile)

/-! ## Exact indexes -/

/-- Every tracked file is reached from some root, and nothing else is. -/
def Exact (index : WorkspaceIndex) : Prop := ∀ file, file ∈ index.fileIds ↔ file ∈ index.reachable

theorem exact_of_reachable (h : ∀ file ∈ index.fileIds, file ∈ index.reachable) : index.Exact :=
  fun file => ⟨h file, fun hfile => (mem_reachable.1 hfile).mem⟩

theorem prune_exact (index : WorkspaceIndex) : index.prune.1.Exact := by
  intro file
  rw [prune_reachable]
  exact mem_prune_fileIds

end WorkspaceIndex

namespace Workspace

open WorkspaceIndex

variable {ws : Workspace} {fs : FileSystem} {file : FileId}

/-! ## After an update -/

theorem updateDocument_exact (ws : Workspace) (fs : FileSystem) (path : Path) (text : String) :
    (ws.updateDocument fs path text).1.index.Exact := prune_exact _

/-! ## After a close -/

/-- A tracked file is replaced by a version that sources at least the same files. -/
theorem setFile_exact {script : Script} (h : ws.index.Exact)
    (hfile : (ws.setFile fs script).2 ∈ ws.index.fileIds)
    (hsources : ws.index.dependencies (ws.setFile fs script).2 ⊆
      (ws.setFile fs script).1.index.dependencies (ws.setFile fs script).2) :
    (ws.setFile fs script).1.index.Exact := by
  have hids : (ws.setFile fs script).1.index.fileIds = ws.index.fileIds := by
    rw [setFile_index, fileIds_insert, if_pos hfile]
  refine exact_of_reachable fun file htracked => mem_reachable.2 ?_
  rw [hids] at htracked ⊢
  -- The way from a root before is one after: the roots and the tracked files are the same.
  refine (mem_reachable.1 ((h file).1 htracked)).mono (fun hway => hway.mem) ?_
  intro file _
  by_cases heq : file = (ws.setFile fs script).2
  · rw [heq]
    exact hsources
  · rw [setFile_index, dependencies_insert, if_neg heq]
    exact List.Subset.refl _

/-- A close leaves exactly what the roots reach, if the closed file sources what was sourced by the
text that the editor had. -/
theorem closeDocument_exact {path : Path} (hws : ws.Consistent)
    (hlookup : ws.files.lookup? fs path = some file)
    (hcanonical : ∀ known, ws.files.path? file = some known →
      (fs.normalize known).same known = true)
    (hsources : (ws.release file).prune.index.dependencies file ⊆
      (ws.closeDocument fs path).1.index.dependencies file) :
    (ws.closeDocument fs path).1.index.Exact := by
  have hpruned : (ws.release file).prune.index.Exact := prune_exact (ws.release file).index
  have hnumbered : (ws.release file).prune.files.Numbered :=
    (((kept_consistent fs).release file hws).prune).numbered
  have hpath : (ws.release file).prune.files.path? file = ws.files.path? file := by
    rw [prune_files]
    rfl
  rw [closeDocument_known hlookup] at hsources ⊢
  split
  · rename_i htracked
    rw [if_pos htracked] at hsources
    have htracked := OrderedMap.contains_iff.1 htracked
    obtain heq | ⟨script, hscript, -, heq⟩ := reload_cases (ws.release file).prune fs file
    · rwa [heq]
    · rw [heq] at hsources ⊢
      have hid := setFile_known hnumbered hscript (hcanonical _ (hpath.symm.trans hscript))
      refine setFile_exact hpruned ?_ ?_
      · rw [hid]
        exact htracked
      · rw [hid]
        exact hsources
  · exact hpruned

end Workspace

end ShellAnalysis
