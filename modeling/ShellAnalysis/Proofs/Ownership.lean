import ShellAnalysis.Proofs.Reachability

/-!
# Whose text a file shows

An editor owns the text of a file from the time it hands one over until it
closes the document.  `editorTexts` follows the texts through a run.  What the
workspace knows of the file comes from that text and not from the disk
(`run_shows`): walks along `source` commands leave roots alone, a prune keeps
them, and a close reads only the closed file again.

Two operations take a text back without a close.  They read files whether or not
a document is open: `loadFile`, and `loadDirectory` for the files below the
directory.
-/

namespace ShellAnalysis.Workspace

/-! ## Texts of the editor -/

/-- The texts that an editor owns after an operation, by file. -/
def editorTexts (ws : Workspace) (fs : FileSystem) (owned : FileId → Option String) :
    Operation → FileId → Option String
  | .openDocument path text, file | .updateDocument path text, file =>
    if file = (ws.files.intern fs path).2 then some text else owned file
  | .closeDocument path, file => if ws.files.lookup? fs path = some file then none else owned file
  | .loadDirectory directory, file =>
    match ws.loadDirectory fs directory with
    | .ok (_, summary) => if file ∈ summary.loaded then none else owned file
    | .error _ => owned file
  | .loadFile _ path, file => if file = (ws.files.intern fs path).2 then none else owned file
  | .loadDependencies .., file => owned file

/-- The workspace after a run and the texts that an editor owns then. -/
def runOwned (ws : Workspace) (owned : FileId → Option String) :
    List (FileSystem × Operation) → Workspace × (FileId → Option String)
  | [] => (ws, owned)
  | (fs, op) :: rest => (ws.perform fs op).runOwned (ws.editorTexts fs owned op) rest

theorem runOwned_workspace (ws : Workspace) (owned : FileId → Option String)
    (steps : List (FileSystem × Operation)) : (ws.runOwned owned steps).1 = ws.run steps := by
  induction steps generalizing ws owned with
  | nil => rfl
  | cons step rest ih => exact ih _ _

/-- All that is known of a file is what its text says, and the file is a root. -/
structure Shows (ws : Workspace) (file : FileId) (text : String) : Prop where
  contents : ws.files.text? file = some text
  document : ∃ script, ws.documents.get? file = some script ∧ script.text = text
  symbols : ws.index.symbols? file = some (.build (parse text).root text)
  root : ws.index.isRoot file = true

variable {ws : Workspace} {fs : FileSystem} {file : FileId} {text : String}

/-! ## Steps that leave a root alone -/

theorem Shows.setFile {script : Script} (h : ws.Shows file text)
    (hother : file ≠ (ws.setFile fs script).2) : (ws.setFile fs script).1.Shows file text := by
  refine ⟨?_, ?_, ?_, h.root⟩
  · rw [FileTable.text?, setFile_contents, OrderedMap.get?_insert, if_neg hother]
    exact h.contents
  · rw [setFile_documents, OrderedMap.get?_insert, if_neg hother]
    exact h.document
  · rw [setFile_index, WorkspaceIndex.symbols?_insert, if_neg hother]
    exact h.symbols

theorem Shows.tracked (h : ws.Shows file text) : file ∈ ws.index.fileIds := by
  obtain ⟨entry, hentry, -⟩ := Option.map_eq_some_iff.1 h.symbols
  exact OrderedMap.mem_keys_of_get? hentry

/-- A tracked root reaches itself. -/
theorem Shows.stays (h : ws.Shows file text) : ws.drops file = false := by
  rw [← Bool.not_eq_true, drops_iff]
  rintro ⟨-, hlost⟩
  have hroot : file ∈ ws.index.roots := List.contains_iff_mem.1 h.root
  exact hlost (WorkspaceIndex.mem_reachable.2 (.start hroot h.tracked))

theorem Shows.prune (h : ws.Shows file text) : ws.prune.Shows file text := by
  have hstays := h.stays
  refine ⟨?_, ?_, ?_, h.root⟩
  · rw [FileTable.text?, prune_files, OrderedMap.get?_filterKeys, hstays]
    exact h.contents
  · rw [prune_documents, OrderedMap.get?_filterKeys, hstays]
    exact h.document
  · rw [WorkspaceIndex.symbols?, prune_get?_files, hstays]
    exact h.symbols

theorem Shows.relabel {roots fromDirectories : List FileId} {options : LoadOptions}
    (h : ws.Shows file text) (hroot : file ∈ roots) :
    Shows { ws with index := { ws.index with roots }, fromDirectories, options } file text :=
  ⟨h.contents, h.document, h.symbols, List.contains_iff_mem.2 hroot⟩

theorem Shows.setOptions (h : ws.Shows file text) (options : LoadOptions) :
    Shows { ws with options } file text := by
  have hroot : file ∈ ws.index.roots := List.contains_iff_mem.1 h.root
  exact h.relabel hroot

theorem mem_foldl_addRoot {index : WorkspaceIndex} {files : List FileId} :
    file ∈ (files.foldl .addRoot index).roots ↔ file ∈ index.roots ∨ file ∈ files := by
  induction files generalizing index with
  | nil => simp
  | cons first rest ih =>
    rw [List.foldl_cons, ih, WorkspaceIndex.addRoot]
    split
    · rename_i hroot
      have hroot : first ∈ index.roots := List.contains_iff_mem.1 hroot
      simp only [List.mem_cons]
      refine ⟨fun h => h.imp_right .inr, ?_⟩
      rintro (h | rfl | h)
      · exact .inl h
      · exact .inl hroot
      · exact .inr h
    · simp only [List.mem_append, List.mem_cons, List.not_mem_nil, or_false, or_assoc]

theorem Shows.addRoots (h : ws.Shows file text) (files : List FileId) :
    (ws.addRoots files).Shows file text := by
  obtain ⟨roots, hroots⟩ := addRoots_index ws files
  have hmem : file ∈ (ws.addRoots files).index.roots :=
    mem_foldl_addRoot.2 (.inl (List.contains_iff_mem.1 h.root))
  have heq : ws.addRoots files = { ws with index := { ws.index with roots } } := by
    rw [← hroots]
    rfl
  rw [hroots] at hmem
  rw [heq]
  exact h.relabel hmem

/-! ## Canonical paths -/

/-- The maps agree, and every path that was met leads to itself. -/
structure Settled (canonical : Path → Path) (ws : Workspace) : Prop where
  consistent : ws.Consistent
  canonical : ∀ path ∈ ws.files.paths, (canonical path).same path = true

/-- A file system that names every file by one canonical path. -/
structure Names (canonical : Path → Path) (fs : FileSystem) : Prop where
  normalize : ∀ path, fs.normalize path = canonical path
  again : ∀ path, (canonical (canonical path)).same (canonical path) = true

variable {canonical : Path → Path}

theorem intern_canonical {table : FileTable} {path : Path} (hfs : Names canonical fs)
    (h : ∀ path ∈ table.paths, (canonical path).same path = true) :
    ∀ path' ∈ (table.intern fs path).1.paths, (canonical path').same path' = true := by
  unfold FileTable.intern
  simp only
  split
  · exact h
  · intro path' hpath
    rcases List.mem_append.1 hpath with hpath | hpath
    · exact h path' hpath
    · rw [List.mem_singleton.1 hpath, hfs.normalize]
      exact hfs.again path

theorem internAll_canonical {table : FileTable} {paths : List Path} (hfs : Names canonical fs)
    (h : ∀ path ∈ table.paths, (canonical path).same path = true) :
    ∀ path ∈ (table.internAll fs paths).1.paths, (canonical path).same path = true := by
  induction paths generalizing table with
  | nil => exact h
  | cons path rest ih => exact ih (intern_canonical hfs h)

theorem kept_settled (hfs : Names canonical fs) : Kept fs (Settled canonical) where
  setFile := fun h =>
    ⟨h.consistent.setFile, internAll_canonical hfs (intern_canonical hfs h.canonical)⟩
  prune := fun h => ⟨h.consistent.prune, by rw [prune_files]; exact h.canonical⟩
  relabel := fun roots fromDirectories options h =>
    ⟨(kept_consistent fs).relabel roots fromDirectories options h.consistent, h.canonical⟩

theorem Settled.setFile_known {script : Script} (h : ws.Settled canonical)
    (hfs : Names canonical fs) (hpath : ws.files.path? file = some script.path) :
    (ws.setFile fs script).2 = file := by
  refine Workspace.setFile_known h.consistent.numbered hpath ?_
  rw [hfs.normalize]
  exact h.canonical _ (List.mem_of_getElem? hpath)

/-! ## Operations -/

/-- Settled, and the file shows the text. -/
def Holds (canonical : Path → Path) (file : FileId) (text : String) (ws : Workspace) : Prop :=
  ws.Settled canonical ∧ ws.Shows file text

theorem Holds.setFile {script : Script} (h : ws.Holds canonical file text)
    (hfs : Names canonical fs) (hother : file ≠ (ws.setFile fs script).2) :
    (ws.setFile fs script).1.Holds canonical file text :=
  ⟨(kept_settled hfs).setFile h.1, h.2.setFile hother⟩

theorem Holds.addRoots (h : ws.Holds canonical file text) (hfs : Names canonical fs)
    (files : List FileId) : (ws.addRoots files).Holds canonical file text :=
  ⟨(kept_settled hfs).addRoots files h.1, h.2.addRoots files⟩

theorem Holds.prune (h : ws.Holds canonical file text) (hfs : Names canonical fs) :
    ws.prune.Holds canonical file text :=
  ⟨(kept_settled hfs).prune h.1, h.2.prune⟩

/-- A walk loads no roots, and a file that shows a text of the editor is one. -/
theorem Holds.loadDependencies (h : ws.Holds canonical file text) (hfs : Names canonical fs)
    (start : FileId) : (ws.loadDependencies fs start).1.Holds canonical file text := by
  refine follow_keeps (I := Holds canonical file text) ?_ _ start _ h
  intro ws target path script h hroot hpath hload
  obtain rfl := load_path hload
  refine h.setFile hfs fun heq => ?_
  have htarget := h.1.setFile_known hfs hpath
  rw [← heq] at htarget
  rw [← htarget, h.2.root] at hroot
  cases hroot

theorem openDocument_eq (path : Path) : (ws.openDocument fs path text).1 =
    (((ws.setFile fs (.analyze fs path text)).1.addRoots
      [(ws.files.intern fs path).2]).loadDependencies fs (ws.files.intern fs path).2).1 := rfl

/-- A root whose script was tracked just now shows its text. -/
theorem addRoots_setFile_shows (path : Path) :
    ((ws.setFile fs (.analyze fs path text)).1.addRoots [(ws.files.intern fs path).2]).Shows
      (ws.files.intern fs path).2 text := by
  have hid : (ws.setFile fs (.analyze fs path text)).2 = (ws.files.intern fs path).2 := setFile_id
  obtain ⟨roots, hroots⟩ := addRoots_index (ws.setFile fs (.analyze fs path text)).1
    [(ws.files.intern fs path).2]
  rw [← hid] at hroots ⊢
  refine ⟨?_, ⟨.analyze fs path text, ?_, rfl⟩, ?_, ?_⟩
  · rw [FileTable.text?, addRoots, setFile_contents, OrderedMap.get?_insert, if_pos rfl]
    rfl
  · rw [addRoots, setFile_documents, OrderedMap.get?_insert, if_pos rfl]
  · rw [hroots, WorkspaceIndex.symbols?, setFile_index]
    exact WorkspaceIndex.symbols?_insert.trans (if_pos rfl)
  · exact List.contains_iff_mem.2 (mem_foldl_addRoot.2 (.inr List.mem_cons_self))

/-- The text that was handed over last is shown. -/
theorem openDocument_holds {path : Path} (h : ws.Settled canonical) (hfs : Names canonical fs) :
    (ws.openDocument fs path text).1.Holds canonical (ws.files.intern fs path).2 text := by
  have hset : (ws.setFile fs (.analyze fs path text)).1.Settled canonical :=
    (kept_settled hfs).setFile h
  have hroots := (kept_settled hfs).addRoots [(ws.files.intern fs path).2] hset
  have hholds : Holds canonical _ text _ := ⟨hroots, addRoots_setFile_shows path⟩
  rw [openDocument_eq]
  exact hholds.loadDependencies hfs _

theorem Holds.openDocument {path : Path} {text' : String} (h : ws.Holds canonical file text)
    (hfs : Names canonical fs) (hother : file ≠ (ws.files.intern fs path).2) :
    (ws.openDocument fs path text').1.Holds canonical file text := by
  have hset : (ws.setFile fs (.analyze fs path text')).1.Holds canonical file text :=
    h.setFile hfs hother
  rw [openDocument_eq]
  exact (hset.addRoots hfs _).loadDependencies hfs _

theorem Holds.closeDocument {path : Path} (h : ws.Holds canonical file text)
    (hfs : Names canonical fs) (hother : ws.files.lookup? fs path ≠ some file) :
    (ws.closeDocument fs path).1.Holds canonical file text := by
  cases hlookup : ws.files.lookup? fs path with
  | none =>
    unfold Workspace.closeDocument
    rw [hlookup]
    exact h
  | some closed =>
    have hne : file ≠ closed := fun heq => hother (heq ▸ hlookup)
    have hroot : file ∈ ws.index.roots := List.contains_iff_mem.1 h.2.root
    have hreleased : (ws.release closed).Holds canonical file text := by
      refine ⟨(kept_settled hfs).release closed h.1, ?_⟩
      unfold release
      split
      · exact h.2
      · exact h.2.relabel (List.mem_filter.2 ⟨hroot, by simpa using hne⟩)
    have hpruned := hreleased.prune hfs
    -- Only the closed file is read again, under its own number.
    rw [closeDocument_known hlookup]
    split
    · obtain heq | ⟨script, hscript, -, heq⟩ := reload_cases (ws.release closed).prune fs closed
      · rwa [heq]
      · rw [heq]
        refine hpruned.setFile hfs ?_
        rwa [hpruned.1.setFile_known hfs hscript]
    · exact hpruned

theorem Holds.setFiles {paths : List Path} (h : ws.Holds canonical file text)
    (hfs : Names canonical fs) (hother : file ∉ (ws.setFiles fs paths).2.loaded) :
    (ws.setFiles fs paths).1.Holds canonical file text := by
  induction paths generalizing ws with
  | nil => exact h
  | cons path rest ih =>
    unfold Workspace.setFiles at hother ⊢
    split
    · rename_i script hscript
      simp only [hscript, List.mem_cons, not_or] at hother
      exact ih (h.setFile hfs hother.1) hother.2
    · rename_i error herror
      simp only [herror] at hother
      exact ih h hother

theorem Holds.loadAllDependencies (h : ws.Holds canonical file text) (hfs : Names canonical fs)
    (files : List FileId) : (ws.loadAllDependencies fs files).Holds canonical file text := by
  unfold Workspace.loadAllDependencies
  induction files generalizing ws with
  | nil => exact h
  | cons start rest ih => exact ih (h.loadDependencies hfs start)

theorem Holds.setOptions (h : ws.Holds canonical file text) (hfs : Names canonical fs)
    (options : LoadOptions) : Holds canonical file text { ws with options } :=
  ⟨(kept_settled hfs).setOptions options h.1, h.2.setOptions options⟩

theorem Holds.loadDirectory {directory : Path} {summary : LoadSummary} {loaded : Workspace}
    (h : ws.Holds canonical file text) (hfs : Names canonical fs)
    (hloaded : ws.loadDirectory fs directory = .ok (loaded, summary))
    (hother : file ∉ summary.loaded) : loaded.Shows file text := by
  unfold Workspace.loadDirectory at hloaded
  split at hloaded
  · rename_i paths _
    cases hloaded
    have hroots := (h.setFiles hfs hother).addRoots hfs (ws.setFiles fs paths).2.loaded
    have hall := hroots.loadAllDependencies hfs (ws.setFiles fs paths).2.loaded
    exact hall.2.relabel (List.contains_iff_mem.1 hall.2.root)
  · cases hloaded

theorem Holds.loadFile {path : Path} {number : FileId} {loaded : Workspace}
    (h : ws.Holds canonical file text) (hfs : Names canonical fs)
    (hloaded : ws.loadFile fs path = .ok (loaded, number))
    (hother : file ≠ (ws.files.intern fs path).2) : loaded.Holds canonical file text := by
  unfold Workspace.loadFile at hloaded
  split at hloaded
  · rename_i script hscript
    cases hloaded
    obtain rfl := load_path hscript
    exact (h.setFile hfs hother).loadDependencies hfs _
  · cases hloaded

/-- After an open the file shows the new text if it is the opened one, else what it showed. -/
theorem openDocument_owned {path : Path} {new : String} {owned : FileId → Option String}
    (hsettled : ws.Settled canonical) (hfs : Names canonical fs)
    (hbefore : owned file = some text → ws.Holds canonical file text)
    (hafter : (if file = (ws.files.intern fs path).2 then some new else owned file) = some text) :
    (ws.openDocument fs path new).1.Holds canonical file text := by
  split at hafter
  · rename_i heq
    obtain rfl := Option.some.inj hafter
    rw [heq]
    exact openDocument_holds hsettled hfs
  · exact (hbefore hafter).openDocument hfs ‹_›

/-- A text of the editor stays through every operation that does not take it back. -/
theorem perform_holds {op : Operation} {owned : FileId → Option String}
    (hsettled : ws.Settled canonical) (hfs : Names canonical fs)
    (h : ∀ file text, owned file = some text → ws.Shows file text)
    (hafter : ws.editorTexts fs owned op file = some text) :
    (ws.perform fs op).Shows file text := by
  have hbefore : owned file = some text → ws.Holds canonical file text :=
    fun howned => ⟨hsettled, h file text howned⟩
  cases op with
  | openDocument path new => exact (openDocument_owned hsettled hfs hbefore hafter).2
  | updateDocument path new =>
    exact ((openDocument_owned hsettled hfs hbefore hafter).prune hfs).2
  | closeDocument path =>
    obtain ⟨hother, howned⟩ := Option.ite_none_left_eq_some.1 hafter
    exact ((hbefore howned).closeDocument hfs hother).2
  | loadDirectory directory =>
    unfold perform
    unfold editorTexts at hafter
    simp only at hafter ⊢
    split
    · rename_i loaded summary hloaded
      rw [hloaded] at hafter
      obtain ⟨hother, howned⟩ := Option.ite_none_left_eq_some.1 hafter
      exact (hbefore howned).loadDirectory hfs hloaded hother
    · rename_i error herror
      rw [herror] at hafter
      exact h file text hafter
  | loadFile options path =>
    obtain ⟨hother, howned⟩ := Option.ite_none_left_eq_some.1 hafter
    have hopts := (hbefore howned).setOptions hfs options
    unfold perform
    simp only
    split
    · exact ((hopts.loadFile hfs ‹_› hother).setOptions hfs ws.options).2
    · exact h file text howned
  | loadDependencies options start =>
    have hopts := (hbefore hafter).setOptions hfs options
    exact ((hopts.loadDependencies hfs start).setOptions hfs ws.options).2

/-! ## Every run -/

theorem runOwned_shows {owned : FileId → Option String} {steps : List (FileSystem × Operation)}
    (hsettled : ws.Settled canonical) (hfs : ∀ step ∈ steps, Names canonical step.1)
    (h : ∀ file text, owned file = some text → ws.Shows file text) :
    ∀ file text, (ws.runOwned owned steps).2 file = some text →
      (ws.runOwned owned steps).1.Shows file text := by
  induction steps generalizing ws owned with
  | nil => exact h
  | cons step rest ih =>
    have hstep := hfs step List.mem_cons_self
    refine ih ((kept_settled hstep).perform step.2 hsettled)
      (fun step hmem => hfs step (List.mem_cons_of_mem _ hmem)) fun file text hafter => ?_
    exact perform_holds hsettled hstep h hafter

theorem settled_empty (options : LoadOptions) : (empty options).Settled canonical :=
  ⟨consistent_empty options, fun _ h => absurd h List.not_mem_nil⟩

/-- In every run over file systems that agree on canonical paths, a file whose text an editor owns
shows that text. -/
theorem run_shows {steps : List (FileSystem × Operation)} (options : LoadOptions)
    (hfs : ∀ step ∈ steps, Names canonical step.1) :
    ∀ file text, ((empty options).runOwned (fun _ => none) steps).2 file = some text →
      ((empty options).run steps).Shows file text := by
  rw [← runOwned_workspace (empty options) fun _ => none]
  exact runOwned_shows (settled_empty options) hfs fun _ _ h => by cases h

end ShellAnalysis.Workspace
