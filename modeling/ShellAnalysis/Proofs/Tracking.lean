import ShellAnalysis.Workspace.Documents

/-!
# What a workspace keeps

A tracked file stands in three maps: its text in the file table, its script
among the documents, its symbols and dependencies in the index.  `setFile` and
`prune` change all three together, and nothing else changes them, so they
always agree (`Consistent`).  Numbers of paths are only ever added.

A walk along `source` commands enters files one by one, so what each entering
keeps is kept by the walk (`Trail.follow_induction`).  `Workspace.run` performs
operations one after the other, each on a file system of its own.  What
`setFile`, `prune` and a change of the roots keep is kept by every operation
(`Kept`, `Kept.perform`), and so by every run (`Kept.run`).
-/

namespace ShellAnalysis

/-! ## Numbers of paths -/

theorem Path.same_iff {a b : Path} : a.same b = true ↔ a.steps = b.steps := beq_iff_eq

namespace FileTable

variable {table : FileTable} {fs : FileSystem} {path : Path} {file : FileId}

/-- Numbers and paths determine each other, paths up to the way they are written. -/
structure Numbered (table : FileTable) : Prop where
  find : ∀ {file path}, table.path? file = some path → table.find? path = some file
  path : ∀ {file path}, table.find? path = some file →
    ∃ known, table.path? file = some known ∧ path.same known = true

theorem path?_of_find? (h : table.find? path = some file) :
    ∃ known, table.path? file = some known ∧ path.same known = true := by
  obtain ⟨hlt, hsame, -⟩ := List.findIdx?_eq_some_iff_getElem.1 h
  exact ⟨table.paths[file], List.getElem?_eq_getElem hlt, hsame⟩

theorem numbered_empty : Numbered empty where
  find := by
    intro file path h
    cases h
  path := path?_of_find?

/-- A path that is the same as one with a number has that number too. -/
theorem find?_congr {other : Path} (h : path.same other = true) :
    table.find? path = table.find? other := by
  unfold find?
  congr 1
  funext known
  rw [Path.same, Path.same, Path.same_iff.1 h]

/-- A path that was not met before gets the next number. -/
theorem find?_push (hnew : table.find? path = none) :
    find? { table with paths := table.paths ++ [path] } path = some table.paths.length := by
  have hself : path.same path = true := Path.same_iff.2 rfl
  unfold find? at hnew ⊢
  rw [List.findIdx?_append, hnew, Option.none_or, List.findIdx?_cons, if_pos hself]
  exact congrArg some (Nat.zero_add _)

theorem Numbered.push (h : table.Numbered) (hnew : table.find? path = none) :
    Numbered { table with paths := table.paths ++ [path] } := by
  refine ⟨fun {file other} hpath => ?_, path?_of_find?⟩
  rcases Nat.lt_or_ge file table.paths.length with hlt | hge
  · have hold : table.path? file = some other := by
      rw [path?, ← hpath, path?, List.getElem?_append_left hlt]
    have hfind : table.paths.findIdx? other.same = some file := h.find hold
    unfold find?
    rw [List.findIdx?_append, hfind, Option.some_or]
  · rw [path?, List.getElem?_append_right hge, List.getElem?_singleton] at hpath
    obtain ⟨hfile, hsame⟩ := Option.ite_none_right_eq_some.1 hpath
    obtain rfl : path = other := Option.some.inj hsame
    obtain rfl : file = table.paths.length := Nat.le_antisymm (Nat.sub_eq_zero_iff_le.1 hfile) hge
    exact find?_push hnew

/-- What giving numbers to paths leaves: more paths, and the texts as they were. -/
structure Extends (table table' : FileTable) : Prop where
  paths : table.paths <+: table'.paths
  contents : table'.contents = table.contents
  numbered : table.Numbered → table'.Numbered

theorem Extends.refl (table : FileTable) : Extends table table :=
  ⟨List.prefix_rfl, rfl, id⟩

theorem Extends.trans {table₁ table₂ : FileTable} (h₁ : Extends table table₁)
    (h₂ : Extends table₁ table₂) : Extends table table₂ :=
  ⟨h₁.paths.trans h₂.paths, h₂.contents.trans h₁.contents, fun h => h₂.numbered (h₁.numbered h)⟩

theorem intern_extends (table : FileTable) (fs : FileSystem) (path : Path) :
    Extends table (table.intern fs path).1 := by
  unfold intern
  simp only
  split
  · exact .refl table
  · rename_i hnew
    exact ⟨List.prefix_append _ _, rfl, fun h => h.push hnew⟩

theorem internAll_extends (table : FileTable) (fs : FileSystem) (paths : List Path) :
    Extends table (table.internAll fs paths).1 := by
  induction paths generalizing table with
  | nil => exact .refl table
  | cons path rest ih => exact (intern_extends table fs path).trans (ih _)

/-- A path that is found keeps its number. -/
theorem intern_known (h : table.find? (fs.normalize path) = some file) :
    table.intern fs path = (table, file) := by
  unfold intern
  simp only [h]

theorem path?_mono {table' : FileTable} (h : table.paths <+: table'.paths)
    (hpath : table.path? file = some path) : table'.path? file = some path := by
  obtain ⟨more, hmore⟩ := h
  obtain ⟨hlt, -⟩ := List.getElem?_eq_some_iff.1 hpath
  rw [path?, ← hmore, List.getElem?_append_left hlt]
  exact hpath

end FileTable

/-! ## One entry of the index -/

theorem nodup_eraseDups (files : List FileId) : files.eraseDups.Nodup := by
  induction hlength : files.length using Nat.strongRecOn generalizing files with
  | ind length ih =>
    cases files with
    | nil => exact List.nodup_nil
    | cons file rest =>
      rw [List.eraseDups_cons]
      refine List.nodup_cons.2 ⟨fun hmem => ?_, ih _ ?_ _ rfl⟩
      · simp only [List.mem_eraseDups, List.mem_filter, BEq.rfl, Bool.not_true,
          Bool.false_eq_true, and_false] at hmem
      · rw [← hlength, List.length_cons]
        exact Nat.lt_succ_of_le (List.length_filter_le _ _)

namespace WorkspaceIndex

variable {index : WorkspaceIndex} {file other : FileId} {table : SymbolTable}
  {sources : List FileId}

theorem symbols?_insert : (index.insert file table sources).symbols? other =
    if other = file then some table else index.symbols? other := by
  rw [symbols?, insert, OrderedMap.get?_insert]
  split <;> rfl

theorem dependencies_insert : (index.insert file table sources).dependencies other =
    if other = file then (sources.filter (· ≠ file)).eraseDups else index.dependencies other := by
  rw [dependencies, insert, OrderedMap.get?_insert]
  by_cases h : other = file
  · rw [if_pos h, if_pos h]
  · rw [if_neg h, if_neg h]
    rfl

theorem dependencies_filterKeys {keep : FileId → Bool} {roots : List FileId} :
    dependencies ⟨index.files.filterKeys keep, roots⟩ file =
      if keep file then index.dependencies file else [] := by
  rw [dependencies, OrderedMap.get?_filterKeys]
  by_cases h : keep file = true
  · rw [if_pos h, if_pos h]
    rfl
  · rw [if_neg h, if_neg h]

theorem fileIds_insert : (index.insert file table sources).fileIds =
    if file ∈ index.fileIds then index.fileIds else index.fileIds ++ [file] :=
  OrderedMap.keys_insert

theorem addRoot_roots (index : WorkspaceIndex) (file : FileId) : (index.addRoot file).roots =
    if index.isRoot file then index.roots else index.roots ++ [file] := by
  unfold addRoot
  split <;> rfl

end WorkspaceIndex

namespace Workspace

variable {ws : Workspace} {fs : FileSystem} {script : Script} {file : FileId}

/-! ## Tracking a script -/

@[simp] theorem setFile_documents :
    (ws.setFile fs script).1.documents = ws.documents.insert (ws.setFile fs script).2 script := rfl

theorem setFile_id : (ws.setFile fs script).2 = (ws.files.intern fs script.path).2 := rfl

/-- The numbers of the files that a script sources, once it is tracked. -/
def sourced (ws : Workspace) (fs : FileSystem) (script : Script) : List FileId :=
  ((ws.files.intern fs script.path).1.internAll fs script.targets).2

theorem setFile_index :
    (ws.setFile fs script).1.index =
      ws.index.insert (ws.setFile fs script).2 script.symbols (ws.sourced fs script) := rfl

/-- The file table after a script was tracked, before its text is set. -/
theorem setFile_extends (ws : Workspace) (fs : FileSystem) (script : Script) :
    ∃ table, ws.files.Extends table ∧
      (ws.setFile fs script).1.files = table.setText (ws.setFile fs script).2 script.text :=
  ⟨_, (FileTable.intern_extends _ _ _).trans (FileTable.internAll_extends _ _ _), rfl⟩

theorem setFile_contents :
    (ws.setFile fs script).1.files.contents =
      ws.files.contents.insert (ws.setFile fs script).2 script.text := by
  obtain ⟨table, htable, heq⟩ := setFile_extends ws fs script
  rw [heq, FileTable.setText, htable.contents]

theorem setFile_paths (ws : Workspace) (fs : FileSystem) (script : Script) :
    ws.files.paths <+: (ws.setFile fs script).1.files.paths := by
  obtain ⟨table, htable, heq⟩ := setFile_extends ws fs script
  rw [heq]
  exact htable.paths

/-- A script that is read from the path of a known file, which is canonical, is that file's. -/
theorem setFile_known (h : ws.files.Numbered) (hpath : ws.files.path? file = some script.path)
    (hcanonical : (fs.normalize script.path).same script.path = true) :
    (ws.setFile fs script).2 = file := by
  have hfind : ws.files.find? (fs.normalize script.path) = some file := by
    rw [FileTable.find?_congr hcanonical]
    exact h.find hpath
  rw [setFile_id, FileTable.intern_known hfind]

/-! ## Dropping files -/

theorem foldl_clearText (table : FileTable) (dropped : List FileId) :
    dropped.foldl .clearText table =
      { table with contents := table.contents.filterKeys (!dropped.contains ·) } := by
  rw [← OrderedMap.foldl_erase]
  induction dropped generalizing table with
  | nil => rfl
  | cons file rest ih => rw [List.foldl_cons, List.foldl_cons, ih, FileTable.clearText]

/-- Is the file dropped when no root reaches it? -/
def drops (ws : Workspace) (file : FileId) : Bool := ws.index.prune.2.contains file

theorem prune_documents : ws.prune.documents = ws.documents.filterKeys (!ws.drops ·) :=
  OrderedMap.foldl_erase _

theorem prune_files : ws.prune.files =
    { ws.files with contents := ws.files.contents.filterKeys (!ws.drops ·) } :=
  foldl_clearText _ _

theorem drops_iff :
    ws.drops file = true ↔ file ∈ ws.index.fileIds ∧ file ∉ ws.index.reachable := by
  simp [drops, WorkspaceIndex.prune]

theorem prune_index_files : ws.prune.index.files =
    ws.index.files.filterKeys ws.index.reachable.contains := rfl

/-- Of the tracked files those stay that are not dropped. -/
theorem prune_fileIds : ws.prune.index.fileIds = ws.index.fileIds.filter (!ws.drops ·) := by
  rw [WorkspaceIndex.fileIds, prune_index_files, OrderedMap.keys_filterKeys]
  refine List.filter_congr fun file hfile => ?_
  rw [Bool.eq_iff_iff, Bool.not_eq_true', ← Bool.not_eq_true, drops_iff, List.contains_iff_mem]
  exact ⟨fun h hdropped => hdropped.2 h, fun h => Decidable.not_not.1 fun hnot => h ⟨hfile, hnot⟩⟩

/-! ## The maps agree -/

/-- The three maps hold the same files and agree on each of them; no file sources a file twice or
itself; numbers and paths determine each other. -/
structure Consistent (ws : Workspace) : Prop where
  documents_keys : ws.documents.keys = ws.index.fileIds
  contents_keys : ws.files.contents.keys = ws.index.fileIds
  text : ∀ {file script}, ws.documents.get? file = some script →
    ws.files.text? file = some script.text
  symbols : ∀ {file script}, ws.documents.get? file = some script →
    ws.index.symbols? file = some script.symbols
  dependencies_nodup : ∀ file, (ws.index.dependencies file).Nodup
  not_self : ∀ file, file ∉ ws.index.dependencies file
  numbered : ws.files.Numbered

theorem consistent_empty (options : LoadOptions) : Consistent (empty options) where
  documents_keys := rfl
  contents_keys := rfl
  text := fun h => by cases h
  symbols := fun h => by cases h
  dependencies_nodup := fun _ => List.nodup_nil
  not_self := fun _ => List.not_mem_nil
  numbered := FileTable.numbered_empty

theorem Consistent.setFile (h : ws.Consistent) : (ws.setFile fs script).1.Consistent := by
  obtain ⟨table, htable, hfiles⟩ := setFile_extends ws fs script
  refine {
    documents_keys := ?_
    contents_keys := ?_
    text := fun {file known} hknown => ?_
    symbols := fun {file known} hknown => ?_
    dependencies_nodup := fun file => ?_
    not_self := fun file => ?_
    numbered := ?_ }
  · rw [setFile_documents, OrderedMap.keys_insert, h.documents_keys, setFile_index,
      WorkspaceIndex.fileIds_insert]
  · rw [setFile_contents, OrderedMap.keys_insert, h.contents_keys, setFile_index,
      WorkspaceIndex.fileIds_insert]
  · rw [setFile_documents, OrderedMap.get?_insert] at hknown
    rw [FileTable.text?, setFile_contents, OrderedMap.get?_insert]
    split at hknown
    · cases hknown
      exact if_pos ‹_›
    · rw [if_neg ‹_›]
      exact h.text hknown
  · rw [setFile_documents, OrderedMap.get?_insert] at hknown
    rw [setFile_index, WorkspaceIndex.symbols?_insert]
    split at hknown
    · cases hknown
      exact if_pos ‹_›
    · rw [if_neg ‹_›]
      exact h.symbols hknown
  · rw [setFile_index, WorkspaceIndex.dependencies_insert]
    split
    · exact nodup_eraseDups _
    · exact h.dependencies_nodup file
  · rw [setFile_index, WorkspaceIndex.dependencies_insert]
    split
    · rename_i heq
      simp [heq]
    · exact h.not_self file
  · have hnumbered := htable.numbered h.numbered
    rw [hfiles]
    exact ⟨hnumbered.find, hnumbered.path⟩

/-- What is known of a file that stays is as it was; of a file that is dropped nothing is known. -/
theorem prune_get?_files : ws.prune.index.files.get? file =
    if ws.drops file then none else ws.index.files.get? file := by
  rw [prune_index_files, OrderedMap.get?_filterKeys]
  by_cases hreach : file ∈ ws.index.reachable
  · have hstays : ws.drops file = false := by
      rw [← Bool.not_eq_true, drops_iff]
      exact fun h => h.2 hreach
    rw [if_pos (List.contains_iff_mem.2 hreach), hstays]
    rfl
  · rw [if_neg (by simpa using hreach)]
    split
    · rfl
    · rename_i hstays
      refine (OrderedMap.get?_eq_none.2 fun hkey => hstays ?_).symm
      exact drops_iff.2 ⟨hkey, hreach⟩

theorem prune_dependencies : ws.prune.index.dependencies file =
    if ws.drops file then [] else ws.index.dependencies file := by
  rw [WorkspaceIndex.dependencies, prune_get?_files]
  by_cases h : ws.drops file = true
  · rw [if_pos h, if_pos h]
  · rw [if_neg h, if_neg h]
    rfl

theorem Consistent.prune (h : ws.Consistent) : ws.prune.Consistent := by
  have hlive : ∀ {file script}, ws.prune.documents.get? file = some script →
      ws.drops file = false ∧ ws.documents.get? file = some script := by
    intro file script hscript
    rw [prune_documents, OrderedMap.get?_filterKeys] at hscript
    obtain ⟨hstays, hscript⟩ := Option.ite_none_right_eq_some.1 hscript
    exact ⟨by simpa using hstays, hscript⟩
  refine {
    documents_keys := ?_
    contents_keys := ?_
    text := fun {file script} hscript => ?_
    symbols := fun {file script} hscript => ?_
    dependencies_nodup := fun file => ?_
    not_self := fun file => ?_
    numbered := ?_ }
  · rw [prune_documents, OrderedMap.keys_filterKeys, h.documents_keys, prune_fileIds]
  · rw [prune_files, OrderedMap.keys_filterKeys, h.contents_keys, prune_fileIds]
  · obtain ⟨hstays, hscript⟩ := hlive hscript
    rw [FileTable.text?, prune_files, OrderedMap.get?_filterKeys, hstays]
    exact h.text hscript
  · obtain ⟨hstays, hscript⟩ := hlive hscript
    rw [WorkspaceIndex.symbols?, prune_get?_files, hstays]
    exact h.symbols hscript
  · rw [prune_dependencies]
    split
    · exact List.nodup_nil
    · exact h.dependencies_nodup file
  · rw [prune_dependencies]
    split
    · exact List.not_mem_nil
    · exact h.not_self file
  · rw [prune_files]
    exact ⟨h.numbered.find, h.numbered.path⟩

/-! ## Walks -/

theorem load_eq {path : Path} (h : Script.load fs path = .ok script) :
    ∃ text, fs.read? path = some text ∧ script = .analyze fs path text := by
  unfold Script.load at h
  split at h
  · rename_i text htext
    cases h
    exact ⟨text, htext, rfl⟩
  · cases h

theorem load_path {path : Path} (h : Script.load fs path = .ok script) : script.path = path := by
  obtain ⟨_, -, rfl⟩ := load_eq h
  rfl

namespace Trail

/-- Entering a file marks it.  Besides, nothing changes, or the file is no root and is tracked with
what its path holds. -/
theorem enter_cases (trail : Trail) (fs : FileSystem) (next : FileId) :
    (∃ entered, trail.enter fs next = ({ trail with visited := next :: trail.visited }, entered)) ∨
      ∃ script, trail.workspace.index.isRoot next = false ∧
        trail.workspace.files.path? next = some script.path ∧
        Script.load fs script.path = .ok script ∧
        trail.enter fs next = (⟨(trail.workspace.setFile fs script).1, next :: trail.visited,
          trail.loaded ++ [next]⟩, true) := by
  unfold enter
  simp only
  split
  · exact .inl ⟨_, rfl⟩
  · rename_i hroot
    split
    · rename_i script hscript
      obtain ⟨path, hpath, hload⟩ := Option.map_eq_some_iff.1 hscript
      obtain rfl := load_path hload
      exact .inr ⟨script, by simpa using hroot, hpath, hload, rfl⟩
    · exact .inl ⟨_, rfl⟩

/-- One round of a walk at a file: goes to a dependency that was not met, and on from there. -/
def goTo (fs : FileSystem) (depth : Nat) (trail : Trail) (next : FileId) : Trail :=
  if trail.visited.contains next then trail
  else
    match trail.enter fs next with
    | (trail, true) => follow fs depth next trail
    | (trail, false) => trail

theorem follow_succ (fs : FileSystem) (depth : Nat) (file : FileId) (trail : Trail) :
    follow fs (depth + 1) file trail =
      (trail.workspace.index.dependencies file).foldl (goTo fs depth) trail := rfl

/-- A round ends at a file that was met before, or it enters the file and goes on from it if that
succeeds. -/
theorem goTo_cases (fs : FileSystem) (depth : Nat) (trail : Trail) (next : FileId) :
    (next ∈ trail.visited ∧ goTo fs depth trail next = trail) ∨
      next ∉ trail.visited ∧ goTo fs depth trail next =
        if (trail.enter fs next).2 then follow fs depth next (trail.enter fs next).1
        else (trail.enter fs next).1 := by
  unfold goTo
  by_cases hnext : next ∈ trail.visited
  · exact .inl ⟨hnext, if_pos (List.contains_iff_mem.2 hnext)⟩
  · refine .inr ⟨hnext, ?_⟩
    rw [if_neg (by simpa using hnext)]
    obtain ⟨entered, _ | _⟩ := trail.enter fs next <;> rfl

/-- What holds before a walk and is kept when a file is entered holds after it. -/
theorem follow_induction {I : Trail → Prop}
    (henter : ∀ {trail next}, I trail → next ∉ trail.visited → I (trail.enter fs next).1)
    (depth : Nat) (file : FileId) (trail : Trail) (h : I trail) :
    I (follow fs depth file trail) := by
  induction depth generalizing file trail with
  | zero => exact h
  | succ depth ih =>
    rw [follow_succ]
    -- The sources are those from before the loop; loading one may change what the file sources.
    generalize trail.workspace.index.dependencies file = sources
    induction sources generalizing trail with
    | nil => exact h
    | cons next rest ihrest =>
      refine ihrest _ ?_
      obtain ⟨-, heq⟩ | ⟨hnew, heq⟩ := goTo_cases fs depth trail next
      · rwa [heq]
      · rw [heq]
        split
        · exact ih next _ (henter h hnew)
        · exact henter h hnew

end Trail

/-- What loading keeps, a walk along `source` commands keeps. -/
theorem follow_keeps {I : Workspace → Prop}
    (hload : ∀ {ws file path script}, I ws → ws.index.isRoot file = false →
      ws.files.path? file = some path → Script.load fs path = .ok script →
      I (ws.setFile fs script).1) (depth : Nat) (file : FileId) (trail : Trail)
    (h : I trail.workspace) : I (Trail.follow fs depth file trail).workspace := by
  refine Trail.follow_induction (I := fun trail => I trail.workspace) ?_ depth file trail h
  intro trail next htrail _
  obtain ⟨_, heq⟩ | ⟨script, hroot, hpath, hscript, heq⟩ := Trail.enter_cases trail fs next
  · rw [heq]
    exact htrail
  · rw [heq]
    exact hload htrail hroot hpath hscript

/-- A walk makes no roots. -/
theorem loadDependencies_roots (ws : Workspace) (fs : FileSystem) (start : FileId) :
    (ws.loadDependencies fs start).1.index.roots = ws.index.roots :=
  follow_keeps (I := fun trailed => trailed.index.roots = ws.index.roots) (fun h _ _ _ => h) _ _ _
    rfl

/-! ## Operations -/

/-- What can be asked of a workspace.  A loader that is called from outside brings its own
options. -/
inductive Operation where
  | openDocument (path : Path) (text : String)
  | updateDocument (path : Path) (text : String)
  | closeDocument (path : Path)
  | loadDirectory (directory : Path)
  | loadFile (options : LoadOptions) (path : Path)
  | loadDependencies (options : LoadOptions) (file : FileId)

/-- The workspace after an operation.  One that fails changes nothing. -/
def perform (ws : Workspace) (fs : FileSystem) : Operation → Workspace
  | .openDocument path text => (ws.openDocument fs path text).1
  | .updateDocument path text => (ws.updateDocument fs path text).1
  | .closeDocument path => (ws.closeDocument fs path).1
  | .loadDirectory directory =>
    match ws.loadDirectory fs directory with
    | .ok (ws, _) => ws
    | .error _ => ws
  | .loadFile options path =>
    match loadFile { ws with options } fs path with
    | .ok (loaded, _) => { loaded with options := ws.options }
    | .error _ => ws
  | .loadDependencies options file =>
    { (loadDependencies { ws with options } fs file).1 with options := ws.options }

/-- Performs operations in order, each on the file system as it is then. -/
def run (ws : Workspace) (steps : List (FileSystem × Operation)) : Workspace :=
  steps.foldl (fun ws step => ws.perform step.1 step.2) ws

/-- What is kept by the two ways to change the tracked files and does not depend on the rest. -/
structure Kept (fs : FileSystem) (I : Workspace → Prop) : Prop where
  setFile : ∀ {ws script}, I ws → I (ws.setFile fs script).1
  prune : ∀ {ws}, I ws → I ws.prune
  relabel : ∀ {ws} roots fromDirectories options, I ws →
    I { ws with index := { ws.index with roots }, fromDirectories, options }

/-- The workspace in which a document is no root any more, unless it came with a directory. -/
def release (ws : Workspace) (file : FileId) : Workspace :=
  { ws with
    index := if ws.fromDirectories.contains file then ws.index else ws.index.removeRoot file }

/-- A close prunes first.  Only then is the file read again, if it is still tracked. -/
theorem closeDocument_known {path : Path} (h : ws.files.lookup? fs path = some file) :
    (ws.closeDocument fs path).1 =
      if (ws.release file).prune.index.contains file then (ws.release file).prune.reload fs file
      else (ws.release file).prune := by
  unfold closeDocument
  rw [h]
  rfl

/-- Reading a file again changes nothing or tracks what its path holds. -/
theorem reload_cases (ws : Workspace) (fs : FileSystem) (file : FileId) :
    ws.reload fs file = ws ∨
      ∃ script, ws.files.path? file = some script.path ∧ Script.load fs script.path = .ok script ∧
        ws.reload fs file = (ws.setFile fs script).1 := by
  unfold reload
  split
  · rename_i script hscript
    obtain ⟨path, hpath, hload⟩ := Option.map_eq_some_iff.1 hscript
    obtain rfl := load_path hload
    exact .inr ⟨script, hpath, hload, rfl⟩
  · exact .inl rfl

theorem addRoots_index (ws : Workspace) (files : List FileId) :
    ∃ roots, (ws.addRoots files).index = { ws.index with roots } := by
  unfold addRoots
  simp only
  generalize ws.index = index
  induction files generalizing index with
  | nil => exact ⟨_, rfl⟩
  | cons file rest ih =>
    obtain ⟨roots, hroots⟩ := ih (index.addRoot file)
    refine ⟨roots, ?_⟩
    rw [List.foldl_cons, hroots, WorkspaceIndex.addRoot]
    split <;> rfl

namespace Kept

variable {I : Workspace → Prop}

theorem setOptions (h : Kept fs I) (options : LoadOptions) (hws : I ws) :
    I { ws with options } := h.relabel ws.index.roots ws.fromDirectories options hws

theorem addRoots (h : Kept fs I) (files : List FileId) (hws : I ws) : I (ws.addRoots files) := by
  obtain ⟨roots, hroots⟩ := addRoots_index ws files
  have heq : ws.addRoots files = { ws with index := { ws.index with roots } } := by
    rw [← hroots]
    rfl
  rw [heq]
  exact h.relabel roots ws.fromDirectories ws.options hws

theorem loadDependencies (h : Kept fs I) (file : FileId) (hws : I ws) :
    I (ws.loadDependencies fs file).1 :=
  follow_keeps (fun hws _ _ _ => h.setFile hws) _ file _ hws

theorem openDocument (h : Kept fs I) (path : Path) (text : String) (hws : I ws) :
    I (ws.openDocument fs path text).1 :=
  h.loadDependencies _ (h.addRoots _ (h.setFile hws))

theorem reload (h : Kept fs I) (file : FileId) (hws : I ws) : I (ws.reload fs file) := by
  obtain heq | ⟨script, -, -, heq⟩ := reload_cases ws fs file
  · rwa [heq]
  · rw [heq]
    exact h.setFile hws

theorem release (h : Kept fs I) (file : FileId) (hws : I ws) : I (ws.release file) := by
  unfold Workspace.release
  split
  · exact hws
  · exact h.relabel _ ws.fromDirectories ws.options hws

theorem closeDocument (h : Kept fs I) (path : Path) (hws : I ws) :
    I (ws.closeDocument fs path).1 := by
  cases hlookup : ws.files.lookup? fs path with
  | none =>
    unfold Workspace.closeDocument
    rw [hlookup]
    exact hws
  | some file =>
    rw [closeDocument_known hlookup]
    split
    · exact h.reload file (h.prune (h.release file hws))
    · exact h.prune (h.release file hws)

theorem setFiles (h : Kept fs I) (paths : List Path) (hws : I ws) : I (ws.setFiles fs paths).1 := by
  induction paths generalizing ws with
  | nil => exact hws
  | cons path rest ih =>
    unfold Workspace.setFiles
    split
    · exact ih (h.setFile hws)
    · exact ih hws

theorem loadAllDependencies (h : Kept fs I) (files : List FileId) (hws : I ws) :
    I (ws.loadAllDependencies fs files) := by
  unfold Workspace.loadAllDependencies
  induction files generalizing ws with
  | nil => exact hws
  | cons file rest ih => exact ih (h.loadDependencies file hws)

theorem loadDirectory (h : Kept fs I) {directory : Path} {summary : LoadSummary}
    {loaded : Workspace}
    (hloaded : ws.loadDirectory fs directory = .ok (loaded, summary)) (hws : I ws) : I loaded := by
  unfold Workspace.loadDirectory at hloaded
  split at hloaded
  · rename_i paths _
    cases hloaded
    have hset : I (ws.setFiles fs paths).1 := h.setFiles paths hws
    have hroots := h.addRoots (ws.setFiles fs paths).2.loaded hset
    have hall := h.loadAllDependencies (ws.setFiles fs paths).2.loaded hroots
    exact h.relabel _ _ _ hall
  · cases hloaded

theorem loadFile (h : Kept fs I) {path : Path} {file : FileId} {loaded : Workspace}
    (hloaded : ws.loadFile fs path = .ok (loaded, file)) (hws : I ws) : I loaded := by
  unfold Workspace.loadFile at hloaded
  split at hloaded
  · cases hloaded
    exact h.loadDependencies _ (h.setFile hws)
  · cases hloaded

theorem perform (h : Kept fs I) (op : Operation) (hws : I ws) : I (ws.perform fs op) := by
  cases op with
  | openDocument path text => exact h.openDocument path text hws
  | updateDocument path text => exact h.prune (h.openDocument path text hws)
  | closeDocument path => exact h.closeDocument path hws
  | loadDirectory directory =>
    unfold Workspace.perform
    simp only
    split
    · exact h.loadDirectory ‹_› hws
    · exact hws
  | loadFile options path =>
    unfold Workspace.perform
    simp only
    split
    · exact h.setOptions _ (h.loadFile ‹_› (h.setOptions options hws))
    · exact hws
  | loadDependencies options file =>
    exact h.setOptions _ (h.loadDependencies file (h.setOptions options hws))

theorem run {steps : List (FileSystem × Operation)} (h : ∀ step ∈ steps, Kept step.1 I)
    (hws : I ws) : I (ws.run steps) := by
  unfold Workspace.run
  induction steps generalizing ws with
  | nil => exact hws
  | cons step rest ih =>
    have hstep := (h step List.mem_cons_self).perform step.2 hws
    exact ih (fun step hmem => h step (List.mem_cons_of_mem _ hmem)) hstep

end Kept

/-! ## Every run -/

theorem kept_consistent (fs : FileSystem) : Kept fs Consistent where
  setFile := .setFile
  prune := .prune
  relabel := fun _ _ _ h =>
    ⟨h.documents_keys, h.contents_keys, h.text, h.symbols, h.dependencies_nodup, h.not_self,
      h.numbered⟩

theorem kept_paths (fs : FileSystem) (paths : List Path) :
    Kept fs fun ws => paths <+: ws.files.paths where
  setFile := fun {ws script} h => h.trans (setFile_paths ws fs script)
  prune := fun h => by rw [prune_files]; exact h
  relabel := fun _ _ _ h => h

/-- However a workspace is used, its maps agree, and a number never goes to another path. -/
theorem run_consistent (options : LoadOptions) (steps more : List (FileSystem × Operation)) :
    ((empty options).run steps).Consistent ∧
      ∀ file path, ((empty options).run steps).files.path? file = some path →
        ((empty options).run (steps ++ more)).files.path? file = some path := by
  have hconsistent := Kept.run (fun step (_ : step ∈ steps) => kept_consistent step.1)
    (consistent_empty options)
  refine ⟨hconsistent, fun file path hpath => ?_⟩
  have hgrows := Kept.run (fun step (_ : step ∈ more) => kept_paths step.1 _)
    (List.prefix_refl ((empty options).run steps).files.paths)
  have happend : (empty options).run (steps ++ more) = ((empty options).run steps).run more :=
    List.foldl_append
  rw [happend]
  exact FileTable.path?_mono hgrows hpath

end Workspace

end ShellAnalysis
