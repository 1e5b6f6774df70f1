import ShellAnalysis.Proofs.Ownership

/-!
# What a walk along `source` commands brings in

A walk reads the dependencies of a file once and then loads what it has not met
before, so lists that are rewritten while it goes on belong to files that it has
met.  Whatever it loads stays as it was loaded (`Onward`), and the way to it
stays a way in the index (`Hops`):

    a loaded file is at most `maxDepth` links away from the start
    its entry is the one that its text on disk gives
    every other entry is as it was                            (loadDependencies_loads)
-/

namespace ShellAnalysis

/-! ## Numbers of known paths -/

namespace FileTable

variable {table table' : FileTable} {fs : FileSystem} {path : Path} {file : FileId}

/-- A number that was given stays. -/
theorem lookup?_mono (h : table.paths <+: table'.paths)
    (hfile : table.lookup? fs path = some file) : table'.lookup? fs path = some file := by
  obtain ⟨more, hmore⟩ := h
  have hold : table.paths.findIdx? (fs.normalize path).same = some file := hfile
  show table'.paths.findIdx? (fs.normalize path).same = some file
  rw [← hmore, List.findIdx?_append, hold, Option.some_or]

theorem intern_lookup? (table : FileTable) (fs : FileSystem) (path : Path) :
    (table.intern fs path).1.lookup? fs path = some (table.intern fs path).2 := by
  unfold intern
  simp only
  split
  · assumption
  · exact find?_push ‹_›

/-- Paths that get numbers together are found under them. -/
theorem internAll_lookup? (table : FileTable) (fs : FileSystem) (paths : List Path) :
    paths.map ((table.internAll fs paths).1.lookup? fs) =
      (table.internAll fs paths).2.map some := by
  induction paths generalizing table with
  | nil => rfl
  | cons path rest ih =>
    have hrest := ih (table.intern fs path).1
    have hgrows := (internAll_extends (table.intern fs path).1 fs rest).paths
    have hpath := lookup?_mono hgrows (intern_lookup? table fs path)
    exact List.cons_eq_cons.2 ⟨hpath, hrest⟩

theorem path?_of_mem_internAll {paths : List Path} (h : file ∈ (table.internAll fs paths).2) :
    ∃ known, (table.internAll fs paths).1.path? file = some known := by
  have hsome : some file ∈ paths.map ((table.internAll fs paths).1.lookup? fs) := by
    rw [internAll_lookup?]
    exact List.mem_map_of_mem h
  obtain ⟨path, -, hpath⟩ := List.mem_map.1 hsome
  obtain ⟨known, hknown, -⟩ := path?_of_find? hpath
  exact ⟨known, hknown⟩

end FileTable

namespace Workspace

open WorkspaceIndex

variable {canonical : Path → Path} {ws ws' : Workspace} {fs : FileSystem} {file : FileId}
  {script : Script}

/-! ## Links lead to known paths -/

/-- Every file that some file sources has a path. -/
def Linked (ws : Workspace) : Prop :=
  ∀ file, ∀ target ∈ ws.index.dependencies file, ∃ path, ws.files.path? target = some path

theorem Linked.mono (h : ws.Linked) (hpaths : ws.files.paths <+: ws'.files.paths)
    (hindex : ws'.index = ws.index) : ws'.Linked := by
  intro file target htarget
  obtain ⟨path, hpath⟩ := h file target (hindex ▸ htarget)
  exact ⟨path, FileTable.path?_mono hpaths hpath⟩

theorem Linked.setFile (h : ws.Linked) : (ws.setFile fs script).1.Linked := by
  intro file target htarget
  rw [setFile_index, dependencies_insert] at htarget
  split at htarget
  · have hsourced : target ∈ ws.sourced fs script :=
      (List.mem_filter.1 (List.mem_eraseDups.1 htarget)).1
    exact FileTable.path?_of_mem_internAll hsourced
  · obtain ⟨path, hpath⟩ := h file target htarget
    exact ⟨path, FileTable.path?_mono (setFile_paths ws fs script) hpath⟩

theorem kept_linked (fs : FileSystem) : Kept fs Linked where
  setFile := .setFile
  prune := by
    intro ws h file target htarget
    rw [prune_dependencies] at htarget
    rw [prune_files]
    split at htarget
    · exact absurd htarget List.not_mem_nil
    · exact h file target htarget
  relabel := fun _ _ _ h => h

/-! ## Entries from the disk -/

/-- The entry of the file is what the script gives: its declarations, and the numbers of the other
files that it sources, each once and in order. -/
def Indexed (ws : Workspace) (fs : FileSystem) (file : FileId) (script : Script) : Prop :=
  ∃ sources : List FileId, script.targets.map (ws.files.lookup? fs) = sources.map some ∧
    ws.index.files.get? file =
      some ⟨script.symbols, (sources.filter (· ≠ file)).eraseDups⟩

/-- The entry of the file is the one that its text on disk gives. -/
def ReadFromDisk (ws : Workspace) (fs : FileSystem) (file : FileId) : Prop :=
  ∃ path text, ws.files.path? file = some path ∧ fs.read? path = some text ∧
    ws.Indexed fs file (.analyze fs path text)

theorem setFile_get? {other : FileId} (h : other ≠ (ws.setFile fs script).2) :
    (ws.setFile fs script).1.index.files.get? other = ws.index.files.get? other := by
  rw [setFile_index, WorkspaceIndex.insert, OrderedMap.get?_insert, if_neg h]

theorem setFile_indexed (ws : Workspace) (fs : FileSystem) (script : Script) :
    (ws.setFile fs script).1.Indexed fs (ws.setFile fs script).2 script := by
  refine ⟨ws.sourced fs script, ?_, ?_⟩
  · exact FileTable.internAll_lookup? (ws.files.intern fs script.path).1 fs script.targets
  · rw [setFile_index, WorkspaceIndex.insert, OrderedMap.get?_insert, if_pos rfl]

theorem Indexed.mono (h : ws.Indexed fs file script)
    (hpaths : ws.files.paths <+: ws'.files.paths)
    (hentry : ws'.index.files.get? file = ws.index.files.get? file) :
    ws'.Indexed fs file script := by
  obtain ⟨sources, hsources, hfile⟩ := h
  refine ⟨sources, ?_, hentry.trans hfile⟩
  rw [← hsources]
  refine List.map_congr_left fun target htarget => ?_
  have hknown : ws.files.lookup? fs target ∈ sources.map some :=
    hsources ▸ List.mem_map_of_mem htarget
  obtain ⟨number, -, hnumber⟩ := List.mem_map.1 hknown
  rw [← hnumber]
  exact FileTable.lookup?_mono hpaths hnumber.symm

theorem Indexed.tracked (h : ws.Indexed fs file script) : file ∈ ws.index.fileIds := by
  obtain ⟨_, -, hfile⟩ := h
  exact OrderedMap.mem_keys_of_get? hfile

theorem ReadFromDisk.mono (h : ws.ReadFromDisk fs file)
    (hpaths : ws.files.paths <+: ws'.files.paths)
    (hentry : ws'.index.files.get? file = ws.index.files.get? file) :
    ws'.ReadFromDisk fs file := by
  obtain ⟨path, text, hpath, htext, hindexed⟩ := h
  exact ⟨path, text, FileTable.path?_mono hpaths hpath, htext, hindexed.mono hpaths hentry⟩

/-- What is read from the path of a file is that file's. -/
theorem Settled.setFile_read (h : ws.Settled canonical) (hfs : Names canonical fs)
    (hpath : ws.files.path? file = some script.path)
    (hload : Script.load fs script.path = .ok script) :
    (ws.setFile fs script).1.ReadFromDisk fs file := by
  have hid : (ws.setFile fs script).2 = file := h.setFile_known hfs hpath
  obtain ⟨text, htext, hscript⟩ := load_eq hload
  have hindexed := setFile_indexed ws fs script
  rw [hid] at hindexed
  exact ⟨script.path, text, FileTable.path?_mono (setFile_paths ws fs script) hpath, htext,
    hscript ▸ hindexed⟩

/-! ## Ways along links -/

/-- The file is so many links away from the start, along some way. -/
inductive Hops (next : FileId → List FileId) (start : FileId) : Nat → FileId → Prop
  | start : Hops next start 0 start
  | step {n : Nat} {file target : FileId} :
    Hops next start n file → target ∈ next file → Hops next start (n + 1) target

theorem Hops.mono {next next' : FileId → List FileId} {start : FileId} {n : Nat}
    (h : Hops next start n file) (hnext : ∀ file, next file ⊆ next' file) :
    Hops next' start n file := by
  induction h with
  | start => exact .start
  | step _ htarget ih => exact .step ih (hnext _ htarget)

/-! ## One step of a walk -/

namespace Trail

variable {trail trail' : Trail}

/-- The links of the files that were met.  A walk goes along these only. -/
def links (trail : Trail) (file : FileId) : List FileId :=
  if file ∈ trail.visited then trail.workspace.index.dependencies file else []

theorem links_of_mem (h : file ∈ trail.visited) :
    trail.links file = trail.workspace.index.dependencies file := if_pos h

theorem links_subset (trail : Trail) (file : FileId) :
    trail.links file ⊆ trail.workspace.index.dependencies file := by
  unfold links
  split
  · exact List.Subset.refl _
  · exact List.nil_subset _

/-- What the rest of a walk leaves of what was there: the files that were met and their entries,
the files that were loaded, the numbers of paths, and the roots. -/
structure Onward (trail trail' : Trail) : Prop where
  visited : trail.visited ⊆ trail'.visited
  loaded : trail.loaded ⊆ trail'.loaded
  entries : ∀ file ∈ trail.visited,
    trail'.workspace.index.files.get? file = trail.workspace.index.files.get? file
  paths : trail.workspace.files.paths <+: trail'.workspace.files.paths
  roots : trail'.workspace.index.roots = trail.workspace.index.roots

theorem Onward.refl (trail : Trail) : Onward trail trail :=
  ⟨List.Subset.refl _, List.Subset.refl _, fun _ _ => rfl, List.prefix_rfl, rfl⟩

theorem Onward.trans {trail'' : Trail} (h : Onward trail trail') (h' : Onward trail' trail'') :
    Onward trail trail'' :=
  ⟨fun _ hfile => h'.visited (h.visited hfile), fun _ hfile => h'.loaded (h.loaded hfile),
    fun file hfile => (h'.entries file (h.visited hfile)).trans (h.entries file hfile),
    h.paths.trans h'.paths, h'.roots.trans h.roots⟩

theorem Onward.links (h : Onward trail trail') (file : FileId) :
    trail.links file ⊆ trail'.links file := by
  by_cases hfile : file ∈ trail.visited
  · rw [links_of_mem hfile, links_of_mem (h.visited hfile), WorkspaceIndex.dependencies,
      WorkspaceIndex.dependencies, h.entries file hfile]
    exact List.Subset.refl _
  · rw [Trail.links, if_neg hfile]
    exact List.nil_subset _

theorem enter_visited (trail : Trail) (fs : FileSystem) (next : FileId) :
    (trail.enter fs next).1.visited = next :: trail.visited := by
  obtain ⟨entered, heq⟩ | ⟨script, -, -, -, heq⟩ := enter_cases trail fs next <;> rw [heq]

/-- What holds all through a walk from the start in a workspace `ws`. -/
structure Sound (canonical : Path → Path) (fs : FileSystem) (ws : Workspace) (start : FileId)
    (limit : Nat) (trail : Trail) : Prop where
  settled : trail.workspace.Settled canonical
  linked : trail.workspace.Linked
  roots : trail.workspace.index.roots = ws.index.roots
  met : start ∈ trail.visited
  visited : trail.loaded ⊆ trail.visited
  nodup : trail.loaded.Nodup
  not_start : start ∉ trail.loaded
  not_root : ∀ file ∈ trail.loaded, ws.index.isRoot file = false
  way : ∀ file ∈ trail.loaded, ∃ n ≤ limit, Hops trail.links start n file
  read : ∀ file ∈ trail.loaded, trail.workspace.ReadFromDisk fs file
  kept : ∀ file, file ∉ trail.loaded →
    trail.workspace.index.files.get? file = ws.index.files.get? file

section

variable {start next : FileId} {limit depth n : Nat}

/-- Marking a file as met changes nothing else. -/
theorem Sound.meet (h : trail.Sound canonical fs ws start limit) :
    Sound canonical fs ws start limit { trail with visited := next :: trail.visited } ∧
      Onward trail { trail with visited := next :: trail.visited } := by
  have honward : Onward trail { trail with visited := next :: trail.visited } :=
    ⟨List.subset_cons_self _ _, List.Subset.refl _, fun _ _ => rfl, List.prefix_rfl, rfl⟩
  refine ⟨{ h with
    met := honward.visited h.met
    visited := fun _ hfile => honward.visited (h.visited hfile)
    way := fun file hfile => ?_ }, honward⟩
  obtain ⟨n, hn, hway⟩ := h.way file hfile
  exact ⟨n, hn, hway.mono honward.links⟩

/-- A file that is loaded when it is met, at the end of a way, is loaded soundly. -/
theorem Sound.load (h : trail.Sound canonical fs ws start limit) (hfs : Names canonical fs)
    (hnext : next ∉ trail.visited) (hway : Hops trail.links start n next) (hn : n ≤ limit)
    (hroot : trail.workspace.index.isRoot next = false)
    (hpath : trail.workspace.files.path? next = some script.path)
    (hload : Script.load fs script.path = .ok script) :
    Sound canonical fs ws start limit
        ⟨(trail.workspace.setFile fs script).1, next :: trail.visited, trail.loaded ++ [next]⟩ ∧
      Onward trail
        ⟨(trail.workspace.setFile fs script).1, next :: trail.visited, trail.loaded ++ [next]⟩ := by
  have hid : (trail.workspace.setFile fs script).2 = next := h.settled.setFile_known hfs hpath
  have hpaths := setFile_paths trail.workspace fs script
  have hother : ∀ {file}, file ≠ next →
      (trail.workspace.setFile fs script).1.index.files.get? file =
        trail.workspace.index.files.get? file :=
    fun hne => setFile_get? (hid ▸ hne)
  have honward : Onward trail
      ⟨(trail.workspace.setFile fs script).1, next :: trail.visited, trail.loaded ++ [next]⟩ :=
    ⟨List.subset_cons_self _ _, List.subset_append_left _ _,
      fun file hfile => hother fun heq => hnext (heq ▸ hfile), hpaths, rfl⟩
  have hnew : next ∉ trail.loaded := fun hmem => hnext (h.visited hmem)
  have hcases : ∀ {file}, file ∈ trail.loaded ++ [next] → file ∈ trail.loaded ∨ file = next :=
    fun hmem => (List.mem_append.1 hmem).imp_right List.mem_singleton.1
  refine ⟨{
    settled := (kept_settled hfs).setFile h.settled
    linked := h.linked.setFile
    roots := h.roots
    met := honward.visited h.met
    visited := ?_
    nodup := ?_
    not_start := ?_
    not_root := ?_
    way := ?_
    read := ?_
    kept := ?_ }, honward⟩
  · intro file hfile
    rcases hcases hfile with hfile | rfl
    · exact honward.visited (h.visited hfile)
    · exact List.mem_cons_self
  · have hnotLoaded : ∀ file ∈ trail.loaded, ∀ other ∈ [next], file ≠ other := by
      intro file hfile other hother heq
      exact hnew (List.mem_singleton.1 hother ▸ heq ▸ hfile)
    exact List.nodup_append.2 ⟨h.nodup, List.pairwise_singleton _ next, hnotLoaded⟩
  · intro hmem
    rcases hcases hmem with hmem | heq
    · exact h.not_start hmem
    · exact hnext (heq ▸ h.met)
  · intro file hfile
    rcases hcases hfile with hfile | rfl
    · exact h.not_root file hfile
    · rw [← hroot, WorkspaceIndex.isRoot, WorkspaceIndex.isRoot, h.roots]
  · intro file hfile
    rcases hcases hfile with hfile | rfl
    · obtain ⟨m, hm, hfileWay⟩ := h.way file hfile
      exact ⟨m, hm, hfileWay.mono honward.links⟩
    · exact ⟨n, hn, hway.mono honward.links⟩
  · intro file hfile
    rcases hcases hfile with hfile | rfl
    · exact (h.read file hfile).mono hpaths (hother fun heq => hnew (heq ▸ hfile))
    · exact h.settled.setFile_read hfs hpath hload
  · intro file hfile
    have hfile : file ∉ trail.loaded ∧ file ≠ next := by simpa using hfile
    exact (hother hfile.2).trans (h.kept file hfile.1)

theorem Sound.enter (h : trail.Sound canonical fs ws start limit) (hfs : Names canonical fs)
    (hnext : next ∉ trail.visited) (hway : Hops trail.links start n next) (hn : n ≤ limit) :
    Sound canonical fs ws start limit (trail.enter fs next).1 ∧
      Onward trail (trail.enter fs next).1 ∧ next ∈ (trail.enter fs next).1.visited := by
  obtain ⟨entered, heq⟩ | ⟨script, hroot, hpath, hload, heq⟩ := enter_cases trail fs next
  · rw [heq]
    exact ⟨h.meet.1, h.meet.2, List.mem_cons_self⟩
  · rw [heq]
    have hloaded := h.load hfs hnext hway hn hroot hpath hload
    exact ⟨hloaded.1, hloaded.2, List.mem_cons_self⟩

/-- A round at a link of a file keeps a walk sound if what follows it does. -/
theorem Sound.goTo (h : trail.Sound canonical fs ws start limit) (hfs : Names canonical fs)
    (hway : Hops trail.links start n next) (hn : n ≤ limit)
    (hfollow : ∀ {trail : Trail}, trail.Sound canonical fs ws start limit →
      next ∈ trail.visited → Hops trail.links start n next →
      Sound canonical fs ws start limit (Trail.follow fs depth next trail) ∧
        Onward trail (Trail.follow fs depth next trail)) :
    Sound canonical fs ws start limit (Trail.goTo fs depth trail next) ∧
      Onward trail (Trail.goTo fs depth trail next) := by
  obtain ⟨-, heq⟩ | ⟨hnext, heq⟩ := goTo_cases fs depth trail next
  · rw [heq]
    exact ⟨h, .refl trail⟩
  · obtain ⟨hsound, honward, hmet⟩ := h.enter hfs hnext hway hn
    rw [heq]
    split
    · have hgo := hfollow hsound hmet (hway.mono honward.links)
      exact ⟨hgo.1, honward.trans hgo.2⟩
    · exact ⟨hsound, honward⟩

/-- Rounds at links of one file, which stay its links. -/
theorem Sound.goToAll {sources : List FileId} (h : trail.Sound canonical fs ws start limit)
    (hfs : Names canonical fs) (hway : Hops trail.links start n file) (hn : n < limit)
    (hsources : sources ⊆ trail.links file)
    (hfollow : ∀ {trail : Trail} {next : FileId}, trail.Sound canonical fs ws start limit →
      next ∈ trail.visited → Hops trail.links start (n + 1) next →
      Sound canonical fs ws start limit (Trail.follow fs depth next trail) ∧
        Onward trail (Trail.follow fs depth next trail)) :
    Sound canonical fs ws start limit (sources.foldl (Trail.goTo fs depth) trail) ∧
      Onward trail (sources.foldl (Trail.goTo fs depth) trail) := by
  induction sources generalizing trail with
  | nil => exact ⟨h, .refl trail⟩
  | cons next rest ih =>
    have hnext : Hops trail.links start (n + 1) next := .step hway (hsources List.mem_cons_self)
    obtain ⟨hsound, honward⟩ := h.goTo hfs hnext hn hfollow
    have hrest : rest ⊆ (Trail.goTo fs depth trail next).links file :=
      fun other hother => honward.links file (hsources (List.mem_cons_of_mem _ hother))
    have hgo := ih hsound (hway.mono honward.links) hrest
    exact ⟨hgo.1, honward.trans hgo.2⟩

/-- A walk at a file that was met `n` links from the start stays sound if it goes on for at most
`limit - n` steps. -/
theorem Sound.follow (h : trail.Sound canonical fs ws start limit) (hfs : Names canonical fs)
    (hfile : file ∈ trail.visited) (hway : Hops trail.links start n file)
    (hlimit : n + depth ≤ limit) :
    Sound canonical fs ws start limit (Trail.follow fs depth file trail) ∧
      Onward trail (Trail.follow fs depth file trail) := by
  induction depth generalizing file trail n with
  | zero => exact ⟨h, .refl trail⟩
  | succ depth ih =>
    rw [follow_succ, ← links_of_mem hfile]
    exact h.goToAll hfs hway (by omega) (List.Subset.refl _)
      fun hsound hmet hnext => ih hsound hmet hnext (by omega)

theorem Sound.round (h : trail.Sound canonical fs ws start limit) (hfs : Names canonical fs)
    (hway : Hops trail.links start n next) (hlimit : n + depth ≤ limit) :
    Sound canonical fs ws start limit (Trail.goTo fs depth trail next) ∧
      Onward trail (Trail.goTo fs depth trail next) :=
  h.goTo hfs hway (Nat.le_of_add_right_le hlimit)
    fun hsound hmet hnext => hsound.follow hfs hmet hnext hlimit

theorem Sound.rounds {sources : List FileId} (h : trail.Sound canonical fs ws start limit)
    (hfs : Names canonical fs) (hway : Hops trail.links start n file)
    (hlimit : n + 1 + depth ≤ limit) (hsources : sources ⊆ trail.links file) :
    Sound canonical fs ws start limit (sources.foldl (Trail.goTo fs depth) trail) ∧
      Onward trail (sources.foldl (Trail.goTo fs depth) trail) :=
  h.goToAll hfs hway (Nat.le_of_add_right_le hlimit) hsources
    fun hsound hmet hnext => hsound.follow hfs hmet hnext hlimit

end

end Trail

/-! ## Workspaces that an editor and a loader get into -/

/-- A workspace after any use of it, on file systems that agree on canonical paths: operations,
scripts that are tracked by hand, and numbers that were asked for. -/
inductive Reached (canonical : Path → Path) : Workspace → Prop
  | empty (options : LoadOptions) : Reached canonical (.empty options)
  | perform {ws : Workspace} {fs : FileSystem} (op : Operation) :
    Reached canonical ws → Names canonical fs → Reached canonical (ws.perform fs op)
  | setFile {ws : Workspace} {fs : FileSystem} (script : Script) :
    Reached canonical ws → Names canonical fs → Reached canonical (ws.setFile fs script).1
  | intern {ws : Workspace} {fs : FileSystem} (path : Path) :
    Reached canonical ws → Names canonical fs →
      Reached canonical { ws with files := (ws.files.intern fs path).1 }

theorem Settled.intern (h : ws.Settled canonical) (hfs : Names canonical fs) (path : Path) :
    Settled canonical { ws with files := (ws.files.intern fs path).1 } := by
  have hextends := FileTable.intern_extends ws.files fs path
  refine ⟨{ h.consistent with
    contents_keys := ?_
    text := fun hknown => ?_
    numbered := hextends.numbered h.consistent.numbered }, intern_canonical hfs h.canonical⟩
  · rw [hextends.contents]
    exact h.consistent.contents_keys
  · rw [FileTable.text?, hextends.contents]
    exact h.consistent.text hknown

theorem Reached.settled (h : Reached canonical ws) : ws.Settled canonical := by
  induction h with
  | empty options => exact settled_empty options
  | perform op _ hfs ih => exact (kept_settled hfs).perform op ih
  | setFile script _ hfs ih => exact (kept_settled hfs).setFile ih
  | intern path _ hfs ih => exact ih.intern hfs path

theorem Reached.linked (h : Reached canonical ws) : ws.Linked := by
  induction h with
  | empty options => exact fun _ _ htarget => absurd htarget List.not_mem_nil
  | @perform _ fs op _ _ ih => exact (kept_linked fs).perform op ih
  | setFile script _ _ ih => exact ih.setFile
  | @intern ws fs path _ _ ih => exact ih.mono (FileTable.intern_extends ws.files fs path).paths rfl

/-! ## The whole walk -/

/-- What a walk from a file, for at most so many links, leaves of a workspace and gives back. -/
structure Loads (fs : FileSystem) (ws : Workspace) (file : FileId) (limit : Nat)
    (outcome : Workspace × List FileId) : Prop where
  nodup : outcome.2.Nodup
  not_start : file ∉ outcome.2
  not_root : ∀ loaded ∈ outcome.2, ws.index.isRoot loaded = false ∧
    outcome.1.index.isRoot loaded = false
  way : ∀ loaded ∈ outcome.2, ∃ n ≤ limit, Hops outcome.1.index.dependencies file n loaded
  read : ∀ loaded ∈ outcome.2, outcome.1.ReadFromDisk fs loaded
  kept : ∀ other, other ∉ outcome.2 →
    outcome.1.index.files.get? other = ws.index.files.get? other

/-- A walk starts soundly. -/
theorem Trail.sound_start (hsettled : ws.Settled canonical) (hlinked : ws.Linked)
    (hfs : Names canonical fs) (options : LoadOptions) (file : FileId) :
    Trail.Sound canonical fs ws file options.maxDepth ⟨{ ws with options }, [file], []⟩ where
  settled := (kept_settled hfs).setOptions options hsettled
  linked := (kept_linked fs).setOptions options hlinked
  roots := rfl
  met := List.mem_singleton.2 rfl
  visited := List.nil_subset _
  nodup := List.nodup_nil
  not_start := List.not_mem_nil
  not_root := fun _ hmem => absurd hmem List.not_mem_nil
  way := fun _ hmem => absurd hmem List.not_mem_nil
  read := fun _ hmem => absurd hmem List.not_mem_nil
  kept := fun _ _ => rfl

theorem Trail.sound_follow (hsettled : ws.Settled canonical) (hlinked : ws.Linked)
    (hfs : Names canonical fs) (options : LoadOptions) (file : FileId) :
    Trail.Sound canonical fs ws file options.maxDepth
      (Trail.follow fs options.maxDepth file ⟨{ ws with options }, [file], []⟩) :=
  have hstart := Trail.sound_start hsettled hlinked hfs options file
  (hstart.follow hfs hstart.met .start (Nat.le_of_eq (Nat.zero_add _))).1

theorem Trail.sound_loadDependencies (h : Reached canonical ws) (hfs : Names canonical fs)
    (options : LoadOptions) (file : FileId) :
    Trail.Sound canonical fs ws file options.maxDepth
      (Trail.follow fs options.maxDepth file ⟨{ ws with options }, [file], []⟩) :=
  Trail.sound_follow h.settled h.linked hfs options file

/-- Whatever the options of the loader, it loads only what the file sources within its limit, each
file once and none that an editor owns, and it leaves every other entry alone. -/
theorem loadDependencies_loads (h : Reached canonical ws) (hfs : Names canonical fs)
    (options : LoadOptions) (file : FileId) :
    Loads fs ws file options.maxDepth (loadDependencies { ws with options } fs file) := by
  have hsound := Trail.sound_loadDependencies h hfs options file
  refine ⟨hsound.nodup, hsound.not_start, fun loaded hloaded => ?_, fun loaded hloaded => ?_,
    hsound.read, hsound.kept⟩
  · have hroot := hsound.not_root loaded hloaded
    refine ⟨hroot, ?_⟩
    rw [← hroot, WorkspaceIndex.isRoot, WorkspaceIndex.isRoot]
    exact congrArg (·.contains loaded) hsound.roots
  · obtain ⟨n, hn, hway⟩ := hsound.way loaded hloaded
    exact ⟨n, hn, hway.mono (Trail.links_subset _)⟩

/-! ## A script in an editor and one on the disk -/

/-- `/a` sources `/b`, which sources itself. -/
def smallDisk : FileSystem where
  canonical? := some
  isFile path := path = ⟨"/a"⟩ ∨ path = ⟨"/b"⟩
  isDirectory _ := false
  read? path := if path = ⟨"/a"⟩ ∨ path = ⟨"/b"⟩ then some "source b" else none
  filesBelow? _ := none

theorem smallDisk_names : Names id smallDisk :=
  ⟨fun _ => rfl, fun _ => Path.same_iff.2 rfl⟩

theorem sourceCommands_b : SourceCommand.findAll (parse "source b").root "source b" =
    [⟨"b", ⟨7, 1⟩, ⟨0, 8⟩⟩] := by
  have hroot : (parse "source b").root =
      ⟨⟨0, 8⟩, .program [⟨⟨0, 8⟩, .command ⟨[], [⟨⟨0, 6⟩, .word [⟨⟨0, 6⟩, .text "source"⟩]⟩,
        ⟨⟨7, 1⟩, .word [⟨⟨7, 1⟩, .text "b"⟩]⟩], [], none, none⟩⟩]⟩ := by
    with_unfolding_all rfl
  rw [hroot, SourceCommand.findAll]
  simp only [Node.walk_eq, Node.children, Form.children, Node.form, Node.span, List.mergeSort,
    List.MergeSort.Internal.splitInTwo, List.splitAt_eq, List.length_cons, List.length_nil,
    Nat.zero_add, Nat.reduceAdd, Nat.reduceDiv, List.take_succ_cons, List.take_zero,
    List.drop_succ_cons, List.drop_zero, Nat.zero_le, decide_true, List.cons_merge_cons_pos,
    List.nil_merge, List.flatMap_cons, List.flatMap_nil, List.nil_append, List.append_nil,
    List.cons_append, Option.toList_none]
  decide

theorem smallDisk_targets (path : Path) (hpath : path = ⟨"/a"⟩ ∨ path = ⟨"/b"⟩) :
    (Script.analyze smallDisk path "source b").targets = [⟨"/b"⟩] := by
  unfold Script.targets Script.analyze
  simp only [sourceCommands_b]
  rcases hpath with rfl | rfl <;> decide

/-- An editor has opened `/a`, and what it sources is not loaded yet. -/
def smallWorkspace : Workspace :=
  (empty { maxDepth := 0 }).perform smallDisk (.openDocument ⟨"/a"⟩ "source b")

theorem smallWorkspace_dependencies : smallWorkspace.index.dependencies 0 = [1] := by
  have hsources : smallWorkspace.index.dependencies 0 =
      (((sourced (empty {}) smallDisk (.analyze smallDisk ⟨"/a"⟩ "source b")).filter
        (· ≠ 0)).eraseDups) := rfl
  rw [hsources, sourced, smallDisk_targets _ (.inl rfl)]
  decide

theorem smallWorkspace_paths : smallWorkspace.files.paths = [⟨"/a"⟩, ⟨"/b"⟩] := by
  have hfiles : smallWorkspace.files.paths =
      (FileTable.internAll (FileTable.empty.intern smallDisk ⟨"/a"⟩).1 smallDisk
        (Script.analyze smallDisk ⟨"/a"⟩ "source b").targets).1.paths := rfl
  rw [hfiles, smallDisk_targets _ (.inl rfl)]
  decide

theorem smallWorkspace_path? : smallWorkspace.files.path? 1 = some ⟨"/b"⟩ := by
  rw [FileTable.path?, smallWorkspace_paths]
  rfl

theorem smallWorkspace_lookup? : smallWorkspace.files.lookup? smallDisk ⟨"/b"⟩ = some 1 := by
  rw [FileTable.lookup?, FileTable.find?, smallWorkspace_paths]
  decide

theorem smallWorkspace_loads :
    (loadDependencies { smallWorkspace with options := { maxDepth := 1 } } smallDisk 0).2 = [1] ∧
      Loads smallDisk smallWorkspace 0 1
        (loadDependencies { smallWorkspace with options := { maxDepth := 1 } } smallDisk 0) := by
  have hreached : Reached id smallWorkspace := .perform _ (.empty _) smallDisk_names
  have hloads := loadDependencies_loads hreached smallDisk_names { maxDepth := 1 } 0
  refine ⟨?_, hloads⟩
  have hroot : smallWorkspace.index.isRoot 1 = false := rfl
  have hload : Script.load smallDisk ⟨"/b"⟩ = .ok (.analyze smallDisk ⟨"/b"⟩ "source b") := rfl
  simp [loadDependencies, Trail.follow, Trail.enter, smallWorkspace_dependencies, hroot,
    smallWorkspace_path?, hload]

end Workspace

end ShellAnalysis
