import ShellAnalysis.Proofs.Loads

/-!
# What a walk along `source` commands leaves out

A walk marks a file when it meets it and does not come back to it.  If that
happens where the limit is used up, the walk does not go on from the file, also
when a shorter way leads to it that comes up later.  So being close to the start
is not enough.  It is enough that no way that meets each file once is longer
than the limit; then the walk is never cut off:

    whatever the start leads to is loaded                 (loadDependencies_complete)
    with no more paths than the limit and one, likewise   (loadDependencies_complete_of_few)
    from nothing, what the start leads to is tracked      (loadFile_complete)
-/

namespace ShellAnalysis

namespace Workspace

open WorkspaceIndex

variable {canonical : Path → Path} {ws : Workspace} {fs : FileSystem} {start file : FileId}

/-! ## Where a walk can go -/

/-- Can a walk go on from the file?  It can from a root and from a file that can be read. -/
def opens (ws : Workspace) (fs : FileSystem) (file : FileId) : Bool :=
  ws.index.isRoot file ||
    match (ws.files.path? file).map (Script.load fs) with
    | some (.ok _) => true
    | _ => false

/-- Of the files that a file sources, those that a walk can go on from. -/
def sources (ws : Workspace) (fs : FileSystem) (file : FileId) : List FileId :=
  (ws.index.dependencies file).filter (ws.opens fs)

theorem mem_sources {target : FileId} : target ∈ ws.sources fs file ↔
    target ∈ ws.index.dependencies file ∧ ws.opens fs target = true := List.mem_filter

/-- A way from the start to a file that meets no file twice; the files on it, the last one first. -/
inductive Way (next : FileId → List FileId) (start : FileId) : List FileId → FileId → Prop
  | start : Way next start [start] start
  | step {way : List FileId} {file target : FileId} :
    Way next start way file → target ∈ next file → target ∉ way →
      Way next start (target :: way) target

theorem Way.nodup {next : FileId → List FileId} {way : List FileId} (h : Way next start way file) :
    way.Nodup := by
  induction h with
  | start => exact List.pairwise_singleton _ _
  | step _ _ hnew ih => exact List.nodup_cons.2 ⟨hnew, ih⟩

namespace Trail

variable {trail trail' final : Trail} {next : FileId} {limit depth n : Nat} {files : List FileId}

theorem enter_opens (trail : Trail) (fs : FileSystem) (next : FileId) :
    (trail.enter fs next).2 = trail.workspace.opens fs next := by
  unfold enter opens
  simp only
  cases trail.workspace.index.isRoot next with
  | true => rfl
  | false =>
    cases (trail.workspace.files.path? next).map (Script.load fs) with
    | none => rfl
    | some loaded => cases loaded <;> rfl

/-- A file that the walk goes on from is a root or has just been loaded. -/
theorem enter_known (h : (trail.enter fs next).2 = true) :
    trail.workspace.index.isRoot next = true ∨ next ∈ (trail.enter fs next).1.loaded := by
  unfold enter at h ⊢
  simp only at h ⊢
  split at h
  · exact .inl ‹_›
  · rename_i hroot
    rw [if_neg hroot]
    split at h
    · exact .inr (List.mem_append_right _ (List.mem_singleton.2 rfl))
    · cases h

/-- Whether a walk can go on from a file with a known path stays the same. -/
theorem Onward.opens {path : Path} (h : Onward trail trail')
    (hpath : trail.workspace.files.path? file = some path) :
    trail'.workspace.opens fs file = trail.workspace.opens fs file := by
  rw [Workspace.opens, Workspace.opens, isRoot, isRoot, h.roots, hpath,
    FileTable.path?_mono h.paths hpath]

theorem Onward.dependencies (h : Onward trail trail') (hfile : file ∈ trail.visited) :
    trail'.workspace.index.dependencies file = trail.workspace.index.dependencies file := by
  rw [WorkspaceIndex.dependencies, WorkspaceIndex.dependencies, h.entries file hfile]

/-! ## The rest of a walk -/

/-- If the walk can go on from the file, it has done so: the file is a root or loaded, and the walk
has met what the file sources. -/
def Explored (fs : FileSystem) (final trail : Trail) (file : FileId) : Prop :=
  final.workspace.opens fs file = true →
    (final.workspace.index.isRoot file = true ∨ file ∈ trail.loaded) ∧
      final.workspace.sources fs file ⊆ trail.visited

theorem Explored.onward (h : Explored fs final trail file) (honward : Onward trail trail') :
    Explored fs final trail' file := by
  intro hopens
  obtain ⟨hknown, hsources⟩ := h hopens
  exact ⟨hknown.imp_right (honward.loaded ·), fun _ hmem => honward.visited (hsources hmem)⟩

/-- Whatever was met between two stages of a walk is explored. -/
def Explores (fs : FileSystem) (final trail trail' : Trail) : Prop :=
  ∀ met ∈ trail'.visited, met ∈ trail.visited ∨ Explored fs final trail' met

theorem Explores.refl (fs : FileSystem) (final trail : Trail) : Explores fs final trail trail :=
  fun _ hmet => .inl hmet

theorem Explores.trans {trail'' : Trail} (h : Explores fs final trail trail')
    (h' : Explores fs final trail' trail'') (honward : Onward trail' trail'') :
    Explores fs final trail trail'' := by
  intro met hmet
  obtain hmet | hdone := h' met hmet
  · exact (h met hmet).imp_right (·.onward honward)
  · exact .inr hdone

/-- The walk stands at a file that it has met at the end of a way of `n` links, which meets no file
twice. -/
structure Arrived (canonical : Path → Path) (fs : FileSystem) (ws : Workspace) (start : FileId)
    (limit : Nat) (final trail : Trail) (n : Nat) (files : List FileId) (file : FileId) :
    Prop where
  sound : trail.Sound canonical fs ws start limit
  hops : Hops trail.links start n file
  way : Way (final.workspace.sources fs) start files file
  length : files.length = n + 1
  met : files ⊆ trail.visited
  here : file ∈ trail.visited

theorem Arrived.onward (h : Arrived canonical fs ws start limit final trail n files file)
    (hsound : trail'.Sound canonical fs ws start limit) (honward : Onward trail trail') :
    Arrived canonical fs ws start limit final trail' n files file where
  sound := hsound
  hops := h.hops.mono honward.links
  way := h.way
  length := h.length
  met := fun _ hmem => honward.visited (h.met hmem)
  here := honward.visited h.here

/-- A file that a walk goes on from, met at a link of another, lengthens the way. -/
theorem Arrived.enter (h : Arrived canonical fs ws start limit final trail n files file)
    (hfs : Names canonical fs) (hlink : next ∈ trail.links file) (hnext : next ∉ trail.visited)
    (hlimit : n < limit) (hopens : (trail.enter fs next).2 = true)
    (hfinal : Onward (trail.enter fs next).1 final) :
    Arrived canonical fs ws start limit final (trail.enter fs next).1 (n + 1) (next :: files)
      next := by
  have hdependency := trail.links_subset file hlink
  obtain ⟨path, hpath⟩ := h.sound.linked file next hdependency
  have hhops : Hops trail.links start (n + 1) next := .step h.hops hlink
  obtain ⟨hsound, honward, hmet⟩ := h.sound.enter hfs hnext hhops hlimit
  have hsource : next ∈ final.workspace.sources fs file := by
    have hrest := honward.trans hfinal
    rw [mem_sources, hrest.dependencies h.here, hrest.opens hpath, ← enter_opens]
    exact ⟨hdependency, hopens⟩
  exact {
    sound := hsound
    hops := hhops.mono honward.links
    way := .step h.way hsource fun hmem => hnext (h.met hmem)
    length := congrArg (· + 1) h.length
    met := List.cons_subset.2 ⟨hmet, fun _ hmem => honward.visited (h.met hmem)⟩
    here := hmet }

/-- One round: the walk has met the next file afterwards, and explored what it met on the way. -/
theorem Arrived.goTo (h : Arrived canonical fs ws start limit final trail n files file)
    (hfs : Names canonical fs) (hlink : next ∈ trail.links file) (hlimit : n + 1 + depth = limit)
    (hfinal : Onward (Trail.goTo fs depth trail next) final)
    (hfollow : ∀ {trail : Trail} {files : List FileId},
      Arrived canonical fs ws start limit final trail (n + 1) files next →
      Onward (Trail.follow fs depth next trail) final →
      final.workspace.sources fs next ⊆ (Trail.follow fs depth next trail).visited ∧
        Explores fs final trail (Trail.follow fs depth next trail)) :
    next ∈ (Trail.goTo fs depth trail next).visited ∧
      Explores fs final trail (Trail.goTo fs depth trail next) := by
  obtain ⟨hnext, heq⟩ | ⟨hnext, heq⟩ := goTo_cases fs depth trail next
  · rw [heq]
    exact ⟨hnext, .refl fs final trail⟩
  obtain ⟨path, hpath⟩ := h.sound.linked file next (trail.links_subset file hlink)
  have hhops : Hops trail.links start (n + 1) next := .step h.hops hlink
  obtain ⟨hsound, honward, hmet⟩ := h.sound.enter hfs hnext hhops (by omega)
  -- Only the file itself is met by entering it, so it is enough that this one is explored.
  have hentered : ∀ {trail' : Trail}, Explored fs final trail' next →
      Explores fs final (trail.enter fs next).1 trail' → Explores fs final trail trail' := by
    intro trail' hdone hexplores met hmem
    obtain hmem | hexplored := hexplores met hmem
    · rw [enter_visited] at hmem
      exact (List.mem_cons.1 hmem).elim (fun heq => .inr (heq ▸ hdone)) .inl
    · exact .inr hexplored
  rw [heq] at hfinal ⊢
  split at hfinal
  · rename_i hopens
    rw [if_pos hopens]
    have hgone := hsound.follow hfs hmet (hhops.mono honward.links) (Nat.le_of_eq hlimit)
    have hrest := hgone.2.trans hfinal
    have harrived := h.enter hfs hlink hnext (by omega) hopens hrest
    obtain ⟨hsources, hexplores⟩ := hfollow harrived hfinal
    refine ⟨hgone.2.visited hmet, hentered (fun _ => ⟨?_, hsources⟩) hexplores⟩
    refine (enter_known hopens).imp (fun hroot => ?_) (hgone.2.loaded ·)
    rwa [isRoot, (honward.trans hrest).roots]
  · rename_i hopens
    rw [if_neg hopens]
    refine ⟨hmet, hentered (fun hfinally => ?_) (.refl _ _ _)⟩
    rw [(honward.trans hfinal).opens hpath, ← enter_opens] at hfinally
    exact absurd hfinally hopens

/-- Rounds at links of one file. -/
theorem Arrived.goToAll {links : List FileId}
    (h : Arrived canonical fs ws start limit final trail n files file)
    (hfs : Names canonical fs) (hlinks : links ⊆ trail.links file) (hlimit : n + 1 + depth = limit)
    (hfinal : Onward (links.foldl (Trail.goTo fs depth) trail) final)
    (hfollow : ∀ {trail : Trail} {files : List FileId} {next : FileId},
      Arrived canonical fs ws start limit final trail (n + 1) files next →
      Onward (Trail.follow fs depth next trail) final →
      final.workspace.sources fs next ⊆ (Trail.follow fs depth next trail).visited ∧
        Explores fs final trail (Trail.follow fs depth next trail)) :
    links ⊆ (links.foldl (Trail.goTo fs depth) trail).visited ∧
      Explores fs final trail (links.foldl (Trail.goTo fs depth) trail) := by
  induction links generalizing trail with
  | nil => exact ⟨List.nil_subset _, .refl fs final trail⟩
  | cons next rest ih =>
    rw [List.foldl_cons] at hfinal ⊢
    have hlink := hlinks List.mem_cons_self
    have hdepth := Nat.le_of_eq hlimit
    obtain ⟨hsound, honward⟩ := h.sound.round hfs (.step h.hops hlink) hdepth
    have harrived := h.onward hsound honward
    have hrest : rest ⊆ (Trail.goTo fs depth trail next).links file :=
      fun other hother => honward.links file (hlinks (List.mem_cons_of_mem _ hother))
    obtain ⟨-, hrestOnward⟩ := hsound.rounds hfs harrived.hops hdepth hrest
    obtain ⟨hmet, hexplores⟩ := h.goTo hfs hlink hlimit (hrestOnward.trans hfinal) hfollow
    obtain ⟨hrestMet, hrestExplores⟩ := ih harrived hrest hfinal
    exact ⟨List.cons_subset.2 ⟨hrestOnward.visited hmet, hrestMet⟩,
      hexplores.trans hrestExplores hrestOnward⟩

/-- A walk that no way can cut off meets all that the file sources, and explores what it meets. -/
theorem Arrived.follow (h : Arrived canonical fs ws start limit final trail n files file)
    (hfs : Names canonical fs) (hlimit : n + depth = limit)
    (hshort : ∀ {files file}, Way (final.workspace.sources fs) start files file →
      files.length ≤ limit + 1)
    (hfinal : Onward (Trail.follow fs depth file trail) final) :
    final.workspace.sources fs file ⊆ (Trail.follow fs depth file trail).visited ∧
      Explores fs final trail (Trail.follow fs depth file trail) := by
  induction depth generalizing trail n files file with
  | zero =>
    refine ⟨fun target htarget => h.met (Decidable.by_contra fun hnew => ?_), .refl fs final trail⟩
    have hlength := hshort (.step h.way htarget hnew)
    rw [List.length_cons, h.length] at hlength
    omega
  | succ depth ih =>
    have hlinks := links_of_mem h.here
    have hdepth : n + 1 + depth = limit := by omega
    rw [follow_succ, ← hlinks] at hfinal ⊢
    obtain ⟨hmet, hexplores⟩ := h.goToAll hfs (List.Subset.refl _) hdepth hfinal
      fun harrived => ih harrived hdepth
    refine ⟨fun target htarget => hmet ?_, hexplores⟩
    have hrest := h.sound.rounds hfs h.hops (Nat.le_of_eq hdepth) (List.Subset.refl _)
    rw [hlinks, ← (hrest.2.trans hfinal).dependencies h.here]
    exact (mem_sources.1 htarget).1

end Trail

/-! ## The whole walk -/

/-- Where no way is longer than the limit, a walk loads whatever the start leads to, save roots. -/
theorem loadDependencies_complete (h : Reached canonical ws) (hfs : Names canonical fs)
    (options : LoadOptions) (file : FileId) {loaded : Workspace} {files : List FileId}
    (hloaded : loadDependencies { ws with options } fs file = (loaded, files))
    (hshort : ∀ {way last}, Way (loaded.sources fs) file way last →
      way.length ≤ options.maxDepth + 1) :
    ∀ {n other}, Hops (loaded.sources fs) file n other →
      other = file ∨ loaded.index.isRoot other = true ∨ other ∈ files := by
  cases hloaded
  have harrived : Trail.Arrived canonical fs ws file options.maxDepth
      (Trail.follow fs options.maxDepth file ⟨{ ws with options }, [file], []⟩)
      ⟨{ ws with options }, [file], []⟩ 0 [file] file :=
    ⟨Trail.sound_start h.settled h.linked hfs options file, .start, .start, rfl, List.Subset.refl _,
      List.mem_singleton.2 rfl⟩
  obtain ⟨hsources, hexplores⟩ := harrived.follow hfs (Nat.zero_add _) hshort (.refl _)
  generalize Trail.follow fs options.maxDepth file ⟨{ ws with options }, [file], []⟩ = trail at *
  -- What the walk meets and can go on from is the start, or it is explored.
  have hmeets : ∀ {met}, met ∈ trail.visited → trail.workspace.opens fs met = true →
      met = file ∨ (trail.workspace.index.isRoot met = true ∨ met ∈ trail.loaded) ∧
        trail.workspace.sources fs met ⊆ trail.visited := by
    intro met hmet hopens
    exact (hexplores met hmet).imp List.mem_singleton.1 (· hopens)
  intro n other hother
  suffices hfound : other = file ∨
      other ∈ trail.visited ∧ trail.workspace.opens fs other = true by
    obtain heq | ⟨hmet, hopens⟩ := hfound
    · exact .inl heq
    · exact (hmeets hmet hopens).imp_right And.left
  induction hother with
  | start => exact .inl rfl
  | @step n source target _ htarget ih =>
    have hopens := (mem_sources.1 htarget).2
    obtain rfl | ⟨hmet, hsourceOpens⟩ := ih
    · exact .inr ⟨hsources htarget, hopens⟩
    · obtain rfl | ⟨-, hall⟩ := hmeets hmet hsourceOpens
      · exact .inr ⟨hsources htarget, hopens⟩
      · exact .inr ⟨hall htarget, hopens⟩

/-- A way meets files with known paths only, so there is none longer than these are many. -/
theorem Way.length_le {way : List FileId} {last : FileId} (h : Way (ws.sources fs) start way last)
    (hlinked : ws.Linked) (hstart : start < ws.files.paths.length) :
    way.length ≤ ws.files.paths.length := by
  have hknown : ∀ file ∈ way, file ∈ List.range ws.files.paths.length := by
    induction h with
    | start => exact fun file hfile => List.mem_range.2 (List.mem_singleton.1 hfile ▸ hstart)
    | step _ htarget _ ih =>
      obtain ⟨path, hpath⟩ := hlinked _ _ (mem_sources.1 htarget).1
      obtain ⟨hlt, -⟩ := List.getElem?_eq_some_iff.1 hpath
      exact List.forall_mem_cons.2 ⟨List.mem_range.2 hlt, ih⟩
  have hlength := h.nodup.length_le_of_subset hknown
  rwa [List.length_range] at hlength

/-- A limit of at least the number of the other known paths is long enough. -/
theorem loadDependencies_complete_of_few (h : Reached canonical ws) (hfs : Names canonical fs)
    (options : LoadOptions) {path : Path} (hpath : ws.files.path? file = some path)
    {loaded : Workspace} {files : List FileId}
    (hloaded : loadDependencies { ws with options } fs file = (loaded, files))
    (hfew : loaded.files.paths.length ≤ options.maxDepth + 1) :
    ∀ {n other}, Hops (loaded.sources fs) file n other →
      other = file ∨ loaded.index.isRoot other = true ∨ other ∈ files := by
  refine loadDependencies_complete h hfs options file hloaded fun hway => ?_
  obtain rfl : (loadDependencies { ws with options } fs file).1 = loaded := congrArg (·.1) hloaded
  have hpaths : ws.files.paths <+: (loadDependencies { ws with options } fs file).1.files.paths :=
    (kept_paths fs ws.files.paths).loadDependencies file (List.prefix_refl _)
  have hlinked : (loadDependencies { ws with options } fs file).1.Linked :=
    (kept_linked fs).loadDependencies file ((kept_linked fs).setOptions options h.linked)
  obtain ⟨hstart, -⟩ := List.getElem?_eq_some_iff.1 (FileTable.path?_mono hpaths hpath)
  exact Nat.le_trans (hway.length_le hlinked hstart) hfew

/-! ## A file and what it sources -/

theorem setFile_path? (ws : Workspace) (fs : FileSystem) (script : Script) :
    ∃ path, (ws.setFile fs script).1.files.path? (ws.setFile fs script).2 = some path := by
  have hfind := FileTable.intern_lookup? ws.files fs script.path
  obtain ⟨path, hpath, -⟩ := FileTable.path?_of_find? hfind
  have hgrows := FileTable.internAll_extends (ws.files.intern fs script.path).1 fs script.targets
  exact ⟨path, FileTable.path?_mono hgrows.paths hpath⟩

/-- Without roots, what a walk loads and the file that it starts from are all that it meets. -/
theorem loadDependencies_tracks (h : Reached canonical ws) (hfs : Names canonical fs)
    (hroots : ws.index.roots = []) {path : Path} (hpath : ws.files.path? file = some path)
    (hfile : file ∈ ws.index.fileIds)
    (hfew : (ws.loadDependencies fs file).1.files.paths.length ≤ ws.options.maxDepth + 1) :
    ∀ {n other}, Hops ((ws.loadDependencies fs file).1.sources fs) file n other →
      other ∈ (ws.loadDependencies fs file).1.index.fileIds := by
  intro n other hother
  have hsound := Trail.sound_loadDependencies h hfs ws.options file
  have hnone : (ws.loadDependencies fs file).1.index.roots = [] :=
    (loadDependencies_roots ws fs file).trans hroots
  have hmet : other = file ∨ (ws.loadDependencies fs file).1.index.isRoot other = true ∨
      other ∈ (ws.loadDependencies fs file).2 :=
    loadDependencies_complete_of_few h hfs ws.options hpath rfl hfew hother
  obtain rfl | hroot | hmem := hmet
  · refine Decidable.by_contra fun hgone => ?_
    have hentry := (hsound.kept _ hsound.not_start).symm.trans (OrderedMap.get?_eq_none.2 hgone)
    exact OrderedMap.get?_eq_none.1 hentry hfile
  · rw [isRoot, hnone] at hroot
    cases hroot
  · obtain ⟨_, _, -, -, hindexed⟩ := hsound.read other hmem
    exact hindexed.tracked

/-- In an empty workspace, with a limit of at least the number of other paths that the loader comes
to know, every readable file that the first one leads to is tracked. -/
theorem loadFile_complete (hfs : Names canonical fs) {options : LoadOptions} {path : Path}
    {loaded : Workspace} {file : FileId}
    (hloaded : loadFile (empty options) fs path = .ok (loaded, file))
    (hfew : loaded.files.paths.length ≤ options.maxDepth + 1) :
    ∀ {n other}, Hops (loaded.sources fs) file n other → other ∈ loaded.index.fileIds := by
  unfold loadFile at hloaded
  split at hloaded
  · rename_i script _
    cases hloaded
    obtain ⟨path, hpath⟩ := setFile_path? (empty options) fs script
    have hfile := (setFile_indexed (empty options) fs script).tracked
    intro n other hother
    exact loadDependencies_tracks (.setFile script (.empty options) hfs) hfs rfl hpath hfile hfew
      hother
  · cases hloaded

end Workspace

end ShellAnalysis
