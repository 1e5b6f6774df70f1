import ShellAnalysis.Proofs.Loads

/-!
# What an update leaves alone

An update tracks the new text of a document, walks along `source` commands and
prunes.  Each step leaves most files alone:

    `setFile` changes the file of its script only               (setFile_agree)
    a walk changes the files that it loads only                 (loadDependencies_agree)
    a prune keeps what is known of a file or forgets all of it  (prune_agree, prune_forgot)

The files that a walk loads are tracked ones to which links lead from its start,
and these are still there when the walk has ended.  So they belong to the closure
of the document, and the files outside of it are as they were or are dropped
(`updateDocument_frame`).
-/

namespace ShellAnalysis

namespace Workspace

open WorkspaceIndex

variable {canonical : Path → Path} {ws ws' ws'' : Workspace} {fs : FileSystem} {file : FileId}

/-! ## What is known of a file -/

/-- The same is known of the file in two workspaces: its entry in the index, its script and its
text. -/
structure Agree (ws ws' : Workspace) (file : FileId) : Prop where
  entry : ws'.index.files.get? file = ws.index.files.get? file
  document : ws'.documents.get? file = ws.documents.get? file
  text : ws'.files.text? file = ws.files.text? file

/-- Nothing is known of the file but what its number stands for. -/
structure Forgot (ws : Workspace) (file : FileId) : Prop where
  entry : ws.index.files.get? file = none
  document : ws.documents.get? file = none
  text : ws.files.text? file = none

theorem Agree.refl (ws : Workspace) (file : FileId) : Agree ws ws file := ⟨rfl, rfl, rfl⟩

theorem Agree.trans (h : Agree ws ws' file) (h' : Agree ws' ws'' file) : Agree ws ws'' file :=
  ⟨h'.entry.trans h.entry, h'.document.trans h.document, h'.text.trans h.text⟩

theorem Agree.dependencies (h : Agree ws ws' file) :
    ws'.index.dependencies file = ws.index.dependencies file := by
  rw [WorkspaceIndex.dependencies, h.entry, WorkspaceIndex.dependencies]

theorem Forgot.of_agree (h : ws.Forgot file) (hagree : Agree ws ws' file) : ws'.Forgot file :=
  ⟨hagree.entry.trans h.entry, hagree.document.trans h.document, hagree.text.trans h.text⟩

/-- Only of tracked files something is known. -/
theorem Consistent.forgot (h : ws.Consistent) (hfile : file ∉ ws.index.fileIds) :
    ws.Forgot file where
  entry := OrderedMap.get?_eq_none.2 hfile
  document := OrderedMap.get?_eq_none.2 (h.documents_keys ▸ hfile)
  text := OrderedMap.get?_eq_none.2 (h.contents_keys ▸ hfile)

/-! ## Single steps -/

theorem setFile_agree {script : Script} (h : file ≠ (ws.setFile fs script).2) :
    Agree ws (ws.setFile fs script).1 file where
  entry := setFile_get? h
  document := by rw [setFile_documents, OrderedMap.get?_insert, if_neg h]
  text := by rw [FileTable.text?, setFile_contents, OrderedMap.get?_insert, if_neg h]; rfl

theorem addRoots_agree (ws : Workspace) (files : List FileId) (file : FileId) :
    Agree ws (ws.addRoots files) file := by
  obtain ⟨roots, hroots⟩ := addRoots_index ws files
  exact ⟨by rw [hroots], rfl, rfl⟩

theorem prune_agree (h : file ∈ ws.index.reachable) : Agree ws ws.prune file := by
  have hstays : ws.drops file = false := by
    rw [← Bool.not_eq_true, drops_iff]
    exact fun hdropped => hdropped.2 h
  refine ⟨?_, ?_, ?_⟩
  · rw [prune_get?_files, hstays]
    rfl
  · rw [prune_documents, OrderedMap.get?_filterKeys, hstays]
    rfl
  · rw [FileTable.text?, prune_files, OrderedMap.get?_filterKeys, hstays]
    rfl

theorem prune_forgot (hws : ws.Consistent) (h : file ∉ ws.index.reachable) :
    ws.prune.Forgot file :=
  hws.prune.forgot fun hkept => h (mem_prune_fileIds.1 hkept)

/-! ## Walks -/

/-- A walk changes nothing but the files that it loads. -/
theorem loadDependencies_agree (hws : ws.Settled canonical) (hfs : Names canonical fs)
    (start : FileId) (h : file ∉ (ws.loadDependencies fs start).2) :
    Agree ws (ws.loadDependencies fs start).1 file := by
  let I (trail : Trail) : Prop := trail.workspace.Settled canonical ∧
    ∀ file ∉ trail.loaded, Agree ws trail.workspace file
  suffices htrail : I (Trail.follow fs ws.options.maxDepth start ⟨ws, [start], []⟩) from
    htrail.2 file h
  refine Trail.follow_induction ?_ _ _ _ ⟨hws, fun _ _ => .refl ws _⟩
  rintro trail next ⟨hsettled, hagree⟩ -
  obtain ⟨entered, heq⟩ | ⟨script, -, hpath, -, heq⟩ := Trail.enter_cases trail fs next
  · rw [heq]
    exact ⟨hsettled, hagree⟩
  · rw [heq]
    refine ⟨(kept_settled hfs).setFile hsettled, fun file hfile => ?_⟩
    have hfile : file ∉ trail.loaded ∧ file ≠ next := by simpa using hfile
    have hother : file ≠ (trail.workspace.setFile fs script).2 := by
      rw [hsettled.setFile_known hfs hpath]
      exact hfile.2
    exact (hagree file hfile.1).trans (setFile_agree hother)

/-! ## Files that a walk loads -/

/-- Only tracked files have links, so a way to a tracked file goes through tracked files. -/
theorem mem_closure_of_hops {index : WorkspaceIndex} {start : FileId} {n : Nat}
    (h : Hops index.dependencies start n file) (hfile : file ∈ index.fileIds) :
    file ∈ index.closure start := by
  refine mem_walk.2 ?_
  induction h with
  | start => exact .start List.mem_cons_self hfile
  | step _ htarget ih => exact .step (ih (mem_fileIds_of_mem_dependencies htarget)) htarget hfile

theorem mem_closure_of_loaded (hsettled : ws.Settled canonical) (hlinked : ws.Linked)
    (hfs : Names canonical fs) {start : FileId} (h : file ∈ (ws.loadDependencies fs start).2) :
    file ∈ (ws.loadDependencies fs start).1.index.closure start := by
  have hsound := Trail.sound_follow hsettled hlinked hfs ws.options start
  obtain ⟨n, -, hway⟩ := hsound.way file h
  obtain ⟨_, _, -, -, hindexed⟩ := hsound.read file h
  exact mem_closure_of_hops (hway.mono (Trail.links_subset _)) hindexed.tracked

/-! ## Opening and updating a document -/

/-- The workspace in which the text of a document is tracked and nothing is loaded yet. -/
def withDocument (ws : Workspace) (fs : FileSystem) (path : Path) (text : String) : Workspace :=
  (ws.setFile fs (.analyze fs path text)).1.addRoots [(ws.files.intern fs path).2]

variable {path : Path} {text : String}

theorem withDocument_files : (ws.withDocument fs path text).files =
    ((ws.files.intern fs path).1.internAll fs (Script.analyze fs path text).targets).1.setText
      (ws.files.intern fs path).2 text := rfl

theorem withDocument_roots : (ws.withDocument fs path text).index.roots =
    (ws.index.addRoot (ws.files.intern fs path).2).roots := by
  have hroots : (ws.withDocument fs path text).index.roots =
      ((ws.setFile fs (.analyze fs path text)).1.index.addRoot
        (ws.files.intern fs path).2).roots := rfl
  rw [hroots, addRoot_roots, addRoot_roots]
  rfl

theorem withDocument_fileIds : (ws.withDocument fs path text).index.fileIds =
    if (ws.files.intern fs path).2 ∈ ws.index.fileIds then ws.index.fileIds
    else ws.index.fileIds ++ [(ws.files.intern fs path).2] := by
  obtain ⟨roots, hroots⟩ := addRoots_index (ws.setFile fs (.analyze fs path text)).1
    [(ws.files.intern fs path).2]
  rw [withDocument, hroots]
  exact fileIds_insert

theorem withDocument_dependencies : (ws.withDocument fs path text).index.dependencies file =
    if file = (ws.files.intern fs path).2 then
      ((((ws.files.intern fs path).1.internAll fs (Script.analyze fs path text).targets).2).filter
        (· ≠ (ws.files.intern fs path).2)).eraseDups
    else ws.index.dependencies file := by
  rw [withDocument, (addRoots_agree _ _ _).dependencies, setFile_index, dependencies_insert]
  rfl

theorem openDocument_fst : (ws.openDocument fs path text).1 =
    ((ws.withDocument fs path text).loadDependencies fs (ws.openDocument fs path text).2).1 := rfl

theorem Settled.withDocument (h : ws.Settled canonical) (hfs : Names canonical fs) :
    (ws.withDocument fs path text).Settled canonical :=
  (kept_settled hfs).addRoots _ ((kept_settled hfs).setFile h)

theorem Linked.withDocument (h : ws.Linked) : (ws.withDocument fs path text).Linked :=
  (kept_linked fs).addRoots _ h.setFile

theorem openDocument_roots : (ws.openDocument fs path text).1.index.roots =
    (ws.index.addRoot (ws.openDocument fs path text).2).roots := by
  rw [openDocument_fst, loadDependencies_roots, withDocument_roots]
  rfl

theorem openDocument_shows (h : ws.Settled canonical) (hfs : Names canonical fs) :
    (ws.openDocument fs path text).1.Shows (ws.openDocument fs path text).2 text :=
  (openDocument_holds h hfs).2

/-- An open changes nothing outside of the closure that the document has then. -/
theorem openDocument_agree (hsettled : ws.Settled canonical) (hlinked : ws.Linked)
    (hfs : Names canonical fs)
    (h : file ∉ (ws.openDocument fs path text).1.index.closure (ws.openDocument fs path text).2) :
    Agree ws (ws.openDocument fs path text).1 file := by
  have hdocument : file ≠ (ws.openDocument fs path text).2 := by
    rintro rfl
    exact h (mem_walk.2 (.start List.mem_cons_self (openDocument_shows hsettled hfs).tracked))
  have hbefore : Agree ws (ws.withDocument fs path text) file :=
    (setFile_agree hdocument).trans (addRoots_agree _ _ file)
  rw [openDocument_fst] at h ⊢
  refine hbefore.trans (loadDependencies_agree (hsettled.withDocument hfs) hfs _ fun hloaded => ?_)
  exact h (mem_closure_of_loaded (hsettled.withDocument hfs) hlinked.withDocument hfs hloaded)

theorem openDocument_mem_reachable (h : ws.Settled canonical) (hfs : Names canonical fs) :
    (ws.openDocument fs path text).2 ∈ (ws.openDocument fs path text).1.index.reachable := by
  have hshows : (ws.openDocument fs path text).1.Shows _ text := openDocument_shows h hfs
  exact mem_reachable.2 (.start (List.contains_iff_mem.1 hshows.root) hshows.tracked)

/-- An update leaves every file outside of the closure of its document as it was, if some root
reaches the file, and drops it otherwise.  What the roots reach when the document and its sources
have been read is what is tracked in the end. -/
theorem updateDocument_frame (h : Reached canonical ws) (hfs : Names canonical fs) (path : Path)
    (text : String) :
    let opened := (ws.openDocument fs path text).1
    let updated := (ws.updateDocument fs path text).1
    let document := (ws.updateDocument fs path text).2
    updated.index.roots = (ws.index.addRoot document).roots ∧
      (∀ file, file ∈ updated.index.fileIds ↔ file ∈ opened.index.reachable) ∧
      updated.index.reachable = opened.index.reachable ∧
      ∀ file ∉ updated.index.closure document,
        if file ∈ opened.index.reachable then Agree ws updated file else updated.Forgot file := by
  intro opened updated document
  have hconsistent : opened.Consistent :=
    (kept_consistent fs).openDocument path text h.settled.consistent
  have hclosure : updated.index.closure document = opened.index.closure document :=
    prune_closure (openDocument_mem_reachable h.settled hfs)
  refine ⟨openDocument_roots, fun file => mem_prune_fileIds, prune_reachable opened.index,
    fun file hfile => ?_⟩
  rw [hclosure] at hfile
  split
  · exact (openDocument_agree h.settled h.linked hfs hfile).trans (prune_agree ‹_›)
  · exact prune_forgot hconsistent ‹_›

/-! ## A file that is dropped, one that is kept and one that is read -/

/-- A walk from a file without links ends at once. -/
theorem loadDependencies_of_isolated (h : ws.index.dependencies file = []) :
    ws.loadDependencies fs file = (ws, []) := by
  unfold loadDependencies
  cases ws.options.maxDepth <;> simp [Trail.follow, h]

theorem smallDisk_targets_nil (path : Path) : (Script.analyze smallDisk path "").targets = [] := by
  have hroot : (parse "").root = ⟨⟨0, 0⟩, .program []⟩ := by with_unfolding_all rfl
  have hcommands : SourceCommand.findAll (parse "").root "" = [] := by
    rw [hroot, SourceCommand.findAll]
    simp only [Node.walk_eq, Node.children, Form.children, Node.form, List.mergeSort,
      List.flatMap_nil]
    rfl
  unfold Script.targets Script.analyze
  simp only [hcommands]
  rfl

/-- `/d` is tracked, and no root reaches it. -/
def strayWorkspace : Workspace :=
  ((empty { maxDepth := 1 }).setFile smallDisk (.analyze smallDisk ⟨"/d"⟩ "")).1

theorem strayWorkspace_files : strayWorkspace.files = ⟨[⟨"/d"⟩], ⟨[(0, "")]⟩⟩ := by
  have hfiles : strayWorkspace.files = ((FileTable.empty.intern smallDisk ⟨"/d"⟩).1.internAll
      smallDisk (Script.analyze smallDisk ⟨"/d"⟩ "").targets).1.setText 0 "" := rfl
  rw [hfiles, smallDisk_targets_nil]
  with_unfolding_all rfl

theorem strayWorkspace_dependencies : strayWorkspace.index.dependencies file = [] := by
  rw [strayWorkspace, setFile_index, dependencies_insert, sourced, smallDisk_targets_nil]
  split <;> rfl

/-- Besides, an editor has opened `/c`. -/
def looseWorkspace : Workspace := (strayWorkspace.openDocument smallDisk ⟨"/c"⟩ "").1

theorem looseWorkspace_eq : looseWorkspace = strayWorkspace.withDocument smallDisk ⟨"/c"⟩ "" ∧
    ∀ file, looseWorkspace.index.dependencies file = [] := by
  have hnone : ∀ file,
      (strayWorkspace.withDocument smallDisk ⟨"/c"⟩ "").index.dependencies file = [] := by
    intro file
    rw [withDocument_dependencies, smallDisk_targets_nil, strayWorkspace_dependencies]
    split <;> rfl
  have heq : looseWorkspace = strayWorkspace.withDocument smallDisk ⟨"/c"⟩ "" := by
    rw [looseWorkspace, openDocument_fst, loadDependencies_of_isolated (hnone _)]
  exact ⟨heq, fun file => heq ▸ hnone file⟩

theorem looseWorkspace_files :
    looseWorkspace.files = ⟨[⟨"/d"⟩, ⟨"/c"⟩], ⟨[(0, ""), (1, "")]⟩⟩ := by
  rw [looseWorkspace_eq.1, withDocument_files, smallDisk_targets_nil, strayWorkspace_files]
  with_unfolding_all rfl

theorem looseWorkspace_index :
    looseWorkspace.index.roots = [1] ∧ looseWorkspace.index.fileIds = [0, 1] := by
  rw [looseWorkspace_eq.1, withDocument_roots, withDocument_fileIds, strayWorkspace_files]
  exact ⟨by decide, by decide⟩

/-- The workspace in which `/a` sources `/b`, which is not read yet. -/
theorem looseWorkspace_document :
    let document := looseWorkspace.withDocument smallDisk ⟨"/a"⟩ "source b"
    (document.files.paths = [⟨"/d"⟩, ⟨"/c"⟩, ⟨"/a"⟩, ⟨"/b"⟩] ∧ document.index.roots = [1, 2] ∧
      document.index.fileIds = [0, 1, 2]) ∧
    ∀ file, document.index.dependencies file = if file = 2 then [3] else [] := by
  intro document
  obtain ⟨hroots, hfiles⟩ := looseWorkspace_index
  have htargets := smallDisk_targets ⟨"/a"⟩ (.inl rfl)
  refine ⟨⟨?_, ?_, ?_⟩, fun file => ?_⟩
  · rw [withDocument_files, htargets, looseWorkspace_files]
    decide
  · rw [withDocument_roots, addRoot_roots, isRoot, hroots, looseWorkspace_files]
    decide
  · rw [withDocument_fileIds, hfiles, looseWorkspace_files]
    decide
  · rw [withDocument_dependencies, looseWorkspace_eq.2, htargets, looseWorkspace_files]
    have hnumber :
        (FileTable.intern ⟨[⟨"/d"⟩, ⟨"/c"⟩], ⟨[(0, ""), (1, "")]⟩⟩ smallDisk ⟨"/a"⟩).2 = 2 := by
      decide
    rw [hnumber]
    split
    · decide
    · rfl

/-- `/b` is the one file that is read from the disk. -/
theorem looseWorkspace_opened :
    let opened := (looseWorkspace.openDocument smallDisk ⟨"/a"⟩ "source b").1
    (looseWorkspace.openDocument smallDisk ⟨"/a"⟩ "source b").2 = 2 ∧
      (opened.index.roots = [1, 2] ∧ opened.index.fileIds = [0, 1, 2, 3]) ∧
      ∀ file, opened.index.dependencies file = if file = 2 then [3] else [] := by
  intro opened
  obtain ⟨⟨hpaths, hroots, hfiles⟩, hdependencies⟩ := looseWorkspace_document
  let document := looseWorkspace.withDocument smallDisk ⟨"/a"⟩ "source b"
  have hnumber : (looseWorkspace.openDocument smallDisk ⟨"/a"⟩ "source b").2 = 2 := by
    show (looseWorkspace.files.intern smallDisk ⟨"/a"⟩).2 = 2
    rw [looseWorkspace_files]
    decide
  have hpath : document.files.path? 3 = some ⟨"/b"⟩ := by
    rw [FileTable.path?, hpaths]
    rfl
  have hload : Script.load smallDisk ⟨"/b"⟩ = .ok (.analyze smallDisk ⟨"/b"⟩ "source b") := rfl
  have hdepth : document.options.maxDepth = 1 := by
    show looseWorkspace.options.maxDepth = 1
    rw [looseWorkspace_eq.1]
    rfl
  have heq : opened = (document.setFile smallDisk (.analyze smallDisk ⟨"/b"⟩ "source b")).1 := by
    show (looseWorkspace.openDocument smallDisk ⟨"/a"⟩ "source b").1 = _
    rw [openDocument_fst, hnumber]
    have hroot : document.index.isRoot 3 = false := by
      rw [isRoot, hroots]
      rfl
    simp [document, loadDependencies, hdepth, Trail.follow, Trail.enter, hdependencies, hroot,
      hpath, hload]
  -- `/b` has its number already, and that it sources itself makes no link.
  have hknown : document.files.intern smallDisk ⟨"/b"⟩ = (document.files, 3) := by
    refine FileTable.intern_known ?_
    rw [FileTable.find?, hpaths]
    decide
  have hfile : (document.setFile smallDisk (.analyze smallDisk ⟨"/b"⟩ "source b")).2 = 3 :=
    congrArg Prod.snd hknown
  have hsourced : document.sourced smallDisk (.analyze smallDisk ⟨"/b"⟩ "source b") = [3] := by
    rw [sourced, smallDisk_targets ⟨"/b"⟩ (.inr rfl)]
    show (FileTable.internAll (document.files.intern smallDisk ⟨"/b"⟩).1 smallDisk _).2 = _
    simp [hknown, FileTable.internAll]
  rw [heq, setFile_index, hfile, hsourced]
  refine ⟨hnumber, ⟨hroots, ?_⟩, fun file => ?_⟩
  · rw [fileIds_insert, hfiles]
    rfl
  · rw [dependencies_insert, hdependencies]
    by_cases h3 : file = 3
    · subst h3
      rfl
    · rw [if_neg h3]

/-- The one link leads to `/b`, so a file that is reached is a start or `/b`. -/
theorem looseWorkspace_reaches {starts : List FileId} :
    let opened := (looseWorkspace.openDocument smallDisk ⟨"/a"⟩ "source b").1
    Reaches opened.index.dependencies opened.index.fileIds starts file →
      file ∈ starts ∨ file = 3 := by
  intro opened hway
  cases hway with
  | start hstart => exact .inl hstart
  | step _ htarget =>
    rw [looseWorkspace_opened.2.2] at htarget
    split at htarget
    · exact .inr (List.mem_singleton.1 htarget)
    · cases htarget

/-- An update of `/a` drops `/d`, keeps `/c`, which it does not source, and reads `/b`, which it
does. -/
theorem updateDocument_frame_small :
    let updated := looseWorkspace.updateDocument smallDisk ⟨"/a"⟩ "source b"
    Reached id looseWorkspace ∧ Names id smallDisk ∧
      3 ∈ updated.1.index.closure updated.2 ∧
      (0 ∈ looseWorkspace.index.fileIds ∧ 0 ∉ updated.1.index.closure updated.2 ∧
        updated.1.Forgot 0) ∧
      1 ∈ updated.1.index.fileIds ∧ 1 ∉ updated.1.index.closure updated.2 ∧
        Agree looseWorkspace updated.1 1 := by
  intro updated
  have hreached : Reached id looseWorkspace :=
    .perform (.openDocument ⟨"/c"⟩ "") (.setFile _ (.empty _) smallDisk_names) smallDisk_names
  obtain ⟨-, htracked, -, hframe⟩ :=
    updateDocument_frame hreached smallDisk_names ⟨"/a"⟩ "source b"
  obtain ⟨hnumber, ⟨hroots, hfiles⟩, hlinks⟩ := looseWorkspace_opened
  let opened := (looseWorkspace.openDocument smallDisk ⟨"/a"⟩ "source b").1
  have hclosure : updated.1.index.closure updated.2 = opened.index.closure 2 := by
    rw [← hnumber]
    exact prune_closure (openDocument_mem_reachable hreached.settled smallDisk_names)
  have hkept : 1 ∈ opened.index.reachable :=
    mem_reachable.2 (.start (by rw [hroots]; decide) (by rw [hfiles]; decide))
  have houtside : 0 ∉ opened.index.closure 2 ∧ 1 ∉ opened.index.closure 2 :=
    ⟨fun h => by simpa using looseWorkspace_reaches (mem_walk.1 h),
      fun h => by simpa using looseWorkspace_reaches (mem_walk.1 h)⟩
  have hdropped : 0 ∉ opened.index.reachable := by
    intro h
    have hstart := looseWorkspace_reaches (mem_reachable.1 h)
    rw [hroots] at hstart
    simp at hstart
  have hforgot := hframe 0 (hclosure ▸ houtside.1)
  have hagree := hframe 1 (hclosure ▸ houtside.2)
  rw [if_neg hdropped] at hforgot
  rw [if_pos hkept] at hagree
  rw [hclosure]
  refine ⟨hreached, smallDisk_names, mem_walk.2 (.step (.start (List.mem_singleton.2 rfl) ?_) ?_ ?_),
    ⟨?_, houtside.1, hforgot⟩, (htracked 1).2 hkept, houtside.2, hagree⟩
  · rw [hfiles]
    decide
  · rw [hlinks]
    decide
  · rw [hfiles]
    decide
  · rw [looseWorkspace_index.2]
    decide

end Workspace

end ShellAnalysis
