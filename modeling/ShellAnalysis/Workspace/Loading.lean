import ShellAnalysis.Workspace.Basic

/-!
# Loading from the file system

`loadDependencies` follows the `source` commands of a tracked file, depth
first, and loads every file on the way once.  Roots keep their text, since an
editor may own it, but what they source is followed too.
-/

namespace ShellAnalysis

namespace Workspace

/-! ## What a file sources -/

/-- A walk along `source` commands. -/
structure Trail where
  workspace : Workspace
  /-- The files met so far. -/
  visited : List FileId
  /-- The files loaded so far, in order. -/
  loaded : List FileId

/-- Loads a file that the walk meets, unless it is a root.  False if that fails. -/
def Trail.enter (trail : Trail) (fs : FileSystem) (file : FileId) : Trail × Bool :=
  let trail := { trail with visited := file :: trail.visited }
  if trail.workspace.index.isRoot file then (trail, true)
  else
    match (trail.workspace.files.path? file).map (Script.load fs) with
    | some (.ok script) =>
      ({ trail with
          workspace := (trail.workspace.setFile fs script).1
          loaded := trail.loaded ++ [file] }, true)
    | _ => (trail, false)

/-- Walks on from a file for at most so many steps. -/
def Trail.follow (fs : FileSystem) : Nat → FileId → Trail → Trail
  | 0, _, trail => trail
  | depth + 1, file, trail =>
    (trail.workspace.index.dependencies file).foldl (fun trail next =>
      if trail.visited.contains next then trail
      else
        match trail.enter fs next with
        | (trail, true) => Trail.follow fs depth next trail
        | (trail, false) => trail) trail

/-- Loads what a tracked file sources; also gives the loaded files, in the order of the walk. -/
def loadDependencies (ws : Workspace) (fs : FileSystem) (file : FileId) :
    Workspace × List FileId :=
  let trail := Trail.follow fs ws.options.maxDepth file ⟨ws, [file], []⟩
  (trail.workspace, trail.loaded)

/-! ## Files and directories -/

/-- Loads a file and what it sources. -/
def loadFile (ws : Workspace) (fs : FileSystem) (path : Path) :
    Except LoadError (Workspace × FileId) :=
  match Script.load fs path with
  | .ok script =>
    let (ws, file) := ws.setFile fs script
    .ok ((ws.loadDependencies fs file).1, file)
  | .error error => .error error

/-- What came of loading a directory. -/
structure LoadSummary where
  loaded : List FileId
  failed : List LoadError

/-- Tracks every script of the list that can be read. -/
def setFiles (ws : Workspace) (fs : FileSystem) : List Path → Workspace × LoadSummary
  | [] => (ws, ⟨[], []⟩)
  | path :: rest =>
    match Script.load fs path with
    | .ok script =>
      let (ws, file) := ws.setFile fs script
      let (ws, summary) := ws.setFiles fs rest
      (ws, { summary with loaded := file :: summary.loaded })
    | .error error =>
      let (ws, summary) := ws.setFiles fs rest
      (ws, { summary with failed := error :: summary.failed })

/-- Loads what each of the files sources. -/
def loadAllDependencies (ws : Workspace) (fs : FileSystem) (files : List FileId) : Workspace :=
  files.foldl (fun ws file => (ws.loadDependencies fs file).1) ws

/-- Loads the scripts below a directory as roots, and what they source. -/
def loadDirectory (ws : Workspace) (fs : FileSystem) (directory : Path) :
    Except LoadError (Workspace × LoadSummary) :=
  match scriptsBelow fs ws.options.extensions directory with
  | .ok paths =>
    let (ws, summary) := ws.setFiles fs paths
    let ws := (ws.addRoots summary.loaded).loadAllDependencies fs summary.loaded
    .ok ({ ws with fromDirectories := ws.fromDirectories ++ summary.loaded }, summary)
  | .error error => .error error

end Workspace

end ShellAnalysis
