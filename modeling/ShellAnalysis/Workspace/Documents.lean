import ShellAnalysis.Workspace.Loading

/-!
# Documents of an editor

An editor hands its texts to the workspace when it opens and changes them.  An
open document is a root: its text is the editor's, whatever the file says.
After a change or a close, files that no root reaches any more are dropped.
-/

namespace ShellAnalysis

namespace Workspace

/-- Tracks a text of the editor as a root and loads what it sources. -/
def openDocument (ws : Workspace) (fs : FileSystem) (path : Path) (text : String) :
    Workspace × FileId :=
  let (ws, file) := ws.setFile fs (.analyze fs path text)
  (((ws.addRoots [file]).loadDependencies fs file).1, file)

/-- Takes over a changed text of the editor. -/
def updateDocument (ws : Workspace) (fs : FileSystem) (path : Path) (text : String) :
    Workspace × FileId :=
  let (ws, file) := ws.openDocument fs path text
  (ws.prune, file)

/-- Reads a tracked file again.  If that fails, its text stays. -/
def reload (ws : Workspace) (fs : FileSystem) (file : FileId) : Workspace :=
  match (ws.files.path? file).map (Script.load fs) with
  | some (.ok script) => (ws.setFile fs script).1
  | _ => ws

/-- Gives a document back to the file system.  It stays tracked if it came with a directory or
some root sources it.  False if the path was never met. -/
def closeDocument (ws : Workspace) (fs : FileSystem) (path : Path) : Workspace × Bool :=
  match ws.files.lookup? fs path with
  | none => (ws, false)
  | some file =>
    let index := if ws.fromDirectories.contains file then ws.index else ws.index.removeRoot file
    let ws := { ws with index }.prune
    (if ws.index.contains file then ws.reload fs file else ws, true)

end Workspace

end ShellAnalysis
