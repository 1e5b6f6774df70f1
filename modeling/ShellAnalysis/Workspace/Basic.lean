import ShellAnalysis.Workspace.FileTable
import ShellAnalysis.Workspace.Script

/-!
# Workspaces

A workspace tracks open documents, loaded directories and the files they
source.  `setFile` is the one way in and `prune` the one way out: they keep the
texts, the documents and the index of the tracked files together.
-/

namespace ShellAnalysis

/-- What a workspace loads by itself. -/
structure LoadOptions where
  /-- Files further away from a script, counted in `source` commands, are not loaded. -/
  maxDepth : Nat := 10
  /-- The extensions of scripts in directories. -/
  extensions : List String := ["ysh", "osh", "sh"]

structure Workspace where
  files : FileTable
  index : WorkspaceIndex
  documents : OrderedMap FileId Script
  /-- The files that came with a directory; they stay when they are closed. -/
  fromDirectories : List FileId
  options : LoadOptions

namespace Workspace

def empty (options : LoadOptions) : Workspace := ⟨.empty, .empty, .empty, [], options⟩

/-- The number of a path, if the file is tracked. -/
def fileId? (ws : Workspace) (fs : FileSystem) (path : Path) : Option FileId :=
  (ws.files.lookup? fs path).filter ws.index.contains

/-- Tracks a script, in place of what was known of its file.  Does not load what it sources. -/
def setFile (ws : Workspace) (fs : FileSystem) (script : Script) : Workspace × FileId :=
  let (files, id) := ws.files.intern fs script.path
  let (files, dependencies) := files.internAll fs script.targets
  ({ ws with
      files := files.setText id script.text
      index := ws.index.insert id script.symbols dependencies
      documents := ws.documents.insert id script }, id)

/-- Stops tracking the files that no root reaches. -/
def prune (ws : Workspace) : Workspace :=
  let (index, dropped) := ws.index.prune
  { ws with
    index
    files := dropped.foldl .clearText ws.files
    documents := dropped.foldl .erase ws.documents }

/-- Makes files roots, in order. -/
def addRoots (ws : Workspace) (files : List FileId) : Workspace :=
  { ws with index := files.foldl .addRoot ws.index }

end Workspace

end ShellAnalysis
