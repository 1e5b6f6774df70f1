import ShellAnalysis.Workspace.FileSystem
import ShellAnalysis.Workspace.Index

/-!
# Files by number

Every path that a workspace meets gets a number, counted from zero.  Paths are
made canonical first, so that all ways to write one file share its number;
where nothing is, as for an unsaved text, the path stays as it is.  A number is
never given to another path.
-/

namespace ShellAnalysis

structure FileTable where
  /-- The paths met so far; a file's number is its place. -/
  paths : List Path
  /-- The texts of the tracked files. -/
  contents : OrderedMap FileId String

namespace FileTable

def empty : FileTable := ⟨[], .empty⟩

def path? (table : FileTable) (file : FileId) : Option Path := table.paths[file]?

/-- The number of a canonical path. -/
def find? (table : FileTable) (path : Path) : Option FileId := table.paths.findIdx? path.same

/-- The number of a path that was met before. -/
def lookup? (table : FileTable) (fs : FileSystem) (path : Path) : Option FileId :=
  table.find? (fs.normalize path)

/-- The number of a path, the next free one if it is new. -/
def intern (table : FileTable) (fs : FileSystem) (path : Path) : FileTable × FileId :=
  let path := fs.normalize path
  match table.find? path with
  | some file => (table, file)
  | none => ({ table with paths := table.paths ++ [path] }, table.paths.length)

/-- The numbers of several paths, in order. -/
def internAll (table : FileTable) (fs : FileSystem) : List Path → FileTable × List FileId
  | [] => (table, [])
  | path :: rest =>
    let (table, file) := table.intern fs path
    let (table, files) := table.internAll fs rest
    (table, file :: files)

def text? (table : FileTable) (file : FileId) : Option String := table.contents.get? file

def setText (table : FileTable) (file : FileId) (text : String) : FileTable :=
  { table with contents := table.contents.insert file text }

/-- Forgets a text.  The path keeps its number. -/
def clearText (table : FileTable) (file : FileId) : FileTable :=
  { table with contents := table.contents.erase file }

end FileTable

end ShellAnalysis
