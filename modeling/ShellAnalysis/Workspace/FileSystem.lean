import ShellAnalysis.Workspace.Path

/-!
# What the workspace asks of a file system

The operations of a workspace read files through a few questions.  Nothing is
assumed of the answers, and they may change from one operation to the next.
-/

namespace ShellAnalysis

/-- A state of a file system, as far as a workspace looks at it. -/
structure FileSystem where
  /-- The one path without links that leads to the same place; none if nothing is there. -/
  canonical? : Path → Option Path
  isFile : Path → Bool
  isDirectory : Path → Bool
  /-- The text of a file; none if it cannot be read or is no text. -/
  read? : Path → Option String
  /-- The files below a directory, links followed, in any order; none if the directory itself
  cannot be walked. -/
  filesBelow? : Path → Option (List Path)

namespace FileSystem

/-- The canonical path, or the path itself where nothing is. -/
def normalize (fs : FileSystem) (path : Path) : Path := (fs.canonical? path).getD path

end FileSystem

end ShellAnalysis
