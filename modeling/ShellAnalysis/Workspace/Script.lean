import ShellAnalysis.Parse.Program
import ShellAnalysis.Symbol.Table
import ShellAnalysis.Workspace.SourceCommand
import ShellAnalysis.Workspace.SourcePath

/-!
# Scripts

A script is a text together with what the analysis finds in it: its tree, its
declarations and the files its `source` commands name.
-/

namespace ShellAnalysis

/-- Why files were not loaded. -/
inductive LoadError where
  /-- The file cannot be read or is no text. -/
  | unreadable (path : Path)
  | notADirectory (path : Path)
  /-- The directory itself cannot be walked. -/
  | unwalkable (path : Path)
  deriving Repr, DecidableEq

namespace LoadError

/-- What was to be loaded. -/
def path : LoadError → Path
  | .unreadable path | .notADirectory path | .unwalkable path => path

end LoadError

/-- A `source` command and the file it names. -/
structure SourceLink where
  command : SourceCommand
  /-- The canonical path of the file, if there is one. -/
  target : Option Path
  deriving Repr, DecidableEq

/-- An analyzed script. -/
structure Script where
  path : Path
  text : String
  parsed : Parsed
  symbols : SymbolTable
  links : List SourceLink

namespace Script

/-- The analysis of a text.  The path only tells where `source` arguments are read from. -/
def analyze (fs : FileSystem) (path : Path) (text : String) : Script :=
  let parsed := parse text
  { path
    text
    parsed
    symbols := .build parsed.root text
    links := (SourceCommand.findAll parsed.root text).map fun command =>
      ⟨command, SourcePath.resolve? fs command.path path⟩ }

/-- The analysis of a file. -/
def load (fs : FileSystem) (path : Path) : Except LoadError Script :=
  match fs.read? path with
  | some text => .ok (analyze fs path text)
  | none => .error (.unreadable path)

/-- The files that its `source` commands name, in order. -/
def targets (script : Script) : List Path := script.links.filterMap (·.target)

end Script

/-! ## Scripts in a directory -/

/-- Does the path end in one of the extensions? -/
def isScript (extensions : List String) (path : Path) : Bool :=
  match path.extension? with
  | some extension => extensions.contains extension
  | none => false

/-- The scripts below a directory, in the order of paths. -/
def scriptsBelow (fs : FileSystem) (extensions : List String) (directory : Path) :
    Except LoadError (List Path) :=
  if fs.isDirectory directory then
    match fs.filesBelow? directory with
    | some files => .ok ((files.filter (isScript extensions)).mergeSort Path.ahead)
    | none => .error (.unwalkable directory)
  else .error (.notADirectory directory)

end ShellAnalysis
