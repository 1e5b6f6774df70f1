import ShellAnalysis.Workspace.Basic

/-!
# Links of a document

The `source` arguments of a document that name a file, for an editor to make
them links.
-/

namespace ShellAnalysis

/-- A `source` argument that names a file. -/
structure DocumentLink where
  /-- The argument. -/
  lines : LineSpan
  target : Path
  /-- The number of the file, if its path was met. -/
  file : Option FileId
  deriving Repr, DecidableEq

namespace DocumentLink

/-- What an editor shows for a link. -/
def tooltip (link : DocumentLink) : String := "Open " ++ link.target.text

end DocumentLink

/-- The links of a script, in source order. -/
def documentLinks (fs : FileSystem) (files : FileTable) (script : Script) : List DocumentLink :=
  script.links.filterMap fun link =>
    link.target.map fun target =>
      ⟨script.symbols.lineIndex.lineSpan link.command.span, target, files.lookup? fs target⟩

end ShellAnalysis
