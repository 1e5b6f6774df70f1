import ShellAnalysis.Navigate.Definition
import ShellAnalysis.Navigate.Folding
import ShellAnalysis.Navigate.Links

/-!
# Questions about tracked files

What an editor asks of a workspace.  A file that is not tracked has nothing to
show.
-/

namespace ShellAnalysis

namespace Workspace

def diagnostics (ws : Workspace) (file : FileId) : List Diagnostic :=
  match ws.documents.get? file with
  | some script => script.parsed.diagnostics
  | none => []

/-- The definitions of the identifier at an offset.  None only if the offset cuts a character where
a part of the name is looked for. -/
def definitions? (ws : Workspace) (file : FileId) (offset : Nat) :
    Option (List NavigationTarget) :=
  match ws.documents.get? file with
  | some script => gotoDefinition? ws.index file script.text offset
  | none => some []

/-- The outline of a file's declarations. -/
def outline (ws : Workspace) (file : FileId) : List OutlineItem :=
  match ws.index.symbols? file with
  | some symbols => symbols.outline
  | none => []

def folding (ws : Workspace) (file : FileId) : List FoldingRange :=
  match ws.documents.get? file with
  | some script => foldingRanges script.parsed.root script.text script.symbols.lineIndex
  | none => []

def links (ws : Workspace) (fs : FileSystem) (file : FileId) : List DocumentLink :=
  match ws.documents.get? file with
  | some script => documentLinks fs ws.files script
  | none => []

end Workspace

end ShellAnalysis
