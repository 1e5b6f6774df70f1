import ShellAnalysis.Text.LowerCase
import ShellAnalysis.Workspace.Index

/-!
# Searching for symbols

The declarations of the workspace whose names hold a text, whatever its case.
Parameters are left out.
-/

namespace ShellAnalysis

/-- Does the list stand somewhere in the other one? -/
def occursIn (needle : List Char) : List Char → Bool
  | [] => needle.isEmpty
  | c :: rest => needle.isPrefixOf (c :: rest) || occursIn needle rest

/-- Does the name hold the text, whatever its case? -/
def nameMatches (query name : String) : Bool :=
  occursIn (Text.toLower query).toList (Text.toLower name).toList

/-- The declarations whose names hold the text. -/
def workspaceSymbols (index : WorkspaceIndex) (query : String) : List SymbolMatch :=
  index.files.entries.flatMap fun (file, entry) =>
    (entry.symbols.byName.filter fun symbol =>
      symbol.kind != .param && nameMatches query symbol.name).map (⟨file, ·⟩)

end ShellAnalysis
