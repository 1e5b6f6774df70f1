import ShellAnalysis.Text.LineIndex

/-!
# Symbols

A symbol is one declaration of a name.  An outline item is a symbol with the
declarations inside it.
-/

namespace ShellAnalysis

inductive SymbolKind where
  | proc
  | func
  | var
  | const
  | param
  deriving Repr, DecidableEq, Inhabited

namespace SymbolKind

/-- The word shown to people. -/
def display : SymbolKind → String
  | proc => "proc"
  | func => "func"
  | var => "var"
  | const => "const"
  | param => "param"

def isCallable : SymbolKind → Bool
  | proc | func => true
  | var | const | param => false

end SymbolKind

/-- A literal key of a dict and where it stands. -/
structure KeyInfo where
  key : String
  span : Span
  lines : LineSpan
  deriving Repr, DecidableEq, Inhabited

/-- One declaration. -/
structure SymbolInfo where
  name : String
  kind : SymbolKind
  /-- The whole declaring construct. -/
  span : Span
  /-- The name alone. -/
  nameSpan : Span
  lines : LineSpan
  nameLines : LineSpan
  /-- The parameter names of a callable. -/
  params : Option (List String)
  /-- A short signature. -/
  detail : Option String
  /-- The literal keys, if the value is a dict literal. -/
  keys : Option (List KeyInfo)
  deriving Repr, DecidableEq, Inhabited

/-- The entry of a literal key. -/
def SymbolInfo.key? (symbol : SymbolInfo) (key : String) : Option KeyInfo :=
  (symbol.keys.getD []).find? (·.key == key)

/-- A declaration and those inside it. -/
inductive OutlineItem where
  | mk (symbol : SymbolInfo) (children : List OutlineItem)

namespace OutlineItem

def symbol : OutlineItem → SymbolInfo
  | mk s _ => s

def children : OutlineItem → List OutlineItem
  | mk _ c => c

end OutlineItem

end ShellAnalysis
