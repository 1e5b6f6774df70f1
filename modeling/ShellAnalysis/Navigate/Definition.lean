import ShellAnalysis.Navigate.Identifier
import ShellAnalysis.Workspace.Index

/-!
# Going to a definition

The declarations of the identifier under the cursor.  For `base.key` the
literal keys of a constant `base` come first, and `base` itself is looked up if
there is no such key.  A hyphenated name that is not declared may be a
subtraction; then the part under the cursor is looked up.
-/

namespace ShellAnalysis

/-- A place to go to. -/
structure NavigationTarget where
  file : FileId
  name : String
  kind : SymbolKind
  /-- The whole declaration. -/
  full : Span
  /-- The name or the key. -/
  focus : Span
  focusLines : LineSpan

namespace NavigationTarget

def ofSymbol (found : SymbolMatch) : NavigationTarget :=
  ⟨found.file, found.symbol.name, found.symbol.kind, found.symbol.span, found.symbol.nameSpan,
    found.symbol.nameLines⟩

def ofKey (name : String) (found : KeyMatch) : NavigationTarget :=
  ⟨found.file, name, found.symbol.kind, found.symbol.span, found.key.span, found.key.lines⟩

end NavigationTarget

namespace Definition

/-- The start of the hyphen-free part that ends at `i`, not before `start`. -/
def partStart (text : String) (start : Nat) : Nat → Nat
  | 0 => start
  | i + 1 =>
    if i + 1 ≤ start then start
    else if Text.hasByte text i 0x2d then i + 1
    else partStart text start i

/-- The part between hyphens of an identifier that the offset lies in.  None if the offset cuts a
character, `some none` if the part is empty. -/
def partAt? (text : String) (span : Span) (offset : Nat) : Option (Option String) :=
  let i := max span.start (min offset span.stop)
  if Text.isBoundary text i then
    let start := partStart text span.start i
    let stop := min (Text.find text 0x2d i) span.stop
    let part := Text.slice text start stop
    some (if part.isEmpty then none else some part)
  else none

/-- The declarations of the name, or of the part of it under the cursor if it is a hyphenated name
that is not declared. -/
def lookup? (index : WorkspaceIndex) (file : FileId) (text : String) (ident : IdentifierAt)
    (name : String) (offset : Nat) : Option (List SymbolMatch) :=
  let found := index.lookup file name
  if found.isEmpty && name.toList.contains '-' then
    (partAt? text ident.span offset).map fun
      | some part => index.lookup file part
      | none => []
  else some found

end Definition

open Definition in
/-- The definitions of the identifier at the offset in the text of a file.  None if the offset cuts
a character where a part of the name is looked for. -/
def gotoDefinition? (index : WorkspaceIndex) (file : FileId) (text : String) (offset : Nat) :
    Option (List NavigationTarget) :=
  match identifierAt text offset with
  | none => some []
  | some ident =>
    match ident.base with
    | none => (lookup? index file text ident ident.name offset).map (·.map .ofSymbol)
    | some base =>
      let keys := index.lookupKey (some file) base ident.name
      if keys.isEmpty then (lookup? index file text ident base offset).map (·.map .ofSymbol)
      else some (keys.map (.ofKey ident.name))

end ShellAnalysis
