import ShellAnalysis.Parse.Statement

/-!
# Parsing a document

`parse text limits` always gives a program over the whole text and the
diagnostics in source order.  If a limit on the whole document is exceeded, the
statements read before it stay, and one error node stands for the rest.
-/

namespace ShellAnalysis

/-- A parsed document. -/
structure Parsed where
  root : Node
  diagnostics : List Diagnostic

namespace Parsed

def hasErrors (p : Parsed) : Bool := Diagnostic.anyError p.diagnostics

/-- The top-level statements. -/
def statements (p : Parsed) : List Node := p.root.statements

end Parsed

namespace Parse

/-- Reads all statements of a document. -/
def program (limits : Limits) : Parser Unit := statementList (enterLevel limits.depth) [] false

/-- How reading a document ends, with the last state. -/
def run (text : String) (limits : Limits) : EStateM.Result Stopped State Unit :=
  program limits ⟨text, limits⟩ .initial

/-- A program over the whole text. -/
def programNode (text : String) (statements : List Node) : Node :=
  .make (.program statements) (.upTo 0 (Text.size text))

/-- The diagnostics of heredocs whose bodies never began. -/
def pendingDiagnostics (s : State) : List Diagnostic :=
  s.pending.map fun h => .lexical (.unterminatedHeredoc h.delimiter) (.empty s.pos)

/-- The end of the last statement, or the start of the text. -/
def lastStop (statements : List Node) : Nat :=
  match statements.getLast? with
  | some last => last.span.stop
  | none => 0

/-- What is made of the way reading ended. -/
def conclude (text : String) : EStateM.Result Stopped State Unit → Parsed
  | .ok _ s =>
    ⟨programNode text s.statements.toList,
      Diagnostic.inSourceOrder (s.diagnostics.toList ++ pendingDiagnostics s)⟩
  | .error (.limit error) s =>
    let statements := s.statements.toList
    let rest := Span.upTo (lastStop statements) (Text.size text)
    ⟨programNode text (if rest.isEmpty then statements else statements ++ [.error rest]),
      Diagnostic.inSourceOrder (s.diagnostics.toList ++ [.limit error rest])⟩
  | .error .fault _ =>
    ⟨programNode text [], [.fault (.upTo 0 (Text.size text))]⟩

end Parse

/-- Parses a document under limits on the work. -/
def parseWith (limits : Limits) (text : String) : Parsed :=
  Parse.conclude text (Parse.run text limits)

/-- Parses a document under the usual limits. -/
def parse (text : String) : Parsed := parseWith {} text

end ShellAnalysis
