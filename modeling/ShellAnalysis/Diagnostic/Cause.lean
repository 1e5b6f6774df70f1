/-!
# Causes of diagnostics

What can go wrong while a script is read, as values, with the wording of each
in one place.
-/

namespace ShellAnalysis

/-- A literal that could not be read to its end. -/
inductive LexicalError where
  | unterminatedString
  | unterminatedMultilineString
  | unterminatedHeredoc (delimiter : String)
  | unterminatedRegex
  | delimiterTooLong (length max : Nat)
  deriving Repr, DecidableEq, Inhabited

namespace LexicalError

def message : LexicalError → String
  | unterminatedString => "unterminated string literal"
  | unterminatedMultilineString => "unterminated multiline string literal"
  | unterminatedHeredoc delimiter =>
    "unterminated heredoc: missing terminator `" ++ delimiter ++ "`"
  | unterminatedRegex => "unterminated regex literal"
  | delimiterTooLong length max =>
    s!"heredoc delimiter is {length} bytes long, the maximum is {max}"

end LexicalError

/-- A limit on the work of one parse that was exceeded. -/
inductive LimitError where
  | tokens (limit : Nat)
  | iterations (limit : Nat)
  | nesting (limit : Nat)
  | chain (limit : Nat)
  deriving Repr, DecidableEq, Inhabited

namespace LimitError

def message : LimitError → String
  | tokens limit => s!"token limit of {limit} exceeded"
  | iterations limit => s!"iteration limit of {limit} exceeded"
  | nesting limit => s!"nesting depth limit of {limit} exceeded"
  | chain limit => s!"operator chain limit of {limit} exceeded"

/-- Limits on one construct: the statement that exceeds one is given up and reading goes on at
the next line.  The other limits end the whole parse. -/
def isLocal : LimitError → Bool
  | nesting _ | chain _ => true
  | tokens _ | iterations _ => false

end LimitError

end ShellAnalysis
