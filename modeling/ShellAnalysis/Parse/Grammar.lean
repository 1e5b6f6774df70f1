import ShellAnalysis.Parse.Basic

/-!
# Levels of the grammar

The productions of the grammar call each other in circles: a command has
words, a word has substitutions, a substitution has commands.  Every circle
passes through a construct that counts towards the nesting limit.  So the
productions are written for one level, over an action `enter` that counts the
construct and gives the grammar of the next level in, and no production calls
itself.  `Grammar` holds what is used of that next level.
-/

namespace ShellAnalysis.Parse

/-- What ends a statement list. -/
inductive StopAt where
  | braceClose
  | parenClose
  | backtick
  | semiSemi
  | keyword (word : String)
  deriving Repr, DecidableEq, Inhabited

/-- Does this end the list at the current token? -/
def StopAt.holds : StopAt → Parser Bool
  | braceClose => atKind .braceClose
  | parenClose => atKind .parenClose
  | backtick => atKind .backtick
  | semiSemi => atKind .semiSemi
  | keyword word => atKeyword word

/-- Is the current token one of those that end the list? -/
def atStop (stops : List StopAt) : Parser Bool := stops.anyM StopAt.holds

/-- The productions of one level that are used from the level around it. -/
structure Grammar where
  /-- Statements up to a stop or the end.  With the flag the list also ends after a command with
  a block argument. -/
  statements : List StopAt → Bool → Parser (List Node)
  /-- An expression whose operators bind at least this strongly. -/
  expression : Nat → Parser Node
  /-- The same, after the expression was entered. -/
  operators : Nat → Parser Node
  word : Parser Node
  stringLiteral : Parser Node
  /-- Statements in braces. -/
  block : Parser Node

/-- The span of a list of nodes, or an empty one at the offset. -/
def coverAll (nodes : List Node) (offset : Nat) : Span :=
  match nodes.head?, nodes.getLast? with
  | some first, some last => first.span.cover last.span
  | _, _ => .empty offset

/-- A block over a list of statements. -/
def blockOf (statements : List Node) (offset : Nat) : Node :=
  .make (.block statements) (coverAll statements offset)

end ShellAnalysis.Parse
