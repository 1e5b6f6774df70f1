import ShellAnalysis.Parse.Control

/-!
# Statements

A statement list is a run of command lists parted by newlines and semicolons.
A statement that exceeds a limit on one construct becomes an error node, and
the list goes on at the next line.
-/

namespace ShellAnalysis.Parse

/-! ## Commands -/

/-- Words that only go on with or close a compound command. -/
def reserved : List String := ["then", "fi", "do", "done", "elif", "else", "esac"]

/-- A statement that starts with a keyword. -/
structure KeywordStatement where
  node : Node
  /-- It is a compound command, after which redirects may stand. -/
  compound : Bool

/-- How a statement is read that starts with this word, if the word is a keyword. -/
def simpleKeyword? (enter : Parser Grammar) : String → Option (Parser Node)
  | "proc" => some (procDef enter)
  | "func" => some (funcDef enter)
  | "var" => some (varDecl enter .var)
  | "const" => some (varDecl enter .const)
  | "setvar" => some (mutation enter .setvar)
  | "setglobal" => some (mutation enter .setglobal)
  | "call" => some (exprStatement enter .call)
  | "function" => some (functionKeyword enter)
  | word => if reserved.contains word then some (forceAdvance "a command") else none

/-- How a compound command is read that starts with this word, if the word is a keyword. -/
def compoundKeyword? (enter : Parser Grammar) : String → Option (Parser Node)
  | "if" => some (ifStatement enter)
  | "while" => some (whileStatement enter false)
  | "until" => some (whileStatement enter true)
  | "for" => some (forStatement enter)
  | "case" => some (caseStatement enter)
  | _ => none

/-- A statement that starts with a reserved word, or a mutation without one. -/
def keywordStatement? (enter : Parser Grammar) : Parser (Option KeywordStatement) := do
  let t ← current
  if ← gluedAfter t then return none
  let word ← tokenText t
  match simpleKeyword? enter word, compoundKeyword? enter word with
  | some p, _ => return some ⟨← p, false⟩
  | none, some p => return some ⟨← p, true⟩
  | none, none =>
    if ← atBareMutation then return some ⟨← mutation enter .bare, false⟩ else return none

/-- A compound command with the redirects after it. -/
def withRedirects (enter : Parser Grammar) (start : Nat) (node : Node) : Parser Node := do
  if !(← atRedirect) then return node
  let redirects ← manyWhile atRedirect (redirect enter)
  return .make (.redirected node redirects) (← spanFrom start)

/-- One command of any kind. -/
def command (enter : Parser Grammar) : Parser Node := do
  let start ← startOffset
  match ← currentKind with
  | .braceOpen => withRedirects enter start (← braceBlock enter)
  | .parenOpen => withRedirects enter start (← subshell enter)
  | .equal => exprStatement enter .equals
  | .ident =>
    match ← keywordStatement? enter with
    | some k => if k.compound then withRedirects enter start k.node else return k.node
    | none => simpleCommand enter
  | _ => simpleCommand enter

/-! ## Pipelines and command lists -/

/-- The stages of a pipeline after the first.  A stage that consumes nothing is missing and is the
last one. -/
def moreStages (enter : Parser Grammar) (first : Node) : Parser (List Node) :=
  repeatRounds #[first] fun stages => do
    if !(← eat .pipe) then return .finish stages.toList
    skipNewlines
    let before ← position
    let stage ← command enter
    if (← position) == before then
      return .finish (stages.push (← missing "a command")).toList
    else return .again (stages.push stage)

/-- Commands joined by `|`, or one command. -/
def pipeline (enter : Parser Grammar) : Parser Node := do
  let start ← startOffset
  let negated ← eat .bang
  let first ← command enter
  if !negated && !(← atKind .pipe) then return first
  let stages ← moreStages enter first
  return .make (.pipeline negated stages []) (← spanFrom start)

/-- The connective at the current token. -/
def connective? : TokenKind → Option Connective
  | .ampAmp => some .and
  | .pipePipe => some .or
  | _ => none

/-- The pipelines of a command list after the first.  One that consumes nothing is missing and is
the last one. -/
def morePipelines (enter : Parser Grammar) (first : Node) : Parser (Form Node) :=
  repeatRounds ((#[], #[first]) : Array Connective × Array Node) fun (ops, commands) => do
    match connective? (← currentKind) with
    | none => return .finish (.andOr ops.toList commands.toList [])
    | some op =>
      discard bump
      skipNewlines
      let before ← position
      let next ← pipeline enter
      if (← position) == before then
        let last ← missing "a command"
        return .finish (.andOr (ops.push op).toList (commands.push last).toList [])
      else return .again (ops.push op, commands.push next)

/-- Pipelines joined by `&&` and `||`, or one pipeline. -/
def pipelines (enter : Parser Grammar) : Parser Node := do
  let start ← startOffset
  let first ← pipeline enter
  if (connective? (← currentKind)).isSome then
    return .make (← morePipelines enter first) (← spanFrom start)
  else return first

/-- A command list, with an optional `&` at the end. -/
def andOr (enter : Parser Grammar) : Parser Node := do
  let start ← startOffset
  let node ← pipelines enter
  if ← eat .amp then return .make (.background node) (← spanFrom start)
  else return node

/-! ## Heredoc bodies -/

/-- Adds a heredoc body to the statements.  One that was read in the middle of the last statement
goes into it; none if that statement has no place for it. -/
def placeBody? (statements : Array Node) (body : Node) : Option (Array Node) :=
  match statements.back? with
  | none => some (statements.push body)
  | some last =>
    if last.span.stop ≤ body.span.start then some (statements.push body)
    else (last.attachHeredoc? body).map fun last => statements.pop.push last

/-- Adds the heredoc bodies in turn; a body without a place is dropped with a warning. -/
def placeBodies : List Node → Parser Unit
  | [] => pure ()
  | body :: rest => do
    match placeBody? (← get).statements body with
    | some statements => modify fun s => { s with statements }
    | none => report (.detachedHeredoc body.span)
    placeBodies rest

/-- Moves the heredoc bodies that were read into the open statement list. -/
def drainHeredocs : Parser Unit := do
  let bodies := (← get).bodies
  modify fun s => { s with bodies := [] }
  placeBodies bodies

/-! ## Lists -/

def pushStatement (node : Node) : Parser Unit :=
  modify fun s => { s with statements := s.statements.push node }

/-- Gives up a statement that exceeded a limit: goes back to the nesting it started in and skips
to the end of the line. -/
def abandon (error : LimitError) (start : Nat) (nesting : Nesting) : Parser Node := do
  modifyNesting fun _ => nesting
  whileHolds (do
    let kind ← currentKind
    return kind != .newline && kind != .eof) (discard bump)
  let span ← spanFrom start
  report (.limit error span)
  return .error span

/-- Is the statement that was just read separated from the next one? -/
def separated (stops : List StopAt) (statement : Node) : Parser Bool := do
  if let ⟨_, .background _⟩ := statement then return true
  match ← currentKind with
  | .newline | .semi | .eof => return true
  | _ => atStop stops

/-- One round of a statement list: separators, then a statement or the end. -/
def statementRound (enter : Parser Grammar) (stops : List StopAt) (stopAfterBlock : Bool) :
    Parser (Round Unit Unit) := do
  countIteration
  whileHolds atSeparator do
    discard bump
    drainHeredocs
  if (← atKind .eof) || (← atStop stops) then return .finish ()
  let before ← position
  let start ← startOffset
  let nesting := (← get).nesting
  match ← catchLocal (andOr enter) with
  | .error error =>
    pushStatement (← abandon error start nesting)
    return .again ()
  | .ok statement =>
    if (← position) == before then
      pushStatement (← forceAdvance "a command")
      return .again ()
    pushStatement statement
    drainHeredocs
    if stopAfterBlock && statement.endsWithBlock then return .finish ()
    if !(← separated stops statement) then
      pushStatement (← forceAdvance "`;` or a newline")
    return .again ()

/-- Reads statements into the open list. -/
def statementList (enter : Parser Grammar) (stops : List StopAt) (stopAfterBlock : Bool) :
    Parser Unit :=
  repeatRounds () fun _ => statementRound enter stops stopAfterBlock

/-- Runs a parser on a new open list and gives its statements; the list around it comes back
however the parser ends. -/
def collecting (p : Parser Unit) : Parser (List Node) := fun doc s =>
  match p doc { s with statements := #[] } with
  | .ok _ s' => .ok s'.statements.toList { s' with statements := s.statements }
  | .error e s' => .error e { s' with statements := s.statements }

/-! ## Levels -/

/-- The grammar of one level over the way to the next level in. -/
def Grammar.over (enter : Parser Grammar) : Grammar where
  statements := fun stops stopAfterBlock => collecting (statementList enter stops stopAfterBlock)
  expression := Parse.expression enter
  operators := Parse.operators enter
  word := Parse.word enter
  stringLiteral := Parse.stringLiteral enter
  block := braceBlock enter

/-- Enters a construct with `levels` more levels in reserve.  The nesting limit is exceeded before
the reserve is used up, if it starts out as large as the limit. -/
def enterLevel : (levels : Nat) → Parser Grammar
  | 0 => do
    descend
    throw .fault
  | levels + 1 => do
    descend
    return .over (enterLevel levels)

end ShellAnalysis.Parse
