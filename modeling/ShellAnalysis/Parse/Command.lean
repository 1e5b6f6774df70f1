import ShellAnalysis.Parse.Expression

/-!
# Simple commands

A simple command is a run of assignments, words and redirects, with typed
arguments in parentheses and a block in braces at its end.
-/

namespace ShellAnalysis.Parse

/-! ## Redirects -/

/-- Is the current token a redirect operator, or a number glued to one? -/
def atRedirect : Parser Bool := do
  let t ← current
  if t.kind.isRedirect then return true
  if t.kind != .int then return false
  return match ← gluedTo t with
    | some next => next.kind.isRedirect
    | none => false

/-- The number of a file descriptor: digits only, and no more than 32 bits. -/
def descriptor? (text : String) : Option Nat :=
  if text.toList.all Char.isDigit then
    let digits := text.toList.dropWhile (· == '0')
    if 10 < digits.length then none
    else
      let value := digitsValue digits
      if value < UInt32.size then some value else none
  else none

/-- The operator of a redirect other than a heredoc. -/
def redirectOp : TokenKind → RedirectOp
  | .less => .input
  | .greaterGreater => .append
  | .greaterPipe => .clobber
  | .lessAmp => .dupInput
  | .greaterAmp => .dupOutput
  | .ampGreater => .outputAll
  | .lessLessLess => .hereString
  | _ => .output

/-- Reports a delimiter that is too long, or keeps its heredoc until the line ends.  Gives whether
the delimiter is quoted. -/
def announce (piece : Scanned) (heredoc : Heredoc) : Parser Bool := do
  match piece.error with
  | some error =>
    report (.lexical error piece.span)
    return false
  | none =>
    modify fun s => { s with pending := s.pending ++ [heredoc] }
    return heredoc.quoted

/-- The delimiter after `<<`.  Its body is read when the line ends. -/
def heredocRedirect (start : Nat) (fd : Option Nat) : Parser Node := do
  match ← orFault (Scanner.heredocStart? (← source) (← position) .idle) with
  | (none, _) =>
    reportExpected "a heredoc delimiter"
    return .make (.redirect fd (.heredoc false) none) (← spanFrom start)
  | (some piece, heredoc) =>
    let stripTabs := Text.hasByte (← pieceOf piece.span) 0 0x2d
    let quoted ← announce piece heredoc
    advanceTo piece.span.stop
    let delimiter := Node.make (.heredocDelimiter piece.text quoted) piece.span
    return .make (.redirect fd (.heredoc stripTabs) (some delimiter)) (← spanFrom start)

/-- The descriptor before a redirect operator. -/
def redirectDescriptor : Parser (Option Nat) := do
  if ← atKind .int then return descriptor? (← tokenText (← bump)) else return none

/-- The word after a redirect operator. -/
def redirectTarget (enter : Parser Grammar) : Parser (Option Node) := do
  if ← atWord then some <$> word enter
  else
    reportExpected "a redirect target"
    return none

/-- A redirect with its optional descriptor. -/
def redirect (enter : Parser Grammar) : Parser Node := do
  let start ← startOffset
  let fd ← redirectDescriptor
  let op ← bump
  if op.kind == .lessLess then heredocRedirect start fd
  else
    let target ← redirectTarget enter
    return .make (.redirect fd (redirectOp op.kind) target) (← spanFrom start)

/-! ## Assignments -/

/-- Is the current token a name glued to `=` or `+=`? -/
def atAssignment : Parser Bool := do
  let t ← current
  if t.kind != .ident then return false
  return match ← gluedTo t with
    | some next => next.kind == .equal || next.kind == .plusEqual
    | none => false

/-- `(x y z)` as the value of an assignment. -/
def arrayLiteral (enter : Parser Grammar) : Parser Node :=
  bracketed enter .parenClose "`)`" (fun inner => manyWhile atWord inner.word) .list

/-- What is glued to the operator of an assignment. -/
def assignedValue (enter : Parser Grammar) : Parser (Option Node) := do
  if !(← adjacent) then return none
  else if ← atKind .parenOpen then some <$> arrayLiteral enter
  else if ← atWord then some <$> word enter
  else return none

/-- `NAME=value`, `NAME+=value` or `NAME=(x y z)` -/
def assignment (enter : Parser Grammar) : Parser Node := do
  let start ← startOffset
  let name ← bump
  let op ← bump
  let value ← assignedValue enter
  return .make
    (.shellAssignment ⟨← tokenText name, name.span⟩ (op.kind == .plusEqual) value)
    (← spanFrom start)

/-! ## Blocks and functions -/

/-- Statements up to the token that closes them, after one that opens them. -/
def enclosed (enter : Parser Grammar) (stop : StopAt) (close : TokenKind) (what : String)
    (form : List Node → Form Node) : Parser Node := do
  let start ← startOffset
  let inner ← enter
  discard bump
  let body ← inner.statements [stop] false
  expect close what
  ascend
  return .make (form body) (← spanFrom start)

/-- Statements in braces. -/
def braceBlock (enter : Parser Grammar) : Parser Node :=
  enclosed enter .braceClose .braceClose "`\x7d`" .block

/-- Statements in parentheses. -/
def subshell (enter : Parser Grammar) : Parser Node :=
  enclosed enter .parenClose .parenClose "`)`" .subshell

/-- The body of a shell function. -/
def functionBody (enter : Parser Grammar) : Parser Node := do
  match ← currentKind with
  | .braceOpen => braceBlock enter
  | .parenOpen => subshell enter
  | _ => missing "a function body"

/-- A shell function, after its name and parentheses. -/
def shellFunction (enter : Parser Grammar) (start : Nat) (name : Name) : Parser Node := do
  skipNewlines
  let body ← functionBody enter
  return .make (.shellFunction name body) (← spanFrom start)

/-! ## Commands -/

/-- A command as far as it is read. -/
structure Draft where
  assignments : Array Node := #[]
  words : Array Node := #[]
  redirects : Array Node := #[]
  typedArgs : Option Node := none
  block : Option Node := none

/-- The command that was read. -/
def Draft.toCommand (d : Draft) : Command Node :=
  ⟨d.assignments.toList, d.words.toList, d.redirects.toList, d.typedArgs, d.block⟩

/-- What a command is found to be after one more round. -/
inductive CommandRound where
  | again (draft : Draft)
  | finish (draft : Draft)
  /-- `name()`: a function with this name. -/
  | function (name : Node)

/-- The name of the function, if a `(` after this much of a command starts one. -/
def functionName? (d : Draft) : Parser (Option Node) := do
  if d.words.size == 1 && d.assignments.isEmpty && d.redirects.isEmpty
      && (← peek).kind == .parenClose then
    return d.words.back?
  else return none

/-- One round of a command that goes on with an assignment or a word, if there is one. -/
def commandWord (enter : Parser Grammar) (d : Draft) : Parser CommandRound := do
  if !(← atWord) then return .finish d
  if d.words.isEmpty && (← atAssignment) then
    return .again { d with assignments := d.assignments.push (← assignment enter) }
  else return .again { d with words := d.words.push (← word enter) }

/-- One round of a command: one more piece, or the end. -/
def commandRound (enter : Parser Grammar) (d : Draft) : Parser CommandRound := do
  if ← atRedirect then return .again { d with redirects := d.redirects.push (← redirect enter) }
  match ← currentKind with
  | .parenOpen =>
    match ← functionName? d with
    | some name => return .function name
    | none =>
      if d.words.isEmpty || d.typedArgs.isSome then return .finish d
      else return .again { d with typedArgs := some (← argList enter) }
  | .braceOpen =>
    if ← atBlockOpen then
      if d.words.isEmpty then return .finish d
      else return .finish { d with block := some (← braceBlock enter) }
    else commandWord enter d
  | _ => commandWord enter d

/-- A simple command, or a function definition that starts like one. -/
def simpleCommand (enter : Parser Grammar) : Parser Node := do
  let start ← startOffset
  repeatRounds ({} : Draft) fun d => do
    match ← commandRound enter d with
    | .again d => return .again d
    | .finish d => return .finish (.make (.command d.toCommand) (← spanFrom start))
    | .function word =>
      let name : Name := ⟨← pieceOf word.span, word.span⟩
      discard bump
      discard bump
      return .finish (← shellFunction enter start name)

end ShellAnalysis.Parse
