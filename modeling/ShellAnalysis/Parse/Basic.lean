import ShellAnalysis.Diagnostic.Basic
import ShellAnalysis.Scanner.Heredoc
import ShellAnalysis.Token.Lexer
import ShellAnalysis.Tree.Edit

/-!
# Parser state

A parser reads a document from a position on and threads a `State`.  Input
that does not fit makes a diagnostic and an error node, so parsing goes on.
Only two things stop it: a limit on the work that is exceeded, and a fault of
the parser itself, such as a cut inside a character.  The state survives a
stop, so that a statement list can give up one statement and go on.

The limits on tokens and iterations hold for the whole document, those on
nesting and on operator chains for one construct.
-/

namespace ShellAnalysis

/-- How much work one parse may do. -/
structure Limits where
  /-- Tokens consumed. -/
  tokens : Nat := 100000
  /-- Rounds of statement lists and bracketed lists. -/
  iterations : Nat := 50000
  /-- Constructs open at once. -/
  depth : Nat := 64
  /-- Operators folded into the expressions open at once. -/
  chain : Nat := 1024
  deriving Repr, DecidableEq, Inhabited

namespace Parse

/-- What is read. -/
structure Document where
  text : String
  limits : Limits

/-- Why a parser stopped. -/
inductive Stopped where
  | limit (error : LimitError)
  /-- The parser itself went wrong. -/
  | fault
  deriving Repr, DecidableEq, Inhabited

/-- What surrounds the current position. -/
structure Nesting where
  /-- Constructs entered and not left. -/
  depth : Nat
  /-- Operators folded into the open expressions. -/
  chain : Nat
  /-- While positive, newlines are blanks. -/
  newlineSkip : Nat
  /-- While positive, a backtick closes a substitution. -/
  backtickDepth : Nat
  deriving Repr, DecidableEq, Inhabited

/-- Nothing around. -/
def Nesting.outermost : Nesting := ⟨0, 0, 0, 0⟩

structure State where
  /-- The end of what is consumed. -/
  pos : Nat
  nesting : Nesting
  /-- Tokens consumed so far. -/
  tokens : Nat
  /-- Rounds made so far. -/
  iterations : Nat
  /-- Heredocs whose bodies have not begun, oldest first. -/
  pending : List Heredoc
  /-- Heredoc bodies that were read and wait for a statement list, oldest first. -/
  bodies : List Node
  /-- The statements of the innermost open list. -/
  statements : Array Node
  diagnostics : Array Diagnostic

/-- Before anything is read. -/
def State.initial : State := ⟨0, .outermost, 0, 0, [], [], #[], #[]⟩

abbrev Parser := ReaderT Document (EStateM Stopped State)

/-! ## Looking -/

/-- The first token at or after the offset that is neither a comment nor, where newlines are
blanks, a newline; `fuel` bounds how many are passed over. -/
def significantFrom (text : String) (skipNewlines : Bool) : (fuel : Nat) → (i : Nat) → Token
  | 0, _ => ⟨.eof, .empty (Text.size text)⟩
  | fuel + 1, i =>
    let t := Lexer.tokenAt text i
    if t.kind == .comment || (skipNewlines && t.kind == .newline) then
      significantFrom text skipNewlines fuel t.span.stop
    else t

/-- The first significant token at or after the offset. -/
def significantAt (text : String) (skipNewlines : Bool) (i : Nat) : Token :=
  significantFrom text skipNewlines (Text.size text + 1 - i) i

def source : Parser String := do return (← read).text

def position : Parser Nat := do return (← get).pos

/-- The next significant token after the offset. -/
def tokenFrom (i : Nat) : Parser Token := do
  return significantAt (← source) (0 < (← get).nesting.newlineSkip) i

/-- The token to be consumed next. -/
def current : Parser Token := do tokenFrom (← position)

def currentKind : Parser TokenKind := do return (← current).kind

def atKind (kind : TokenKind) : Parser Bool := do return (← currentKind) == kind

/-- Where the current token starts. -/
def startOffset : Parser Nat := do return (← current).span.start

/-- The token after the current one. -/
def peek : Parser Token := do tokenFrom (← current).span.stop

/-- The token right after another one, comments and newlines included, if nothing stands
between them. -/
def gluedTo (t : Token) : Parser (Option Token) := do
  let next := Lexer.tokenAt (← source) t.span.stop
  return if next.span.start == t.span.stop then some next else none

/-- Is more word text glued to the token? -/
def gluedAfter (t : Token) : Parser Bool := do
  return match ← gluedTo t with
    | some next => next.kind.continuesWord
    | none => false

/-- Is the current token glued to what was consumed before it? -/
def adjacent : Parser Bool := do return (← startOffset) == (← position)

def tokenText (t : Token) : Parser String := do return t.text (← source)

/-- Is the current token this name, standing alone? -/
def atKeyword (word : String) : Parser Bool := do
  let t ← current
  return t.isWord (← source) word && !(← gluedAfter t)

/-- Does the current token close the backtick substitution around it? -/
def atClosingBacktick : Parser Bool := do
  return (← atKind .backtick) && 0 < (← get).nesting.backtickDepth

/-- From the offset to the end of what is consumed. -/
def spanFrom (start : Nat) : Parser Span := do return .upTo start (← position)

/-! ## Failing -/

def stopWith {α : Type} (error : LimitError) : Parser α := throw (.limit error)

/-- The value, or a fault if there is none. -/
def orFault {α : Type} : Option α → Parser α
  | some a => pure a
  | none => throw .fault

/-- The piece of the document under a span. -/
def pieceOf (span : Span) : Parser String := do
  orFault (Text.slice? (← source) span.start span.stop)

/-- The position, from which the bytes up to the end of the document are looked at. -/
def positionInText : Parser Nat := do
  return (← orFault (Span.between? (← position) (Text.size (← source)))).start

/-- Runs a parser and catches a limit on one construct. -/
def catchLocal {α : Type} (p : Parser α) : Parser (Except LimitError α) := fun doc s =>
  match p doc s with
  | .ok a s => .ok (.ok a) s
  | .error (.limit e) s => if e.isLocal then .ok (.error e) s else .error (.limit e) s
  | .error .fault s => .error .fault s

/-! ## Repeating -/

/-- What to do after one round of a loop. -/
inductive Round (σ α : Type) where
  | again (state : σ)
  | finish (result : α)

/-- At most `fuel` rounds; running out is a fault. -/
def rounds {σ α : Type} (round : σ → Parser (Round σ α)) : (fuel : Nat) → σ → Parser α
  | 0, _ => throw .fault
  | fuel + 1, state => do
    match ← round state with
    | .again state => rounds round fuel state
    | .finish result => return result

/-- Repeats until a round finishes.  A round that does not finish consumes something, so there is
no more than one for each byte that is left, and a last one. -/
def repeatRounds {σ α : Type} (init : σ) (round : σ → Parser (Round σ α)) : Parser α := do
  rounds round (Text.size (← source) - (← position) + 1) init

/-- Repeats an action while a condition holds before it. -/
def whileHolds (condition : Parser Bool) (action : Parser Unit) : Parser Unit :=
  repeatRounds () fun _ => do
    if ← condition then
      action
      return .again ()
    else return .finish ()

/-- Collects the results of a parser for as long as a condition holds before it. -/
def manyWhile {α : Type} (condition : Parser Bool) (item : Parser α) : Parser (List α) :=
  repeatRounds (#[] : Array α) fun items => do
    if ← condition then return .again (items.push (← item))
    else return .finish items.toList

/-! ## Reporting -/

def report (d : Diagnostic) : Parser Unit :=
  modify fun s => { s with diagnostics := s.diagnostics.push d }

/-- How a message names the current token. -/
def foundText (t : Token) : Parser String :=
  match t.kind with
  | .eof => pure "end of input"
  | .newline => pure "newline"
  | _ => tokenText t

/-- Reports that something else was expected at the current token. -/
def reportExpected (what : String) : Parser Unit := do
  let t ← current
  report (.unexpected (← foundText t) what t.span)

/-- Reports what is missing, unless it was found. -/
def require (found : Bool) (what : String) : Parser Unit := do
  if !found then reportExpected what

/-- Reports something missing and gives an empty error node for it, at the end of what is
consumed. -/
def missing (what : String) : Parser Node := do
  reportExpected what
  return .error (.empty (← position))

/-! ## Limits -/

def countToken : Parser Unit := do
  modify fun s => { s with tokens := s.tokens + 1 }
  let limit := (← read).limits.tokens
  if limit < (← get).tokens then stopWith (.tokens limit)

def countIteration : Parser Unit := do
  modify fun s => { s with iterations := s.iterations + 1 }
  let limit := (← read).limits.iterations
  if limit < (← get).iterations then stopWith (.iterations limit)

def modifyNesting (f : Nesting → Nesting) : Parser Unit :=
  modify fun s => { s with nesting := f s.nesting }

/-- Counts one more open construct. -/
def descend : Parser Unit := do
  modifyNesting fun n => { n with depth := n.depth + 1 }
  let limit := (← read).limits.depth
  if limit < (← get).nesting.depth then stopWith (.nesting limit)

/-- Leaves a construct. -/
def ascend : Parser Unit := modifyNesting fun n => { n with depth := n.depth - 1 }

/-- Counts one more operator of an open expression.  Operators make the tree deeper without
nesting constructs, so they have a limit of their own. -/
def fold : Parser Unit := do
  modifyNesting fun n => { n with chain := n.chain + 1 }
  let limit := (← read).limits.chain
  if limit < (← get).nesting.chain then stopWith (.chain limit)

/-- Leaves an expression with this many operators. -/
def releaseFolds (folds : Nat) : Parser Unit :=
  modifyNesting fun n => { n with chain := n.chain - folds }

/-- Runs a parser in a changed nesting, and changes it back however the parser ends.  A nesting that
cannot be changed back is a fault. -/
def within {α : Type} (enter : Nesting → Nesting) (leave : Nesting → Option Nesting)
    (p : Parser α) : Parser α := fun doc s =>
  match p doc { s with nesting := enter s.nesting } with
  | .ok a s =>
    match leave s.nesting with
    | some nesting => .ok a { s with nesting }
    | none => .error .fault s
  | .error e s =>
    match leave s.nesting with
    | some nesting => .error e { s with nesting }
    | none => .error .fault s

/-- One less; none below zero. -/
def decrement? : Nat → Option Nat
  | 0 => none
  | n + 1 => some n

/-- Inside brackets newlines are blanks. -/
def skippingNewlines {α : Type} (p : Parser α) : Parser α :=
  within (fun n => { n with newlineSkip := n.newlineSkip + 1 })
    (fun n => (decrement? n.newlineSkip).map fun skip => { n with newlineSkip := skip }) p

/-- Inside a command substitution newlines are tokens again. -/
def withNewlines {α : Type} (p : Parser α) : Parser α := do
  let skip := (← get).nesting.newlineSkip
  within (fun n => { n with newlineSkip := 0 }) (fun n => some { n with newlineSkip := skip }) p

/-- Inside a backtick substitution a backtick closes. -/
def insideBackticks {α : Type} (p : Parser α) : Parser α :=
  within (fun n => { n with backtickDepth := n.backtickDepth + 1 })
    (fun n => (decrement? n.backtickDepth).map fun depth => { n with backtickDepth := depth }) p

/-! ## Consuming -/

def setPosition (i : Nat) : Parser Unit := modify fun s => { s with pos := i }

/-- Where reading goes on after a terminator line: past its line break. -/
def afterLineBreak (text : String) (i : Nat) : Nat :=
  if Text.hasByte text i 0x0d && Text.hasByte text (i + 1) 0x0a then i + 2
  else if Text.hasByte text i 0x0a then i + 1
  else i

/-- Skips the line break at the position, if there is one. -/
def skipLineBreak : Parser Unit := do
  setPosition (afterLineBreak (← source) (← positionInText))

/-- Goes on after the body of a heredoc: behind its terminator line, if it has one. -/
def leaveBody (body : Heredoc.Body) : Parser Unit := do
  match body.terminator with
  | some line =>
    setPosition line.stop
    skipLineBreak
  | none => setPosition body.span.stop

/-- Reports a heredoc without a terminator line. -/
def reportUnclosed (h : Heredoc) (body : Heredoc.Body) (span : Span) : Parser Unit := do
  if body.terminator.isNone then report (.lexical (.unterminatedHeredoc h.delimiter) span)

/-- Keeps a heredoc body for a statement list, unless it is empty. -/
def holdBody (node : Node) : Parser Unit := do
  if !node.span.isEmpty then modify fun s => { s with bodies := s.bodies ++ [node] }

/-- Reads the body of one heredoc, which starts at the position. -/
def readBody (h : Heredoc) : Parser Unit := do
  countToken
  let start ← position
  let body ← orFault (h.body? (← source) start)
  leaveBody body
  let span ← spanFrom start
  reportUnclosed h body span
  holdBody (.make (.heredocBody h.delimiter body.text body.terminator.isSome) span)

/-- Reads the bodies of these heredocs in turn. -/
def readBodies : List Heredoc → Parser Unit
  | [] => pure ()
  | h :: rest => do
    readBody h
    readBodies rest

/-- Reads the bodies of the pending heredocs. -/
def readPending : Parser Unit := do
  let pending := (← get).pending
  modify fun s => { s with pending := [] }
  readBodies pending

/-- Consumes the current token.  After a newline the bodies of the pending heredocs are read. -/
def bump : Parser Token := do
  countToken
  let t ← current
  setPosition t.span.stop
  if t.kind == .newline then readPending
  return t

/-- Consumes this many tokens. -/
def skipTokens : Nat → Parser Unit
  | 0 => pure ()
  | count + 1 => do
    discard bump
    skipTokens count

/-- Consumes up to an offset. -/
def advanceTo (i : Nat) : Parser Unit := do
  countToken
  setPosition i

/-- Consumes the current token if it is of the kind. -/
def eat (kind : TokenKind) : Parser Bool := do
  if ← atKind kind then
    discard bump
    return true
  else return false

/-- Consumes the current token if it is the keyword. -/
def eatKeyword (word : String) : Parser Bool := do
  if ← atKeyword word then
    discard bump
    return true
  else return false

/-- What stands after a token of the kind, if there is such a token. -/
def afterEaten? {α : Type} (kind : TokenKind) (p : Parser α) : Parser (Option α) := do
  if ← eat kind then some <$> p else return none

/-- Consumes a token of the kind, or reports that it is missing. -/
def expect (kind : TokenKind) (what : String) : Parser Unit := do
  require (← eat kind) what

/-- Consumes the keyword, or reports that it is missing. -/
def expectKeyword (word : String) : Parser Unit := do
  require (← eatKeyword word) ("`" ++ word ++ "`")

/-- Consumes one token that does not fit as an error node. -/
def forceAdvance (what : String) : Parser Node := do
  reportExpected what
  return .error (← bump).span

def skipNewlines : Parser Unit := whileHolds (atKind .newline) (discard bump)

/-- A name, or an empty one at the end of what is consumed if there is none. -/
def identName (what : String) : Parser Name := do
  let t ← current
  if t.kind == .ident then
    discard bump
    return ⟨← tokenText t, t.span⟩
  else
    reportExpected what
    return ⟨"", .empty (← position)⟩

/-- A name, if the current token is one. -/
def identName? : Parser (Option Name) := do
  let t ← current
  if t.kind == .ident then
    discard bump
    return some ⟨← tokenText t, t.span⟩
  else return none

end Parse

end ShellAnalysis
