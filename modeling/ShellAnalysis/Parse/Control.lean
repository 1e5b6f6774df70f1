import ShellAnalysis.Parse.Definition

/-!
# Control flow

Each construct has two styles: an expression in parentheses with a body in
braces, and a command list with bodies between keywords.
-/

namespace ShellAnalysis.Parse

/-! ## Conditions and bodies -/

/-- Statements up to a stop, as a block. -/
def blockUntil (inner : Grammar) (stops : List StopAt) : Parser Node := do
  let body ← inner.statements stops false
  return blockOf body (← position)

/-- A condition and the body it guards. -/
structure Arm where
  style : ConditionStyle
  condition : Node
  body : Node
  /-- The body is in braces and has no closing keyword. -/
  braced : Bool

/-- `(expr) { body }`, or commands and the body after a keyword or in a block argument. -/
def conditionalArm (inner : Grammar) (keyword : String) (conditionStops bodyStops : List StopAt) :
    Parser Arm := do
  if ← atKind .parenOpen then
    let condition ← parenExpr inner
    return ⟨.expr, condition, ← definitionBody inner, true⟩
  let start ← position
  let commands ← inner.statements conditionStops true
  if ← eatKeyword keyword then
    return ⟨.command, blockOf commands start, ← blockUntil inner bodyStops, false⟩
  match ← orFault (Node.takeLastBlock? commands) with
  | some (commands, body) => return ⟨.command, blockOf commands start, body, true⟩
  | none =>
    let body ← missing ("`" ++ keyword ++ "` or `\x7b`")
    return ⟨.command, blockOf commands start, body, false⟩

/-- Consumes the keyword that closes a body which is not in braces. -/
def closeBody (braced : Bool) (word : String) : Parser Unit := do
  if !braced then expectKeyword word

/-! ## if -/

def ifCondition : List StopAt :=
  [.keyword "then", .keyword "elif", .keyword "else", .keyword "fi", .braceClose, .parenClose]

def ifBody : List StopAt :=
  [.keyword "elif", .keyword "else", .keyword "fi", .braceClose, .parenClose]

def elseBody : List StopAt := [.keyword "fi", .braceClose, .parenClose]

/-- `elif` with its condition and body. -/
def elifArm (inner : Grammar) : Parser Node := do
  let start ← startOffset
  discard bump
  let arm ← conditionalArm inner "then" ifCondition ifBody
  return .make (.elifArm arm.condition arm.body) (← spanFrom start)

/-- `else` with its body, if there is one. -/
def elsePart (inner : Grammar) (braced : Bool) : Parser (Option Node) := do
  if ← eatKeyword "else" then
    if braced then some <$> definitionBody inner else some <$> blockUntil inner elseBody
  else return none

/-- What stands after `if`.  The first part decides how `else` and the end are written. -/
def ifForm (inner : Grammar) : Parser (Form Node) := do
  let arm ← conditionalArm inner "then" ifCondition ifBody
  let elifs ← manyWhile (atKeyword "elif") (elifArm inner)
  let elseBody ← elsePart inner arm.braced
  closeBody arm.braced "fi"
  return .ifElse arm.style arm.condition arm.body elifs elseBody

/-- `if` with its `elif` and `else` parts. -/
def ifStatement (enter : Parser Grammar) : Parser Node := construct enter ifForm

/-! ## Loops -/

def loopCondition : List StopAt := [.keyword "do", .keyword "done", .braceClose, .parenClose]

def loopBody : List StopAt := [.keyword "done", .braceClose, .parenClose]

/-- What stands after `while` and `until`. -/
def whileForm (negated : Bool) (inner : Grammar) : Parser (Form Node) := do
  let arm ← conditionalArm inner "do" loopCondition loopBody
  closeBody arm.braced "done"
  return .whileLoop negated arm.style arm.condition arm.body

/-- `while`, or `until` if negated. -/
def whileStatement (enter : Parser Grammar) (negated : Bool) : Parser Node :=
  construct enter (whileForm negated)

/-- Loop variables, parted by commas. -/
def loopVariables : Parser (List Name) :=
  repeatRounds #[] fun names => do
    let name ← identName "a loop variable"
    if name.text.isEmpty then return .finish names.toList
    let names := names.push name
    if ← eat .comma then return .again names else return .finish names.toList

/-- What a `for` goes over, and how it is written. -/
def loopIterable (inner : Grammar) : Parser (ConditionStyle × List Node) := do
  if !(← eatKeyword "in") then return (.command, [])
  if ← atKind .parenOpen then return (.expr, [← parenExpr inner])
  return (.command, ← manyWhile (do return (← atWord) && !(← atKeyword "do")) inner.word)

/-- Is the current token a newline or a semicolon? -/
def atSeparator : Parser Bool := do
  let kind ← currentKind
  return kind == .newline || kind == .semi

/-- The body of a `for`: in braces, or between `do` and `done`. -/
def forBody (inner : Grammar) : Parser Node := do
  if ← atKind .braceOpen then inner.block
  else
    whileHolds atSeparator (discard bump)
    if ← eatKeyword "do" then
      let body ← blockUntil inner loopBody
      expectKeyword "done"
      return body
    else missing "`do` or `\x7b`"

/-- What stands after `for`. -/
def forForm (inner : Grammar) : Parser (Form Node) := do
  let vars ← loopVariables
  let (style, iterable) ← loopIterable inner
  return .forLoop style vars iterable (← forBody inner)

/-- `for x in (expr) { }`, `for i, x in a b { }`, `for x in a b; do ... done` -/
def forStatement (enter : Parser Grammar) : Parser Node := construct enter forForm

/-! ## case -/

/-- A pattern of a braced arm, if the current token starts one. -/
def bracedPattern? (inner : Grammar) : Parser (Option Node) := do
  match ← currentKind with
  | .parenOpen => some <$> parenExpr inner
  | .slash => some <$> regexLiteral
  | _ => if ← atWord then some <$> inner.word else return none

/-- The patterns of a braced arm, parted by `|`. -/
def bracedPatterns (inner : Grammar) : Parser (List Node) :=
  repeatRounds #[] fun patterns => do
    match ← bracedPattern? inner with
    | none => return .finish patterns.toList
    | some pattern =>
      let patterns := patterns.push pattern
      if ← eat .pipe then return .again patterns else return .finish patterns.toList

/-- One round of braced arms: an arm, a token that does not fit, or the end. -/
def bracedArmRound (inner : Grammar) (arms : Array Node) :
    Parser (Round (Array Node) (List Node)) := do
  countIteration
  whileHolds atSeparator (discard bump)
  let kind ← currentKind
  if kind == .braceClose || kind == .eof then return .finish arms.toList
  let start ← startOffset
  let before ← position
  let patterns ← bracedPatterns inner
  if (← position) == before then return .again (arms.push (← forceAdvance "a case pattern"))
  let body ← definitionBody inner
  return .again (arms.push (.make (.caseArm patterns body) (← spanFrom start)))

/-- The patterns of an arm before `)`, parted by `|`. -/
def wordPatterns (inner : Grammar) : Parser (List Node) :=
  repeatRounds #[] fun patterns => do
    if !(← atWord) then return .finish patterns.toList
    let patterns := patterns.push (← inner.word)
    if ← eat .pipe then return .again patterns else return .finish patterns.toList

def caseArmBody : List StopAt := [.semiSemi, .keyword "esac", .braceClose]

/-- One round of arms that end in `;;`: an arm, a token that does not fit, or the end. -/
def wordArmRound (inner : Grammar) (arms : Array Node) :
    Parser (Round (Array Node) (List Node)) := do
  countIteration
  skipNewlines
  if (← atKind .eof) || (← atKeyword "esac") || (← atKind .braceClose) then
    return .finish arms.toList
  let start ← startOffset
  let before ← position
  discard (eat .parenOpen)
  let patterns ← wordPatterns inner
  if (← position) == before then return .again (arms.push (← forceAdvance "a case pattern"))
  expect .parenClose "`)`"
  let body ← blockUntil inner caseArmBody
  discard (eat .semiSemi)
  return .again (arms.push (.make (.caseArm patterns body) (← spanFrom start)))

/-- `(x) { pattern | pattern { body } }` after `case` -/
def bracedCase (inner : Grammar) : Parser (Form Node) := do
  let subject ← parenExpr inner
  if ← eat .braceOpen then
    let arms ← repeatRounds #[] (bracedArmRound inner)
    expect .braceClose "`\x7d`"
    return .caseOf .expr subject arms
  else
    reportExpected "`\x7b`"
    return .caseOf .expr subject []

/-- The word that a `case` looks at. -/
def wordSubject (inner : Grammar) : Parser Node := do
  if ← atWord then inner.word else missing "a word"

/-- `$x in pattern) body ;; esac` after `case` -/
def wordCase (inner : Grammar) : Parser (Form Node) := do
  let subject ← wordSubject inner
  skipNewlines
  expectKeyword "in"
  let arms ← repeatRounds #[] (wordArmRound inner)
  expectKeyword "esac"
  return .caseOf .command subject arms

/-- What stands after `case`. -/
def caseForm (inner : Grammar) : Parser (Form Node) := do
  if ← atKind .parenOpen then bracedCase inner else wordCase inner

/-- A `case` of either style. -/
def caseStatement (enter : Parser Grammar) : Parser Node := construct enter caseForm

end ShellAnalysis.Parse
