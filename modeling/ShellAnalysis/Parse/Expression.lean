import ShellAnalysis.Number.Binary64
import ShellAnalysis.Number.Digits
import ShellAnalysis.Parse.Word
import ShellAnalysis.Text.Blank

/-!
# Expressions

Operators have a binding power on each side.  `operators enter power` reads an
operand and folds into it every operator whose left power is at least `power`;
the right operand is read with the operator's right power.
-/

namespace ShellAnalysis.Parse

/-! ## Binding powers -/

/-- An operator after an operand. -/
inductive Infix where
  | binary (op : BinaryOp)
  | compare
  | ternary
  | range (op : RangeOp)
  | call
  | subscript
  | member (op : AttributeOp)
  deriving Repr, DecidableEq

/-- The powers on the left and on the right. -/
def binaryPowers : BinaryOp → Nat × Nat
  | .or => (4, 5)
  | .and => (6, 7)
  | .bitOr => (12, 13)
  | .bitXor => (14, 15)
  | .bitAnd => (16, 17)
  | .shl | .shr => (18, 19)
  | .add | .sub | .concat => (20, 21)
  | .mul | .div | .floorDiv | .mod => (22, 23)
  | .pow => (27, 26)

/-- The powers on the left and on the right. -/
def Infix.powers : Infix → Nat × Nat
  | binary op => binaryPowers op
  | compare => (10, 11)
  | ternary | range _ => (2, 3)
  | call | subscript | member _ => (30, 0)

/-- With this power only calls, subscripts and members are folded: what can be assigned to. -/
def placePower : Nat := 29

/-- The power of the operand of `not` and `!`. -/
def notPower : Nat := 8

/-- The power of the operand of the other unary operators. -/
def unaryPower : Nat := 24

/-- The power of the operands of a comparison after the first. -/
def comparePower : Nat := 11

/-- Binary operators that are tokens of their own. -/
def binaryOfKind? : TokenKind → Option BinaryOp
  | .starStar => some .pow
  | .star => some .mul
  | .slash => some .div
  | .slashSlash => some .floorDiv
  | .percent => some .mod
  | .plus => some .add
  | .minus => some .sub
  | .plusPlus => some .concat
  | .lessLess => some .shl
  | .greaterGreater => some .shr
  | .amp => some .bitAnd
  | .caret => some .bitXor
  | .pipe => some .bitOr
  | _ => none

/-- Comparison operators that are tokens of their own. -/
def compareOfKind? : TokenKind → Option CompareOp
  | .equalEqualEqual => some .identical
  | .bangEqualEqual => some .notIdentical
  | .equalEqual => some .eq
  | .bangEqual => some .notEq
  | .tildeEqualEqual => some .approxEq
  | .less => some .less
  | .lessEqual => some .lessEq
  | .greater => some .greater
  | .greaterEqual => some .greaterEq
  | .tilde => some .matches
  | .bangTilde => some .notMatches
  | _ => none

/-- Is the token after the current one this name? -/
def peekIsWord (word : String) : Parser Bool := do
  return (← peek).isWord (← source) word

/-- The operator at the current token, if there is one. -/
def infixOp? : Parser (Option Infix) := do
  let t ← current
  match t.kind with
  | .parenOpen => return if ← adjacent then some .call else none
  | .bracketOpen => return if ← adjacent then some .subscript else none
  | .dot => return some (.member .dot)
  | .thinArrow => return some (.member .arrow)
  | .fatArrow => return some (.member .fatArrow)
  | .dotDot | .dotDotLess => return some (.range .exclusive)
  | .dotDotEqual => return some (.range .inclusive)
  | .ident =>
    match ← tokenText t with
    | "or" => return some (.binary .or)
    | "and" => return some (.binary .and)
    | "in" | "is" => return some .compare
    | "not" => return if ← peekIsWord "in" then some .compare else none
    | "if" => return some .ternary
    | _ => return none
  | kind =>
    match binaryOfKind? kind with
    | some op => return some (.binary op)
    | none => return (compareOfKind? kind).map fun _ => .compare

/-- The comparison at the current token and the number of tokens it takes. -/
def comparison? : Parser (Option (CompareOp × Nat)) := do
  let t ← current
  if t.kind == .ident then
    match ← tokenText t with
    | "in" => return some (.isIn, 1)
    | "is" => return if ← peekIsWord "not" then some (.isNot, 2) else some (.is, 1)
    | "not" => return if ← peekIsWord "in" then some (.notIn, 2) else none
    | _ => return none
  else return (compareOfKind? t.kind).map fun op => (op, 1)

/-- Consumes a comparison operator, if the current token starts one. -/
def eatComparison? : Parser (Option CompareOp) := do
  match ← comparison? with
  | none => return none
  | some (op, width) =>
    skipTokens width
    return some op

/-- Kinds that start an expression; a backtick does so only outside of backticks. -/
def startsOperand : TokenKind → Bool
  | .int | .float | .ident | .simpleVar | .specialVar | .dollarBrace | .dollarParen | .atParen
  | .dollarBracket | .backtick | .splice | .parenOpen | .bracketOpen | .braceOpen | .slash
  | .minus | .plus | .tilde | .bang | .ellipsis => true
  | kind => kind.isQuote

/-- Can the current token start an expression? -/
def atExprStart : Parser Bool := do
  return !(← atClosingBacktick) && startsOperand (← currentKind)

/-! ## Literals -/

/-- The largest integer literal. -/
def maxInt : Nat := Nat.pow 2 63 - 1

/-- The value of an integer literal, if it is in range.  No number in range has more than nineteen
digits after its leading zeros. -/
def intValue? (text : String) : Option Nat :=
  let digits := (text.toList.filter (· != '_')).dropWhile (· == '0')
  if 19 < digits.length then none
  else
    let value := digitsValue digits
    if value ≤ maxInt then some value else none

/-- From this number on an exponent grows no further. -/
def exponentLimit : Nat := 0x10000

/-- The number that the digits of an exponent spell.  Digits after those that reach the limit do
not count. -/
def exponentDigitsValue (digits : List Char) : Nat :=
  digits.foldl (fun n c => if n < exponentLimit then n * 10 + (c.toNat - '0'.toNat) else n) 0

/-- The value of the digits of an exponent with its sign. -/
def exponentValue (text : List Char) : Int :=
  match text with
  | '-' :: digits => -(exponentDigitsValue digits : Int)
  | '+' :: digits => exponentDigitsValue digits
  | digits => exponentDigitsValue digits

/-- The bits of a float literal: digits, a point, digits and an optional exponent. -/
def floatBits (text : String) : UInt64 :=
  let chars := text.toList.filter (· != '_')
  let isMark (c : Char) : Bool := c == 'e' || c == 'E'
  let number := chars.takeWhile (!isMark ·)
  let exponent := exponentValue ((chars.dropWhile (!isMark ·)).drop 1)
  let whole := number.takeWhile (· != '.')
  let fraction := (number.dropWhile (· != '.')).drop 1
  Binary64.ofDecimal (longDigitsValue (whole ++ fraction)) (exponent - fraction.length)

/-- An integer. -/
def intLiteral : Parser Node := do
  let t ← bump
  match intValue? (← tokenText t) with
  | some value => return .make (.literal (.int value)) t.span
  | none =>
    report (.syntaxError "integer literal out of range" t.span)
    return .error t.span

/-- A float. -/
def floatLiteral : Parser Node := do
  let t ← bump
  return .make (.literal (.float (floatBits (← tokenText t)))) t.span

/-- The content of the regex that starts at `start`, read after its slash. -/
def regexContent (start : Nat) : Parser String := do
  match ← orFault (Scanner.regex? (← source) (← position)) with
  | none => return ""
  | some piece =>
    advanceTo piece.span.stop
    if let some error := piece.error then report (.lexical error (← spanFrom start))
    return piece.text

/-- The slash that closes a regex. -/
def regexClose : Parser Unit := do
  let i ← position
  if Text.hasByte (← source) i 0x2f then advanceTo (i + 1)
  else reportExpected "a closing `/`"

/-- A regex between slashes. -/
def regexLiteral : Parser Node := do
  let start ← startOffset
  discard bump
  let content ← regexContent start
  regexClose
  return .make (.regex (Text.trim content)) (← spanFrom start)

/-! ## Operands -/

/-- An expression whose operators bind at least this strongly. -/
def expression (enter : Parser Grammar) (power : Nat) : Parser Node := do
  (← enter).operators power

/-- A unary operator and its operand. -/
def unary (enter : Parser Grammar) (op : UnaryOp) (power : Nat) : Parser Node := do
  let start ← startOffset
  discard bump
  let operand ← expression enter power
  return .make (.unary op operand) (← spanFrom start)

/-- More items after commas; a comma may stand at the end. -/
def moreItems (enter : Parser Grammar) (first : Node) : Parser (List Node) :=
  repeatRounds #[first] fun items => do
    if !(← eat .comma) then return .finish items.toList
    else if !(← atExprStart) then return .finish items.toList
    else return .again (items.push (← expression enter 0))

/-- `(expr)`, `()`, `(a,)` or `(a, b)` -/
def parenOrTuple (enter : Parser Grammar) : Parser Node := do
  let start ← startOffset
  discard bump
  skippingNewlines do
    if ← eat .parenClose then return .make (.tuple []) (← spanFrom start)
    let first ← expression enter 0
    if !(← atKind .comma) then
      expect .parenClose "`)`"
      return first
    let items ← moreItems enter first
    expect .parenClose "`)`"
    return .make (.tuple items) (← spanFrom start)

/-- Is the current token of the kind, the end of the text, or a closing backtick? -/
def atListEnd (close : TokenKind) : Parser Bool := do
  let kind ← currentKind
  return kind == close || kind == .eof || (← atClosingBacktick)

/-- One round of a list: an item and the comma after it, or a token that does not fit. -/
def listRound (inner : Grammar) (items : Array Node) :
    Parser (Round (Array Node) (List Node)) := do
  if ← atListEnd .bracketClose then return .finish items.toList
  countIteration
  if !(← atExprStart) then return .again (items.push (← forceAdvance "a list element"))
  let items := items.push (← inner.expression 0)
  if ← eat .comma then return .again items else return .finish items.toList

/-- `[a, b, c]` -/
def listLiteral (enter : Parser Grammar) : Parser Node :=
  bracketed enter .bracketClose "`]`" (fun inner => repeatRounds #[] (listRound inner)) .list

/-- The key of a dict entry, if the current token starts one. -/
def dictKey? (inner : Grammar) : Parser (Option (DictKey Node)) := do
  let kind ← currentKind
  if kind == .ident then
    let t ← bump
    return some (.name ⟨← tokenText t, t.span⟩)
  else if kind == .bracketOpen then
    discard bump
    let key ← inner.expression 0
    expect .bracketClose "`]`"
    return some (.computed key)
  else if kind.isQuote then return some (.quoted (← inner.stringLiteral))
  else return none

/-- One round of a dict: an entry and the comma after it, or a token that does not fit. -/
def dictRound (inner : Grammar) (entries : Array Node) :
    Parser (Round (Array Node) (List Node)) := do
  if ← atListEnd .braceClose then return .finish entries.toList
  countIteration
  let start ← startOffset
  match ← dictKey? inner with
  | none => return .again (entries.push (← forceAdvance "a dict key"))
  | some key =>
    let value ← afterEaten? .colon (inner.expression 0)
    let entries := entries.push (.make (.dictEntry key value) (← spanFrom start))
    if ← eat .comma then return .again entries else return .finish entries.toList

/-- `{name: v, 'quoted': v, [computed]: v, shorthand}` -/
def dictLiteral (enter : Parser Grammar) : Parser Node :=
  bracketed enter .braceClose "`\x7d`" (fun inner => repeatRounds #[] (dictRound inner)) .dict

/-- `name = value` among arguments. -/
def namedArg (inner : Grammar) : Parser Node := do
  let start ← startOffset
  let t ← bump
  discard bump
  let value ← inner.expression 0
  return .make (.namedArg ⟨← tokenText t, t.span⟩ value) (← spanFrom start)

/-- Positional and named arguments read so far. -/
structure Arguments where
  positional : Array Node := #[]
  named : Array Node := #[]

/-- One more argument, or a token that does not fit. -/
def argument (inner : Grammar) (args : Arguments) : Parser Arguments := do
  if (← currentKind) == .ident && (← peek).kind == .equal then
    return { args with named := args.named.push (← namedArg inner) }
  else if ← atExprStart then
    return { args with positional := args.positional.push (← inner.expression 0) }
  else return { args with positional := args.positional.push (← forceAdvance "an argument") }

/-- One round of an argument list: an argument, a separator, or a token that does not fit. -/
def argRound (inner : Grammar) (args : Arguments) : Parser (Round Arguments Arguments) := do
  countIteration
  let before ← position
  let kind ← currentKind
  if ← atListEnd .parenClose then return .finish args
  if kind == .comma || kind == .semi then
    discard bump
    return .again args
  let args ← argument inner args
  if (← position) == before then
    return .again { args with positional := args.positional.push (← forceAdvance "an argument") }
  else return .again args

/-- `(positional, ...; named = v, ...)` -/
def argList (enter : Parser Grammar) : Parser Node :=
  bracketed enter .parenClose "`)`" (fun inner => repeatRounds {} (argRound inner))
    fun args => .argList args.positional.toList args.named.toList

/-- A name that stands for a value, for a literal or for the operator `not`. -/
def nameOperand (enter : Parser Grammar) : Parser Node := do
  let t ← current
  let text ← tokenText t
  if text == "not" then unary enter .not notPower
  else
    discard bump
    return .make (match text with
      | "true" => .literal (.bool true)
      | "false" => .literal (.bool false)
      | "null" => .literal .null
      | name => .var name) t.span

/-- An operand with its unary operators. -/
def operand (enter : Parser Grammar) : Parser Node := do
  let kind ← currentKind
  match kind with
  | .int => intLiteral
  | .float => floatLiteral
  | .ident => nameOperand enter
  | .parenOpen => parenOrTuple enter
  | .bracketOpen => listLiteral enter
  | .braceOpen => dictLiteral enter
  | .slash => regexLiteral
  | .minus => unary enter .neg unaryPower
  | .plus => unary enter .pos unaryPower
  | .tilde => unary enter .bitNot unaryPower
  | .ellipsis => unary enter .spread unaryPower
  | .bang => unary enter .not notPower
  | _ =>
    if kind.isQuote then stringLiteral enter
    else
      match ← substitution? enter with
      | some node => return node
      | none => missing "an expression"

/-! ## Operators -/

/-- The index of a subscript: `i` or a slice `lo:hi`. -/
def subscriptIndex (enter : Parser Grammar) : Parser Node := do
  let start ← startOffset
  let index ← expression enter 0
  if !(← eat .colon) then return index
  if !(← atExprStart) then return index
  let last ← expression enter 0
  return .make (.range .exclusive index last) (← spanFrom start)

/-- The rest of a comparison chain whose first operand is read. -/
def comparisonChain (enter : Parser Grammar) (first : Node) : Parser (Form Node) :=
  repeatRounds ((#[], #[first]) : Array CompareOp × Array Node) fun (ops, operands) => do
    match ← eatComparison? with
    | some op => return .again (ops.push op, operands.push (← expression enter comparePower))
    | none => return .finish (.compare ops.toList operands.toList)

/-- The last operand of a ternary. -/
def elseOperand (enter : Parser Grammar) : Parser Node := do
  if ← eatKeyword "else" then expression enter (Infix.powers .ternary).1 else missing "`else`"

/-- The operator at the current token with its other operands, folded around `lhs`. -/
def foldOperator (enter : Parser Grammar) (op : Infix) (lhs : Node) : Parser (Form Node) := do
  match op with
  | .call => return .call lhs (← argList enter)
  | .subscript =>
    discard bump
    return .subscript lhs (← closedBy .bracketClose "`]`" (subscriptIndex enter))
  | .member op =>
    discard bump
    return .member op lhs (← identName "an attribute name")
  | .binary op =>
    discard bump
    return .binary op lhs (← expression enter (binaryPowers op).2)
  | .compare => comparisonChain enter lhs
  | .ternary =>
    discard bump
    let condition ← expression enter (Infix.powers .ternary).2
    return .ternary lhs condition (← elseOperand enter)
  | .range op =>
    discard bump
    return .range op lhs (← expression enter (Infix.powers (.range op)).2)

/-- One round of folding: an operator that binds strongly enough, or the end. -/
def operatorRound (enter : Parser Grammar) (power start : Nat) (lhs : Node) (folds : Nat) :
    Parser (Round (Node × Nat) (Node × Nat)) := do
  match ← infixOp? with
  | none => return .finish (lhs, folds)
  | some op =>
    if op.powers.1 < power then return .finish (lhs, folds)
    else
      fold
      let form ← foldOperator enter op lhs
      return .again (.make form (← spanFrom start), folds + 1)

/-- An operand and the operators after it that bind at least this strongly.  The expression was
entered before and is left at the end. -/
def operators (enter : Parser Grammar) (power : Nat) : Parser Node := do
  let start ← startOffset
  let first ← operand enter
  let (node, folds) ← repeatRounds (first, 0) fun (lhs, folds) =>
    operatorRound enter power start lhs folds
  releaseFolds folds
  ascend
  return node

/-- An expression, or a tuple without parentheses. -/
def exprOrTuple (enter : Parser Grammar) : Parser Node := do
  let start ← startOffset
  let first ← expression enter 0
  if !(← atKind .comma) then return first
  let items ← moreItems enter first
  return .make (.tuple items) (← spanFrom start)

/-- What can be assigned to: `x`, `d.k`, `a[i]`. -/
def place (enter : Parser Grammar) : Parser Node := expression enter placePower

/-- An expression in parentheses. -/
def parenExpr (inner : Grammar) : Parser Node := do
  discard bump
  closedBy .parenClose "`)`" (inner.expression 0)

end ShellAnalysis.Parse
