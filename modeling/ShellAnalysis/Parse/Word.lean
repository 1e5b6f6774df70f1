import ShellAnalysis.Parse.Grammar
import ShellAnalysis.Scanner.Basic

/-!
# Words

A shell word is a run of text, quoted strings and substitutions glued
together.  Neighbouring pieces of plain text become one part.
-/

namespace ShellAnalysis.Parse

open Text (byte? size)

/-! ## Where words start and end -/

/-- Is the current token a brace that stands alone and opens a block? -/
def atBlockOpen : Parser Bool := do
  let t ← current
  return t.kind == .braceOpen && !(← gluedAfter t)

/-- Can the current token start a word? -/
def atWord : Parser Bool := do
  match ← currentKind with
  | .braceOpen => return !(← atBlockOpen)
  | .braceClose => return false
  | .backtick => return (← get).nesting.backtickDepth == 0
  | kind => return kind.continuesWord

/-- Does the current token go on with the word being read? -/
def inWord : Parser Bool := do
  if !(← adjacent) then return false
  match ← currentKind with
  | .braceOpen | .braceClose => return true
  | .backtick => return (← get).nesting.backtickDepth == 0
  | kind => return kind.continuesWord

/-- Adds plain text to the parts: to the last one if that is text right before it. -/
def pushText (parts : Array Node) (span : Span) : Parser (Array Node) := do
  match parts.back? with
  | some ⟨lastSpan, .text _⟩ =>
    if lastSpan.stop == span.start then
      let merged := lastSpan.cover span
      return parts.pop.push (.make (.text (← pieceOf merged)) merged)
    else return parts.push (.make (.text (← pieceOf span)) span)
  | _ => return parts.push (.make (.text (← pieceOf span)) span)

/-! ## Substitutions -/

/-- The name in `${...}`: where it starts, after an optional `#` or `!`, and where it ends. -/
def bracedName (text : String) (i : Nat) : Nat × Nat :=
  let isNameAt (j : Nat) : Bool := ((byte? text j).map Text.isNameByte).getD false
  let marked := Text.hasByte text i 0x23 || Text.hasByte text i 0x21
  let start := if marked && isNameAt (i + 1) then i + 1 else i
  let stop := Text.runEnd text Text.isNameByte start
  let special (b : UInt8) : Bool :=
    b == 0x40 || b == 0x23 || b == 0x3f || b == 0x2a || b == 0x21 || b == 0x24 || b == 0x2d
  if stop == start && ((byte? text stop).map special).getD false then (start, stop + 1)
  else (start, stop)

/-- Where `${...}` ends: at the brace that closes it, at a line feed, or at the end of the text.
Inner braces are counted, and a backslash hides the byte after it. -/
def bracedEnd (text : String) (depth i : Nat) : Nat :=
  match _h : byte? text i with
  | none => i
  | some b =>
    if b == 0x7b then bracedEnd text (depth + 1) (i + 1)
    else if b == 0x7d then if depth ≤ 1 then i else bracedEnd text (depth - 1) (i + 1)
    else if b == 0x0a then i
    else if b == 0x5c then bracedEnd text depth (min (i + 2) (size text))
    else bracedEnd text depth (i + 1)
termination_by size text - i
decreasing_by
  all_goals
    have := Text.lt_size_of_byte? _h
    omega

/-- `${name}`, `${#name}`, `${name:-default}` -/
def bracedVarSub : Parser Node := do
  let opener ← bump
  let text ← source
  let (nameStart, nameStop) := bracedName text opener.span.stop
  let stop := bracedEnd text 1 nameStop
  let closed := Text.hasByte text stop 0x7d
  let close := if closed then stop + 1 else stop
  let nameSpan ← orFault (Span.between? nameStart nameStop)
  let name : Name := ⟨← pieceOf nameSpan, nameSpan⟩
  let suffix ← pieceOf (← orFault (Span.between? nameStop stop))
  let span ← orFault (Span.between? opener.span.start close)
  require closed "`\x7d`"
  advanceTo close
  return .make (.bracedVarSub name suffix) span

/-- What stands in brackets up to the token that closes them. -/
def closedBy {α : Type} (close : TokenKind) (what : String) (p : Parser α) : Parser α :=
  skippingNewlines do
    let a ← p
    expect close what
    return a

/-- A construct in brackets that the current token opens. -/
def bracketed {α : Type} (enter : Parser Grammar) (close : TokenKind) (what : String)
    (content : Grammar → Parser α) (form : α → Form Node) : Parser Node := do
  let start ← startOffset
  discard bump
  let inner ← enter
  let a ← closedBy close what (content inner)
  ascend
  return .make (form a) (← spanFrom start)

/-- `$(...)` and `@(...)` -/
def commandSub (enter : Parser Grammar) : Parser Node := do
  let start ← startOffset
  let opener ← bump
  let inner ← enter
  let body ← withNewlines do
    let body ← inner.statements [.parenClose] false
    expect .parenClose "`)`"
    return body
  ascend
  return .make (.commandSub (opener.kind == .atParen) body) (← spanFrom start)

/-- Commands between backticks. -/
def backtickSub (enter : Parser Grammar) : Parser Node := do
  let start ← startOffset
  discard bump
  let inner ← enter
  let body ← insideBackticks (withNewlines (inner.statements [.backtick] false))
  expect .backtick "a closing backtick"
  ascend
  return .make (.backtickSub body) (← spanFrom start)

/-- `$[expr]` -/
def exprSub (enter : Parser Grammar) : Parser Node :=
  bracketed enter .bracketClose "`]`" (fun inner => inner.expression 0) .exprSub

/-- The text of a token without its sigil. -/
def afterSigil (t : Token) : Parser String := do
  pieceOf (← orFault (Span.between? (t.span.start + 1) t.span.stop))

/-- A substitution, if the current token opens one. -/
def substitution? (enter : Parser Grammar) : Parser (Option Node) := do
  match ← currentKind with
  | .simpleVar | .specialVar =>
    let t ← bump
    return some (.make (.simpleVarSub (← afterSigil t)) t.span)
  | .splice =>
    let t ← bump
    return some (.make (.splice (← afterSigil t)) t.span)
  | .dollarBrace => return some (← bracedVarSub)
  | .dollarParen | .atParen => return some (← commandSub enter)
  | .dollarBracket => return some (← exprSub enter)
  | .backtick =>
    if (← get).nesting.backtickDepth == 0 then return some (← backtickSub enter)
    else return none
  | _ => return none

/-! ## Strings -/

/-- How a string with this opener is written. -/
def stringStyle : TokenKind → StringStyle
  | .doubleQuote => .double
  | .dollarDoubleQuote => .dollarDouble
  | .dollarSingleQuote => .dollarSingle
  | .rawQuote => .raw
  | .tripleSingleQuote => .tripleSingle
  | .tripleDoubleQuote => .tripleDouble
  | .rawTripleQuote => .rawTriple
  | _ => .single

/-- How the content of such a string is read. -/
def quoteStyle : StringStyle → QuoteStyle
  | .double | .dollarDouble | .tripleDouble => .double
  | .dollarSingle => .dollarSingle
  | .single | .raw | .tripleSingle | .rawTriple => .single

/-- Does such a string have three quotes at each end? -/
def isTriple : StringStyle → Bool
  | .tripleSingle | .tripleDouble | .rawTriple => true
  | _ => false

/-- What closes such a string. -/
def closingQuote (style : StringStyle) : String :=
  match quoteStyle style, isTriple style with
  | .double, true => "\"\"\""
  | .double, false => "\""
  | _, true => "'''"
  | _, false => "'"

/-- The content of such a string at the offset. -/
def stringContent? (text : String) (style : StringStyle) (i : Nat) : Checked (Option Scanned) :=
  if isTriple style then Scanner.multiline? text (quoteStyle style) i
  else Scanner.string? text (quoteStyle style) i

/-- Adds the run of content at the position to the parts of a string, if there is one. -/
def stringRun (style : StringStyle) (parts : Array Node) : Parser (Array Node) := do
  match ← orFault (stringContent? (← source) style (← position)) with
  | some content =>
    advanceTo content.span.stop
    return parts.push (.make (.text content.text) content.span)
  | none => return parts

/-- One round of reading a string: a run of content, then the closing quote, a substitution, or
one byte that opens none.  Finishes with the parts and whether the string was closed. -/
def stringRound (enter : Parser Grammar) (style : StringStyle) (parts : Array Node) :
    Parser (Round (Array Node) (Array Node × Bool)) := do
  let parts ← stringRun style parts
  let text ← source
  let i ← positionInText
  if Text.hasPiece text i (closingQuote style) then
    advanceTo (i + size (closingQuote style))
    return .finish (parts, true)
  else if size text ≤ i then return .finish (parts, false)
  else
    match ← substitution? enter with
    | some sub => return .again (parts.push sub)
    | none =>
      advanceTo (i + 1)
      return .again (← pushText parts ⟨i, 1⟩)

/-- A quoted string of any style. -/
def stringLiteral (enter : Parser Grammar) : Parser Node := do
  let start ← startOffset
  let opener ← bump
  let style := stringStyle opener.kind
  let (parts, closed) ← repeatRounds #[] (stringRound enter style)
  let span ← spanFrom start
  if !closed then
    report (.lexical
      (if isTriple style then .unterminatedMultilineString else .unterminatedString) span)
  return .make (.stringLit style parts.toList) span

/-! ## Words -/

/-- One round of reading a word: one more part, or the end. -/
def wordRound (enter : Parser Grammar) (parts : Array Node) :
    Parser (Round (Array Node) (Array Node)) := do
  if !parts.isEmpty && !(← inWord) then return .finish parts
  let kind ← currentKind
  -- In `user@host` the `@` is text: a splice counts only at the start of a word.
  let glued := !parts.isEmpty && kind == .splice
  match ← (if glued then pure none else substitution? enter) with
  | some part => return .again (parts.push part)
  | none =>
    if kind.isQuote then return .again (parts.push (← stringLiteral enter))
    else if kind == .eof then return .finish parts
    else return .again (← pushText parts (← bump).span)

/-- A shell word. -/
def word (enter : Parser Grammar) : Parser Node := do
  let start ← startOffset
  let parts ← repeatRounds #[] (wordRound enter)
  return .make (.word parts.toList) (← spanFrom start)

end ShellAnalysis.Parse
