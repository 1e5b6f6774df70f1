import ShellAnalysis.Parse.Command

/-!
# Definitions, declarations and mutations
-/

namespace ShellAnalysis.Parse

/-! ## Callables -/

/-- Kinds that go on with a name made of glued pieces. -/
def continuesName : TokenKind → Bool
  | .ident | .int | .minus | .dot => true
  | _ => false

/-- A name made of glued pieces, so that `my-proc` is one name. -/
def nameWord (what : String) : Parser Name := do
  let t ← current
  if t.kind == .ident || t.kind == .int then
    discard bump
    whileHolds (do return (← adjacent) && continuesName (← currentKind)) (discard bump)
    let span ← spanFrom t.span.start
    return ⟨← pieceOf span, span⟩
  else
    reportExpected what
    return ⟨"", .empty (← position)⟩

/-- `...name Type = default` -/
def param (inner : Grammar) (group : ParamGroup) : Parser Node := do
  let start ← startOffset
  let rest ← eat .ellipsis
  let name ← identName "a parameter name"
  let type ← identName?
  let fallback ← afterEaten? .equal (inner.expression 0)
  return .make (.param name type fallback group rest) (← spanFrom start)

/-- One round of a parameter list: a parameter, a separator, or a token that does not fit. -/
def paramRound (inner : Grammar) (params : Array Node) (group : ParamGroup) :
    Parser (Round (Array Node × ParamGroup) (List Node)) := do
  match ← currentKind with
  | .parenClose | .eof => return .finish params.toList
  | .semi =>
    discard bump
    return .again (params, group.next)
  | .comma =>
    discard bump
    return .again (params, group)
  | .ident | .ellipsis => return .again (params.push (← param inner group), group)
  | _ => return .again (params.push (← forceAdvance "a parameter"), group)

/-- `(a, b; named = 1; block)` -/
def paramList (inner : Grammar) (group : ParamGroup) : Parser (List Node) := do
  discard bump
  closedBy .parenClose "`)`"
    (repeatRounds (#[], group) fun (params, group) => paramRound inner params group)

/-- The parameters of a callable, if there are any; their parentheses may be required. -/
def signature (inner : Grammar) (group : ParamGroup) (required : Bool) : Parser (List Node) := do
  if ← atKind .parenOpen then paramList inner group
  else
    require (!required) "`(`"
    return []

/-- A body that must be in braces. -/
def definitionBody (inner : Grammar) : Parser Node := do
  if ← atKind .braceOpen then inner.block else missing "`\x7b`"

/-- A construct that a keyword opens and that counts as nested. -/
def construct (enter : Parser Grammar) (form : Grammar → Parser (Form Node)) : Parser Node := do
  let start ← startOffset
  discard bump
  let inner ← enter
  let form ← form inner
  ascend
  return .make form (← spanFrom start)

/-- A callable after its keyword: name, parameters and body. -/
def callable (kind : CallableKind) (name : Parser Name) (group : ParamGroup) (required : Bool)
    (inner : Grammar) : Parser (Form Node) := do
  let name ← name
  let params ← signature inner group required
  return .callable kind name params (← definitionBody inner)

/-- `proc name (params) { body }` -/
def procDef (enter : Parser Grammar) : Parser Node :=
  construct enter (callable .proc (nameWord "a proc name") .word false)

/-- `func name(params) { body }` -/
def funcDef (enter : Parser Grammar) : Parser Node :=
  construct enter (callable .func (identName "a function name") .positional true)

/-- Consumes `()`, if it stands here. -/
def eatParens : Parser Unit := do
  if (← atKind .parenOpen) && (← peek).kind == .parenClose then
    discard bump
    discard bump

/-- `function name [()] body` -/
def functionKeyword (enter : Parser Grammar) : Parser Node := do
  let start ← startOffset
  discard bump
  let name ← nameWord "a function name"
  eatParens
  shellFunction enter start name

/-! ## Variables -/

/-- Names with their types, parted by commas. -/
def typedNames : Parser (List TypedName) :=
  repeatRounds #[] fun names => do
    let name ← identName "a variable name"
    if name.text.isEmpty then return .finish names.toList
    let names := names.push ⟨name, ← identName?⟩
    if ← eat .comma then return .again names else return .finish names.toList

/-- `var x = 1`, `const a, b = f()`, `var x Int` -/
def varDecl (enter : Parser Grammar) (keyword : DeclKeyword) : Parser Node := do
  let start ← startOffset
  discard bump
  let names ← typedNames
  let value ← afterEaten? .equal (exprOrTuple enter)
  return .make (.varDecl keyword names value) (← spanFrom start)

/-- Assignment operators. -/
def assignOp? : TokenKind → Option AssignOp
  | .equal => some .assign
  | .plusEqual => some .add
  | .minusEqual => some .sub
  | .starEqual => some .mul
  | .slashEqual => some .div
  | _ => none

/-- The targets of a mutation, parted by commas. -/
def mutationTargets (enter : Parser Grammar) : Parser (List Node) :=
  repeatRounds #[] fun targets => do
    let before ← position
    let target ← place enter
    if (← position) == before then return .finish targets.toList
    let targets := targets.push target
    if ← eat .comma then return .again targets else return .finish targets.toList

/-- Consumes the keyword of a mutation, if it has one. -/
def mutationOpener (keyword : MutationKeyword) : Parser Unit := do
  if keyword != .bare then discard bump

/-- The operator and the value of a mutation. -/
def mutationValue (enter : Parser Grammar) : Parser (AssignOp × Node) := do
  match assignOp? (← currentKind) with
  | some op =>
    discard bump
    return (op, ← exprOrTuple enter)
  | none => return (.assign, ← missing "`=`")

/-- `setvar x = 1`, `setglobal d.k += 2`, `x = 3` -/
def mutation (enter : Parser Grammar) (keyword : MutationKeyword) : Parser Node := do
  let start ← startOffset
  mutationOpener keyword
  let targets ← mutationTargets enter
  let (op, value) ← mutationValue enter
  return .make (.mutation keyword targets op value) (← spanFrom start)

/-- Does the current name stand before an assignment operator, with a blank between them? -/
def atBareMutation : Parser Bool := do
  let t ← current
  let next ← peek
  return t.span.stop < next.span.start && (assignOp? next.kind).isSome

/-- `= expr` or `call expr` -/
def exprStatement (enter : Parser Grammar) (keyword : ExprKeyword) : Parser Node := do
  let start ← startOffset
  discard bump
  let expr ← expression enter 0
  return .make (.exprStatement keyword expr) (← spanFrom start)

end ShellAnalysis.Parse
