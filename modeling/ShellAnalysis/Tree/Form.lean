import ShellAnalysis.Text.Span

/-!
# Forms of syntax

A `Form α` is one construct of the language with parts of type `α` in its
places.  `Form.children` lists the parts in the order of the fields.  The
syntax tree (`Node`) ties the knot: its parts are nodes again.
-/

namespace ShellAnalysis

/-- An identifier and where it stands. -/
structure Name where
  text : String
  span : Span
  deriving Repr, DecidableEq, Inhabited

/-! ## Labels -/

/-- `&&` or `||` -/
inductive Connective where
  | and
  | or
  deriving Repr, DecidableEq, Inhabited

inductive RedirectOp where
  /-- `<` -/
  | input
  /-- `>` -/
  | output
  /-- `>>` -/
  | append
  /-- `>|` -/
  | clobber
  /-- `<&` -/
  | dupInput
  /-- `>&` -/
  | dupOutput
  /-- `&>` -/
  | outputAll
  /-- `<<<` -/
  | hereString
  /-- `<<`, and `<<-`, which strips tabs -/
  | heredoc (stripTabs : Bool)
  deriving Repr, DecidableEq, Inhabited

/-- Which keyword defines a callable. -/
inductive CallableKind where
  | proc
  | func
  deriving Repr, DecidableEq, Inhabited

/-- The section of a signature that a parameter stands in; sections are parted by `;`. -/
inductive ParamGroup where
  | word
  | positional
  | named
  | block
  deriving Repr, DecidableEq, Inhabited

/-- The group after the next `;`. -/
def ParamGroup.next : ParamGroup → ParamGroup
  | word => positional
  | positional => named
  | named | block => block

inductive DeclKeyword where
  | var
  | const
  deriving Repr, DecidableEq, Inhabited

/-- A declared name and the type written after it. -/
structure TypedName where
  name : Name
  type : Option Name
  deriving Repr, DecidableEq, Inhabited

inductive MutationKeyword where
  | setvar
  | setglobal
  /-- `name = value` without a keyword -/
  | bare
  deriving Repr, DecidableEq, Inhabited

inductive AssignOp where
  | assign
  | add
  | sub
  | mul
  | div
  deriving Repr, DecidableEq, Inhabited

inductive ExprKeyword where
  /-- `= expr` -/
  | equals
  /-- `call expr` -/
  | call
  deriving Repr, DecidableEq, Inhabited

/-- How a condition, a subject or an iterable is written. -/
inductive ConditionStyle where
  /-- `(expr)` -/
  | expr
  /-- commands or words -/
  | command
  deriving Repr, DecidableEq, Inhabited

inductive StringStyle where
  | single
  | double
  | dollarSingle
  | dollarDouble
  | raw
  | tripleSingle
  | tripleDouble
  | rawTriple
  deriving Repr, DecidableEq, Inhabited

inductive Literal where
  | int (value : Nat)
  /-- The bits of a binary64 number. -/
  | float (bits : UInt64)
  | bool (value : Bool)
  | null
  deriving Repr, DecidableEq, Inhabited

inductive UnaryOp where
  | neg
  | pos
  | not
  | bitNot
  /-- `...xs` -/
  | spread
  deriving Repr, DecidableEq, Inhabited

inductive BinaryOp where
  | or
  | and
  | bitOr
  | bitXor
  | bitAnd
  | shl
  | shr
  | add
  | sub
  | concat
  | mul
  | div
  | floorDiv
  | mod
  | pow
  deriving Repr, DecidableEq, Inhabited

inductive CompareOp where
  /-- `===` -/
  | identical
  /-- `!==` -/
  | notIdentical
  /-- `==` -/
  | eq
  /-- `!=` -/
  | notEq
  /-- `~==` -/
  | approxEq
  | less
  | lessEq
  | greater
  | greaterEq
  /-- `~` -/
  | matches
  /-- `!~` -/
  | notMatches
  | isIn
  | notIn
  | is
  | isNot
  deriving Repr, DecidableEq, Inhabited

inductive RangeOp where
  /-- `..`, `..<` and the `:` of a slice -/
  | exclusive
  /-- `..=` -/
  | inclusive
  deriving Repr, DecidableEq, Inhabited

inductive AttributeOp where
  /-- `.` -/
  | dot
  /-- `->` -/
  | arrow
  /-- `=>` -/
  | fatArrow
  deriving Repr, DecidableEq, Inhabited

/-! ## Constructs -/

/-- A simple command. -/
structure Command (α : Type) where
  /-- `NAME=value` before the words -/
  assignments : List α
  words : List α
  redirects : List α
  /-- `(a, b; named = 1)` -/
  typedArgs : Option α
  /-- A block in braces at the end. -/
  block : Option α

/-- The key of a dict entry. -/
inductive DictKey (α : Type) where
  /-- `name:`, or `name` alone -/
  | name (name : Name)
  /-- `'quoted':` -/
  | quoted (key : α)
  /-- `[expr]:` -/
  | computed (key : α)

/-- One construct, with parts of type `α`. -/
inductive Form (α : Type) where
  -- statements
  | program (body : List α)
  /-- A statement list: in braces, between keywords, or as a condition. -/
  | block (body : List α)
  | subshell (body : List α)
  | command (command : Command α)
  /-- The heredocs are bodies read between stages on different lines. -/
  | pipeline (negated : Bool) (stages heredocs : List α)
  /-- `a && b || c`, one operator fewer than commands. -/
  | andOr (ops : List Connective) (commands heredocs : List α)
  | background (command : α)
  /-- A compound command and the redirects after it. -/
  | redirected (command : α) (redirects : List α)
  | redirect (fd : Option Nat) (op : RedirectOp) (target : Option α)
  | heredocDelimiter (delimiter : String) (quoted : Bool)
  | heredocBody (delimiter text : String) (terminated : Bool)
  | shellAssignment (name : Name) (append : Bool) (value : Option α)
  | shellFunction (name : Name) (body : α)
  | callable (kind : CallableKind) (name : Name) (params : List α) (body : α)
  | param (name : Name) (type : Option Name) (fallback : Option α) (group : ParamGroup)
      (rest : Bool)
  | varDecl (keyword : DeclKeyword) (names : List TypedName) (value : Option α)
  | mutation (keyword : MutationKeyword) (targets : List α) (op : AssignOp) (value : α)
  | exprStatement (keyword : ExprKeyword) (expr : α)
  | ifElse (style : ConditionStyle) (condition body : α) (elifs : List α) (elseBody : Option α)
  | elifArm (condition body : α)
  | whileLoop (negated : Bool) (style : ConditionStyle) (condition body : α)
  | forLoop (style : ConditionStyle) (vars : List Name) (iterable : List α) (body : α)
  | caseOf (style : ConditionStyle) (subject : α) (arms : List α)
  | caseArm (patterns : List α) (body : α)
  -- words
  | word (parts : List α)
  | text (text : String)
  | stringLit (style : StringStyle) (parts : List α)
  /-- `$name` or a special parameter -/
  | simpleVarSub (name : String)
  /-- `${name...}`; the suffix is what stands between the name and the brace. -/
  | bracedVarSub (name : Name) (suffix : String)
  /-- `$(...)`, or `@(...)` for a splice -/
  | commandSub (isSplice : Bool) (body : List α)
  | backtickSub (body : List α)
  /-- `$[expr]` -/
  | exprSub (expr : α)
  /-- `@name` -/
  | splice (name : String)
  -- expressions
  | literal (value : Literal)
  | var (name : String)
  | unary (op : UnaryOp) (operand : α)
  | binary (op : BinaryOp) (lhs rhs : α)
  /-- `a < b <= c`, one operator fewer than operands. -/
  | compare (ops : List CompareOp) (operands : List α)
  | ternary (thenValue condition elseValue : α)
  | range (op : RangeOp) (first last : α)
  | call (callee args : α)
  | argList (positional named : List α)
  | namedArg (name : Name) (value : α)
  | subscript (object index : α)
  | member (op : AttributeOp) (object : α) (name : Name)
  | list (items : List α)
  | tuple (items : List α)
  | dict (entries : List α)
  | dictEntry (key : DictKey α) (value : Option α)
  /-- The trimmed text between the slashes. -/
  | regex (text : String)
  /-- Input that does not fit. -/
  | error

namespace Form

variable {α : Type}

/-- The parts of a construct, in the order of its fields. -/
def children : Form α → List α
  | program body | block body | subshell body | word body | backtickSub body | list body
  | tuple body | dict body | commandSub _ body | stringLit _ body | compare _ body => body
  | pipeline _ items heredocs | andOr _ items heredocs => items ++ heredocs
  | command c =>
    c.assignments ++ c.words ++ c.redirects ++ c.typedArgs.toList ++ c.block.toList
  | background inner | exprSub inner => [inner]
  | redirected inner redirects => inner :: redirects
  | redirect _ _ target => target.toList
  | shellAssignment _ _ value => value.toList
  | shellFunction _ body => [body]
  | callable _ _ params body => params ++ [body]
  | param _ _ fallback _ _ => fallback.toList
  | varDecl _ _ value => value.toList
  | mutation _ targets _ value => targets ++ [value]
  | exprStatement _ expr => [expr]
  | ifElse _ condition body elifs elseBody => condition :: body :: elifs ++ elseBody.toList
  | elifArm condition body | whileLoop _ _ condition body => [condition, body]
  | forLoop _ _ iterable body => iterable ++ [body]
  | caseOf _ subject arms => subject :: arms
  | caseArm patterns body => patterns ++ [body]
  | unary _ operand => [operand]
  | binary _ lhs rhs => [lhs, rhs]
  | ternary thenValue condition elseValue => [thenValue, condition, elseValue]
  | range _ first last => [first, last]
  | call callee args => [callee, args]
  | argList positional named => positional ++ named
  | namedArg _ value => [value]
  | subscript object index => [object, index]
  | member _ object _ => [object]
  | dictEntry key value =>
    match key with
    | .quoted k | .computed k => k :: value.toList
    | .name _ => value.toList
  | heredocDelimiter .. | heredocBody .. | text _ | simpleVarSub _ | bracedVarSub .. | splice _
  | literal _ | var _ | regex _ | error => []

/-- The statements of a program, a block or a subshell. -/
def statements : Form α → List α
  | program body | block body | subshell body => body
  | _ => []

end Form

end ShellAnalysis
