import ShellAnalysis.Proofs.StatementLists

/-!
# Two runs under different budgets

A document is read twice, under limits on tokens and rounds of which one pair is
the tighter.  `Lock w p` says that `p` does the same in both runs from the same
state, unless the tighter limits stop it.  Only the two counters look at these
limits, so the property goes through everything that parsers are put together
from, and it is found by instance search: every production has an instance that
is built from those of the productions it calls.
-/

namespace ShellAnalysis

/-- The first limits on the whole document are the tighter ones; those on one construct are the
same. -/
structure Limits.Tighter (a b : Limits) : Prop where
  tokens : a.tokens ≤ b.tokens
  iterations : a.iterations ≤ b.iterations
  depth : a.depth = b.depth
  chain : a.chain = b.chain

namespace Parse

open Text (size)

/-- A text with two budgets for reading it. -/
structure Budgets where
  text : String
  tight : Limits
  wide : Limits
  tighter : tight.Tighter wide

/-- The document under the tighter limits. -/
def Budgets.low (w : Budgets) : Document := ⟨w.text, w.tight⟩

/-- The document under the wider limits. -/
def Budgets.high (w : Budgets) : Document := ⟨w.text, w.wide⟩

/-- What no statement list catches. -/
def Stopped.Global : Stopped → Prop
  | .limit error => error.isLocal = false
  | .fault => True

/-- The run is stopped for good. -/
def Trips {α : Type} (r : EStateM.Result Stopped State α) : Prop :=
  ∃ e s, r = .error e s ∧ e.Global

/-- From any state the two runs end in the same way, unless the tighter limits stop the first. -/
class Lock {α : Type} (w : Budgets) (p : Parser α) : Prop where
  locked : ∀ s, p w.low s = p w.high s ∨ Trips (p w.low s)

/-! ## Putting parsers together -/

section

variable {α β σ : Type} {w : Budgets} {p q : Parser α} {f : α → Parser β}

theorem bind_apply (doc : Document) (s : State) : (p >>= f) doc s = match p doc s with
    | .ok a s => f a doc s
    | .error e s => .error e s := by
  show EStateM.bind (p doc) (fun a => f a doc) s = _
  unfold EStateM.bind
  cases p doc s <;> rfl

/-- What does not look at the limits. -/
theorem Lock.same (h : ∀ s, p w.low s = p w.high s) : Lock w p := ⟨fun s => .inl (h s)⟩

instance Lock.pure (a : α) : Lock w (Pure.pure a : Parser α) := .same fun _ => rfl

instance Lock.bind [hp : Lock w p] [k : ∀ a, Lock w (f a)] : Lock w (p >>= f) where
  locked s := by
    rw [bind_apply, bind_apply]
    rcases hp.locked s with heq | ⟨e, s', heq, hglobal⟩
    · rw [heq]
      cases p w.high s with
      | ok a s' => exact (k a).locked s'
      | error e s' => exact .inl rfl
    · rw [heq]
      exact .inr ⟨e, s', rfl, hglobal⟩

instance Lock.map {g : α → β} [Lock w p] : Lock w (g <$> p) :=
  inferInstanceAs (Lock w (p >>= fun a => Pure.pure (g a)))

instance Lock.discard [Lock w p] : Lock w (discard p) :=
  inferInstanceAs (Lock w ((fun _ => ()) <$> p))

instance Lock.ite {c : Prop} [Decidable c] [y : Lock w p] [n : Lock w q] :
    Lock w (if c then p else q) := by
  split
  · exact y
  · exact n

instance Lock.rounds {round : σ → Parser (Round σ α)} [∀ state, Lock w (round state)]
    (fuel : Nat) (state : σ) : Lock w (rounds round fuel state) := by
  induction fuel generalizing state with
  | zero => exact .same fun _ => rfl
  | succ fuel ih =>
    unfold Parse.rounds
    refine Lock.bind (k := fun r => ?_)
    cases r with
    | again state => exact ih state
    | finish a => infer_instance

instance Lock.repeatRounds {init : σ} {round : σ → Parser (Round σ α)}
    [k : ∀ state, Lock w (round state)] : Lock w (repeatRounds init round) where
  locked s := Lock.locked (p := Parse.rounds round (size w.text - s.pos + 1) init) s

instance Lock.whileHolds {condition : Parser Bool} {action : Parser Unit} [Lock w condition]
    [Lock w action] : Lock w (whileHolds condition action) := by
  unfold Parse.whileHolds
  infer_instance

instance Lock.manyWhile {condition : Parser Bool} [Lock w condition] [Lock w p] :
    Lock w (manyWhile condition p) := by
  unfold Parse.manyWhile
  infer_instance

instance Lock.catchLocal [hp : Lock w p] : Lock w (catchLocal p) where
  locked s := by
    unfold Parse.catchLocal
    rcases hp.locked s with heq | ⟨e, s', heq, hglobal⟩
    · rw [heq]
      exact .inl rfl
    · rw [heq]
      refine .inr ?_
      cases e with
      | fault => exact ⟨_, _, rfl, trivial⟩
      | limit error =>
        have hglobal : error.isLocal = false := hglobal
        simp only [hglobal]
        exact ⟨_, _, rfl, hglobal⟩

instance Lock.within {enter : Nesting → Nesting} {leave : Nesting → Option Nesting} [hp : Lock w p] :
    Lock w (within enter leave p) where
  locked s := by
    unfold Parse.within
    rcases hp.locked { s with nesting := enter s.nesting } with heq | ⟨e, s', heq, hglobal⟩
    · rw [heq]
      exact .inl rfl
    · rw [heq]
      simp only
      refine .inr ?_
      cases leave s'.nesting with
      | none => exact ⟨.fault, s', rfl, trivial⟩
      | some nesting => exact ⟨e, _, rfl, hglobal⟩

instance Lock.collecting {p : Parser Unit} [hp : Lock w p] : Lock w (collecting p) where
  locked s := by
    unfold Parse.collecting
    rcases hp.locked { s with statements := #[] } with heq | ⟨e, s', heq, hglobal⟩
    · rw [heq]
      exact .inl rfl
    · rw [heq]
      exact .inr ⟨e, _, rfl, hglobal⟩

end

/-! ## Steps -/

section

variable {w : Budgets}

instance : Lock w source := .same fun _ => rfl
instance : Lock w position := .same fun _ => rfl
instance : Lock w current := .same fun _ => rfl
instance : Lock w currentKind := .same fun _ => rfl
instance : Lock w startOffset := .same fun _ => rfl
instance : Lock w peek := .same fun _ => rfl
instance : Lock w adjacent := .same fun _ => rfl
instance : Lock w (get : Parser State) := .same fun _ => rfl
instance (f : State → State) : Lock w (modify f : Parser Unit) := .same fun _ => rfl
instance (kind : TokenKind) : Lock w (atKind kind) := .same fun _ => rfl
instance (word : String) : Lock w (atKeyword word) := .same fun _ => rfl
instance (t : Token) : Lock w (gluedTo t) := .same fun _ => rfl
instance (t : Token) : Lock w (gluedAfter t) := .same fun _ => rfl
instance (t : Token) : Lock w (tokenText t) := .same fun _ => rfl
instance (start : Nat) : Lock w (spanFrom start) := .same fun _ => rfl
instance (i : Nat) : Lock w (setPosition i) := .same fun _ => rfl
instance (d : Diagnostic) : Lock w (report d) := .same fun _ => rfl
instance (folds : Nat) : Lock w (releaseFolds folds) := .same fun _ => rfl
instance : Lock w ascend := .same fun _ => rfl

instance {α : Type} (a? : Option α) : Lock w (orFault a?) := by
  cases a? <;> exact .same fun _ => rfl

instance (span : Span) : Lock w (pieceOf span) := by
  unfold pieceOf
  infer_instance

instance : Lock w positionInText := by
  unfold positionInText
  infer_instance

instance : Lock w skipLineBreak := by
  unfold skipLineBreak
  infer_instance

instance (body : Heredoc.Body) : Lock w (leaveBody body) := by
  unfold leaveBody
  split <;> infer_instance

/-- Only here the two runs can part. -/
instance : Lock w countToken where
  locked s := by
    by_cases hlow : w.tight.tokens < s.tokens + 1
    · refine .inr ⟨.limit (.tokens w.tight.tokens), { s with tokens := s.tokens + 1 }, ?_, rfl⟩
      show (if w.tight.tokens < s.tokens + 1 then _ else _ : Parser Unit) w.low _ = _
      rw [if_pos hlow]
      rfl
    · have hhigh : ¬ w.wide.tokens < s.tokens + 1 := by
        have := w.tighter.tokens
        omega
      refine .inl ?_
      show (if w.tight.tokens < s.tokens + 1 then _ else _ : Parser Unit) w.low _ =
        (if w.wide.tokens < s.tokens + 1 then _ else _ : Parser Unit) w.high _
      rw [if_neg hlow, if_neg hhigh]
      rfl

/-- And here. -/
instance : Lock w countIteration where
  locked s := by
    by_cases hlow : w.tight.iterations < s.iterations + 1
    · refine .inr ⟨.limit (.iterations w.tight.iterations),
        { s with iterations := s.iterations + 1 }, ?_, rfl⟩
      show (if w.tight.iterations < s.iterations + 1 then _ else _ : Parser Unit) w.low _ = _
      rw [if_pos hlow]
      rfl
    · have hhigh : ¬ w.wide.iterations < s.iterations + 1 := by
        have := w.tighter.iterations
        omega
      refine .inl ?_
      show (if w.tight.iterations < s.iterations + 1 then _ else _ : Parser Unit) w.low _ =
        (if w.wide.iterations < s.iterations + 1 then _ else _ : Parser Unit) w.high _
      rw [if_neg hlow, if_neg hhigh]
      rfl

instance : Lock w descend := by
  refine .same fun s => ?_
  show (if w.tight.depth < s.nesting.depth + 1 then stopWith (.nesting w.tight.depth)
      else Pure.pure () : Parser Unit) w.low _ =
    (if w.wide.depth < s.nesting.depth + 1 then stopWith (.nesting w.wide.depth)
      else Pure.pure () : Parser Unit) w.high _
  rw [w.tighter.depth]
  split <;> rfl

instance : Lock w fold := by
  refine .same fun s => ?_
  show (if w.tight.chain < s.nesting.chain + 1 then stopWith (.chain w.tight.chain)
      else Pure.pure () : Parser Unit) w.low _ =
    (if w.wide.chain < s.nesting.chain + 1 then stopWith (.chain w.wide.chain)
      else Pure.pure () : Parser Unit) w.high _
  rw [w.tighter.chain]
  split <;> rfl

instance (t : Token) : Lock w (foundText t) := by
  unfold foundText
  split <;> infer_instance

instance (what : String) : Lock w (reportExpected what) := by
  unfold reportExpected
  infer_instance

instance (found : Bool) (what : String) : Lock w (require found what) := by
  unfold require
  infer_instance

instance (what : String) : Lock w (missing what) := by
  unfold missing
  infer_instance

instance {α : Type} {p : Parser α} [Lock w p] : Lock w (skippingNewlines p) := by
  unfold skippingNewlines
  infer_instance

instance {α : Type} {p : Parser α} [Lock w p] : Lock w (withNewlines p) := by
  unfold withNewlines
  infer_instance

instance {α : Type} {p : Parser α} [Lock w p] : Lock w (insideBackticks p) := by
  unfold insideBackticks
  infer_instance

instance (h : Heredoc) (body : Heredoc.Body) (span : Span) : Lock w (reportUnclosed h body span) := by
  unfold reportUnclosed
  infer_instance

instance (node : Node) : Lock w (holdBody node) := by
  unfold holdBody
  infer_instance

instance (h : Heredoc) : Lock w (readBody h) := by
  unfold readBody
  infer_instance

instance (hs : List Heredoc) : Lock w (readBodies hs) := by
  induction hs with
  | nil => exact Lock.pure ()
  | cons h hs ih =>
    unfold readBodies
    infer_instance

instance : Lock w readPending := by
  unfold readPending
  infer_instance

instance : Lock w bump := by
  unfold bump
  infer_instance

instance (count : Nat) : Lock w (skipTokens count) := by
  induction count with
  | zero => exact Lock.pure ()
  | succ count ih =>
    unfold skipTokens
    infer_instance

instance (i : Nat) : Lock w (advanceTo i) := by
  unfold advanceTo
  infer_instance

instance (kind : TokenKind) : Lock w (eat kind) := by
  unfold eat
  infer_instance

instance (word : String) : Lock w (eatKeyword word) := by
  unfold eatKeyword
  infer_instance

instance {α : Type} {kind : TokenKind} {p : Parser α} [Lock w p] : Lock w (afterEaten? kind p) := by
  unfold afterEaten?
  infer_instance

instance (kind : TokenKind) (what : String) : Lock w (expect kind what) := by
  unfold expect
  infer_instance

instance (word : String) : Lock w (expectKeyword word) := by
  unfold expectKeyword
  infer_instance

instance (what : String) : Lock w (forceAdvance what) := by
  unfold forceAdvance
  infer_instance

instance : Lock w skipNewlines := by
  unfold skipNewlines
  infer_instance

instance (what : String) : Lock w (identName what) := by
  unfold identName
  infer_instance

instance : Lock w identName? := by
  unfold identName?
  infer_instance

end

/-! ## Levels -/

/-- A level whose productions do the same in both runs. -/
structure Level (w : Budgets) where
  grammar : Grammar
  statements : ∀ stops stopAfterBlock, Lock w (grammar.statements stops stopAfterBlock)
  expression : ∀ power, Lock w (grammar.expression power)
  operators : ∀ power, Lock w (grammar.operators power)
  word : Lock w grammar.word
  stringLiteral : Lock w grammar.stringLiteral
  block : Lock w grammar.block

attribute [instance] Level.statements Level.expression Level.operators Level.word
  Level.stringLiteral Level.block

/-- Entering a level does the same in both runs and gives such a level. -/
class EntersLevel (w : Budgets) (enter : Parser Grammar) : Prop where
  enters : Lock w enter
  level : ∀ s g s', enter w.high s = .ok g s' → ∃ l : Level w, l.grammar = g

instance Lock.entered {α : Type} {w : Budgets} {enter : Parser Grammar} [he : EntersLevel w enter]
    {f : Grammar → Parser α} [hf : ∀ l : Level w, Lock w (f l.grammar)] : Lock w (enter >>= f) where
  locked s := by
    rw [bind_apply, bind_apply]
    rcases he.enters.locked s with heq | ⟨e, s', heq, hglobal⟩
    · rw [heq]
      cases hg : enter w.high s with
      | ok g s' =>
        obtain ⟨l, rfl⟩ := he.level s g s' hg
        exact (hf l).locked s'
      | error e s' => exact .inl rfl
    · rw [heq]
      exact .inr ⟨e, s', rfl, hglobal⟩

/-! ## Words -/

section

variable {α : Type} {w : Budgets} {enter : Parser Grammar}

instance : Lock w atBlockOpen := .same fun _ => rfl

instance : Lock w atWord := by
  unfold atWord
  refine Lock.bind (k := fun kind => ?_)
  split <;> infer_instance

instance : Lock w inWord := by
  unfold inWord
  refine Lock.bind (k := fun adjacent => ?_)
  refine Lock.ite (n := ?_)
  refine Lock.bind (k := fun kind => ?_)
  split <;> infer_instance

instance (parts : Array Node) (span : Span) : Lock w (pushText parts span) := by
  unfold pushText
  split <;> infer_instance

instance : Lock w bracedVarSub := by
  unfold bracedVarSub
  infer_instance

instance (close : TokenKind) (what : String) {p : Parser α} [Lock w p] :
    Lock w (closedBy close what p) := by
  unfold closedBy
  infer_instance

instance [EntersLevel w enter] (close : TokenKind) (what : String) {content : Grammar → Parser α}
    (form : α → Form Node) [∀ l : Level w, Lock w (content l.grammar)] :
    Lock w (bracketed enter close what content form) := by
  unfold bracketed
  infer_instance

instance [EntersLevel w enter] : Lock w (commandSub enter) := by
  unfold commandSub
  infer_instance

instance [EntersLevel w enter] : Lock w (backtickSub enter) := by
  unfold backtickSub
  -- The usual search is too short for a production of many steps.
  set_option synthInstance.maxSize 1024 in
  infer_instance

instance [EntersLevel w enter] : Lock w (exprSub enter) := by
  unfold exprSub
  infer_instance

instance (t : Token) : Lock w (afterSigil t) := by
  unfold afterSigil
  infer_instance

instance [EntersLevel w enter] : Lock w (substitution? enter) := by
  unfold substitution?
  refine Lock.bind (k := fun kind => ?_)
  split <;> infer_instance

instance (style : StringStyle) (parts : Array Node) : Lock w (stringRun style parts) := by
  unfold stringRun
  refine Lock.bind (k := fun text => Lock.bind (k := fun i => Lock.bind (k := fun found => ?_)))
  split <;> infer_instance

instance [EntersLevel w enter] (style : StringStyle) (parts : Array Node) :
    Lock w (stringRound enter style parts) := by
  have hsub : ∀ (i : Nat) (parts : Array Node) (sub? : Option Node), Lock w (match sub? with
      | some sub => Pure.pure (.again (parts.push sub))
      | none => do
        advanceTo (i + 1)
        return .again (← pushText parts ⟨i, 1⟩) :
        Parser (Round (Array Node) (Array Node × Bool))) := by
    intro i parts sub?
    cases sub? <;> infer_instance
  unfold stringRound
  infer_instance

instance [EntersLevel w enter] : Lock w (stringLiteral enter) := by
  unfold stringLiteral
  refine Lock.bind (k := fun start => Lock.bind (k := fun opener => Lock.bind (k := fun r => ?_)))
  obtain ⟨parts, closed⟩ := r
  infer_instance

instance [EntersLevel w enter] (parts : Array Node) : Lock w (wordRound enter parts) := by
  have hpart : ∀ (kind : TokenKind) (part? : Option Node), Lock w (match part? with
      | some part => Pure.pure (.again (parts.push part))
      | none =>
        if kind.isQuote then do return .again (parts.push (← stringLiteral enter))
        else if kind == .eof then Pure.pure (.finish parts)
        else do return .again (← pushText parts (← bump).span) :
        Parser (Round (Array Node) (Array Node))) := by
    intro kind part?
    cases part? <;> infer_instance
  unfold wordRound
  infer_instance

instance [EntersLevel w enter] : Lock w (word enter) := by
  unfold word
  infer_instance

end

/-! ## Expressions -/

section

variable {α : Type} {w : Budgets} {enter : Parser Grammar} {l : Level w}

instance (word : String) : Lock w (peekIsWord word) := .same fun _ => rfl

instance : Lock w infixOp? := by
  unfold infixOp?
  refine Lock.bind (k := fun t => ?_)
  split
  case h_9 =>
    refine Lock.bind (k := fun text => ?_)
    split <;> infer_instance
  case h_10 => split <;> infer_instance
  all_goals infer_instance

instance : Lock w comparison? := by
  unfold comparison?
  refine Lock.bind (k := fun t => Lock.ite (y := Lock.bind (k := fun text => ?_)))
  split <;> infer_instance

instance : Lock w eatComparison? := by
  unfold eatComparison?
  refine Lock.bind (k := fun found => ?_)
  split <;> infer_instance

instance : Lock w atExprStart := .same fun _ => rfl

instance : Lock w intLiteral := by
  unfold intLiteral
  refine Lock.bind (k := fun t => Lock.bind (k := fun text => ?_))
  split <;> infer_instance

instance : Lock w floatLiteral := by
  unfold floatLiteral
  infer_instance

instance (start : Nat) : Lock w (regexContent start) := by
  unfold regexContent
  refine Lock.bind (k := fun text => Lock.bind (k := fun i => Lock.bind (k := fun found => ?_)))
  split
  · infer_instance
  · refine Lock.bind (k := fun _ => ?_)
    split <;> infer_instance

instance : Lock w regexClose := by
  unfold regexClose
  infer_instance

instance : Lock w regexLiteral := by
  unfold regexLiteral
  infer_instance

instance [EntersLevel w enter] (power : Nat) : Lock w (expression enter power) := by
  unfold expression
  infer_instance

instance [EntersLevel w enter] (op : UnaryOp) (power : Nat) : Lock w (unary enter op power) := by
  unfold unary
  infer_instance

instance [EntersLevel w enter] (first : Node) : Lock w (moreItems enter first) := by
  unfold moreItems
  infer_instance

instance [EntersLevel w enter] : Lock w (parenOrTuple enter) := by
  unfold parenOrTuple
  set_option synthInstance.maxSize 1024 in
  infer_instance

instance (close : TokenKind) : Lock w (atListEnd close) := .same fun _ => rfl

instance (items : Array Node) : Lock w (listRound l.grammar items) := by
  unfold listRound
  infer_instance

instance [EntersLevel w enter] : Lock w (listLiteral enter) := by
  unfold listLiteral
  infer_instance

instance : Lock w (dictKey? l.grammar) := by
  unfold dictKey?
  infer_instance

instance (entries : Array Node) : Lock w (dictRound l.grammar entries) := by
  have hentry : ∀ (start : Nat) (key? : Option (DictKey Node)), Lock w (match key? with
      | none => do return .again (entries.push (← forceAdvance "a dict key"))
      | some key => do
        let value ← afterEaten? .colon (l.grammar.expression 0)
        let entries := entries.push (.make (.dictEntry key value) (← spanFrom start))
        if ← eat .comma then return .again entries else return .finish entries.toList :
        Parser (Round (Array Node) (List Node))) := by
    intro start key?
    cases key? <;> infer_instance
  unfold dictRound
  infer_instance

instance [EntersLevel w enter] : Lock w (dictLiteral enter) := by
  unfold dictLiteral
  infer_instance

instance : Lock w (namedArg l.grammar) := by
  unfold namedArg
  infer_instance

instance (args : Arguments) : Lock w (argument l.grammar args) := by
  unfold argument
  infer_instance

instance (args : Arguments) : Lock w (argRound l.grammar args) := by
  unfold argRound
  set_option synthInstance.maxSize 1024 in
  infer_instance

instance [EntersLevel w enter] : Lock w (argList enter) := by
  unfold argList
  infer_instance

instance [EntersLevel w enter] : Lock w (nameOperand enter) := by
  unfold nameOperand
  infer_instance

instance [EntersLevel w enter] : Lock w (operand enter) := by
  have hmissing : ∀ node? : Option Node, Lock w (match node? with
      | some node => Pure.pure node
      | none => missing "an expression") := by
    intro node?
    cases node? <;> infer_instance
  unfold operand
  refine Lock.bind (k := fun kind => ?_)
  split <;> infer_instance

instance [EntersLevel w enter] : Lock w (subscriptIndex enter) := by
  unfold subscriptIndex
  infer_instance

instance [EntersLevel w enter] (first : Node) : Lock w (comparisonChain enter first) := by
  have hround : ∀ (r : Array CompareOp × Array Node) (op? : Option CompareOp), Lock w (match op? with
      | some op => do return .again (r.1.push op, r.2.push (← expression enter comparePower))
      | none => Pure.pure (.finish (.compare r.1.toList r.2.toList)) :
        Parser (Round (Array CompareOp × Array Node) (Form Node))) := by
    intro r op?
    cases op? <;> infer_instance
  unfold comparisonChain
  infer_instance

instance [EntersLevel w enter] : Lock w (elseOperand enter) := by
  unfold elseOperand
  infer_instance

instance [EntersLevel w enter] (op : Infix) (lhs : Node) : Lock w (foldOperator enter op lhs) := by
  unfold foldOperator
  split <;> infer_instance

instance [EntersLevel w enter] (power start : Nat) (lhs : Node) (folds : Nat) :
    Lock w (operatorRound enter power start lhs folds) := by
  unfold operatorRound
  refine Lock.bind (k := fun op? => ?_)
  split <;> infer_instance

instance [EntersLevel w enter] (power : Nat) : Lock w (operators enter power) := by
  unfold operators
  infer_instance

instance [EntersLevel w enter] : Lock w (exprOrTuple enter) := by
  unfold exprOrTuple
  infer_instance

instance [EntersLevel w enter] : Lock w (place enter) := by
  unfold place
  infer_instance

instance : Lock w (parenExpr l.grammar) := by
  unfold parenExpr
  infer_instance

end

/-! ## Commands -/

section

variable {w : Budgets} {enter : Parser Grammar} {l : Level w}

instance : Lock w atRedirect := by
  unfold atRedirect
  infer_instance

instance (piece : Scanned) (heredoc : Heredoc) : Lock w (announce piece heredoc) := by
  unfold announce
  split <;> infer_instance

instance (start : Nat) (fd : Option Nat) : Lock w (heredocRedirect start fd) := by
  unfold heredocRedirect
  refine Lock.bind (k := fun text => Lock.bind (k := fun i => Lock.bind (k := fun start => ?_)))
  split <;> infer_instance

instance : Lock w redirectDescriptor := by
  unfold redirectDescriptor
  infer_instance

instance [EntersLevel w enter] : Lock w (redirectTarget enter) := by
  unfold redirectTarget
  infer_instance

instance [EntersLevel w enter] : Lock w (redirect enter) := by
  unfold redirect
  infer_instance

instance : Lock w atAssignment := by
  unfold atAssignment
  infer_instance

instance [EntersLevel w enter] : Lock w (arrayLiteral enter) := by
  unfold arrayLiteral
  infer_instance

instance [EntersLevel w enter] : Lock w (assignedValue enter) := by
  unfold assignedValue
  infer_instance

instance [EntersLevel w enter] : Lock w (assignment enter) := by
  unfold assignment
  infer_instance

instance [EntersLevel w enter] (stop : StopAt) (close : TokenKind) (what : String)
    (form : List Node → Form Node) : Lock w (enclosed enter stop close what form) := by
  unfold enclosed
  set_option synthInstance.maxSize 1024 in
  infer_instance

instance [EntersLevel w enter] : Lock w (braceBlock enter) := by
  unfold braceBlock
  infer_instance

instance [EntersLevel w enter] : Lock w (subshell enter) := by
  unfold subshell
  infer_instance

instance [EntersLevel w enter] : Lock w (functionBody enter) := by
  unfold functionBody
  refine Lock.bind (k := fun kind => ?_)
  split <;> infer_instance

instance [EntersLevel w enter] (start : Nat) (name : Name) :
    Lock w (shellFunction enter start name) := by
  unfold shellFunction
  infer_instance

instance (d : Draft) : Lock w (functionName? d) := by
  unfold functionName?
  infer_instance

instance [EntersLevel w enter] (d : Draft) : Lock w (commandWord enter d) := by
  unfold commandWord
  infer_instance

instance [EntersLevel w enter] (d : Draft) : Lock w (commandRound enter d) := by
  have hname : ∀ name? : Option Node, Lock w (match name? with
      | some name => Pure.pure (.function name)
      | none =>
        if d.words.isEmpty || d.typedArgs.isSome then Pure.pure (.finish d)
        else do return .again { d with typedArgs := some (← argList enter) } :
        Parser CommandRound) := by
    intro name?
    cases name? <;> infer_instance
  unfold commandRound
  refine Lock.bind (k := fun redirect => Lock.ite (n := Lock.bind (k := fun kind => ?_)))
  split <;> infer_instance

instance [EntersLevel w enter] : Lock w (simpleCommand enter) := by
  have hround : ∀ (start : Nat) (r : CommandRound), Lock w (match r with
      | .again d => Pure.pure (.again d)
      | .finish d => do return .finish (.make (.command d.toCommand) (← spanFrom start))
      | .function word => do
        let name : Name := ⟨← pieceOf word.span, word.span⟩
        discard bump
        discard bump
        return .finish (← shellFunction enter start name) : Parser (Round Draft Node)) := by
    intro start r
    cases r <;> infer_instance
  unfold simpleCommand
  infer_instance

end

/-! ## Definitions -/

section

variable {w : Budgets} {enter : Parser Grammar} {l : Level w}

instance (what : String) : Lock w (nameWord what) := by
  unfold nameWord
  infer_instance

instance (group : ParamGroup) : Lock w (param l.grammar group) := by
  unfold param
  infer_instance

instance (params : Array Node) (group : ParamGroup) :
    Lock w (paramRound l.grammar params group) := by
  unfold paramRound
  refine Lock.bind (k := fun kind => ?_)
  split <;> infer_instance

instance (group : ParamGroup) : Lock w (paramList l.grammar group) := by
  unfold paramList
  infer_instance

instance (group : ParamGroup) (required : Bool) : Lock w (signature l.grammar group required) := by
  unfold signature
  infer_instance

instance : Lock w (definitionBody l.grammar) := by
  unfold definitionBody
  infer_instance

instance [EntersLevel w enter] {form : Grammar → Parser (Form Node)}
    [∀ l : Level w, Lock w (form l.grammar)] : Lock w (construct enter form) := by
  unfold construct
  infer_instance

instance (kind : CallableKind) {name : Parser Name} [Lock w name] (group : ParamGroup)
    (required : Bool) : Lock w (callable kind name group required l.grammar) := by
  unfold callable
  infer_instance

instance [EntersLevel w enter] : Lock w (procDef enter) := by
  unfold procDef
  infer_instance

instance [EntersLevel w enter] : Lock w (funcDef enter) := by
  unfold funcDef
  infer_instance

instance : Lock w eatParens := by
  unfold eatParens
  infer_instance

instance [EntersLevel w enter] : Lock w (functionKeyword enter) := by
  unfold functionKeyword
  infer_instance

instance : Lock w typedNames := by
  unfold typedNames
  infer_instance

instance [EntersLevel w enter] (keyword : DeclKeyword) : Lock w (varDecl enter keyword) := by
  unfold varDecl
  infer_instance

instance [EntersLevel w enter] : Lock w (mutationTargets enter) := by
  unfold mutationTargets
  infer_instance

instance (keyword : MutationKeyword) : Lock w (mutationOpener keyword) := by
  unfold mutationOpener
  infer_instance

instance [EntersLevel w enter] : Lock w (mutationValue enter) := by
  unfold mutationValue
  refine Lock.bind (k := fun kind => ?_)
  split <;> infer_instance

instance [EntersLevel w enter] (keyword : MutationKeyword) : Lock w (mutation enter keyword) := by
  unfold mutation
  infer_instance

instance : Lock w atBareMutation := .same fun _ => rfl

instance [EntersLevel w enter] (keyword : ExprKeyword) : Lock w (exprStatement enter keyword) := by
  unfold exprStatement
  infer_instance

end

/-! ## Control flow -/

section

variable {w : Budgets} {enter : Parser Grammar} {l : Level w}

instance (stops : List StopAt) : Lock w (blockUntil l.grammar stops) := by
  unfold blockUntil
  infer_instance

instance (keyword : String) (conditionStops bodyStops : List StopAt) :
    Lock w (conditionalArm l.grammar keyword conditionStops bodyStops) := by
  have htake : ∀ (start : Nat) (commands : List Node) (taken? : Option (List Node × Node)),
      Lock w (match taken? with
        | some (commands, body) => Pure.pure ⟨.command, blockOf commands start, body, true⟩
        | none => do
          let body ← missing ("`" ++ keyword ++ "` or `\x7b`")
          return ⟨.command, blockOf commands start, body, false⟩ : Parser Arm) := by
    intro start commands taken?
    cases taken? <;> infer_instance
  unfold conditionalArm
  infer_instance

instance (braced : Bool) (word : String) : Lock w (closeBody braced word) := by
  unfold closeBody
  infer_instance

instance : Lock w (elifArm l.grammar) := by
  unfold elifArm
  infer_instance

instance (braced : Bool) : Lock w (elsePart l.grammar braced) := by
  unfold elsePart
  infer_instance

instance : Lock w (ifForm l.grammar) := by
  unfold ifForm
  infer_instance

instance [EntersLevel w enter] : Lock w (ifStatement enter) := by
  unfold ifStatement
  infer_instance

instance (negated : Bool) : Lock w (whileForm negated l.grammar) := by
  unfold whileForm
  infer_instance

instance [EntersLevel w enter] (negated : Bool) : Lock w (whileStatement enter negated) := by
  unfold whileStatement
  infer_instance

instance : Lock w loopVariables := by
  unfold loopVariables
  infer_instance

instance : Lock w (loopIterable l.grammar) := by
  unfold loopIterable
  infer_instance

instance : Lock w atSeparator := .same fun _ => rfl

instance : Lock w (forBody l.grammar) := by
  unfold forBody
  infer_instance

instance : Lock w (forForm l.grammar) := by
  unfold forForm
  infer_instance

instance [EntersLevel w enter] : Lock w (forStatement enter) := by
  unfold forStatement
  infer_instance

instance : Lock w (bracedPattern? l.grammar) := by
  unfold bracedPattern?
  refine Lock.bind (k := fun kind => ?_)
  split <;> infer_instance

instance : Lock w (bracedPatterns l.grammar) := by
  have hround : ∀ (patterns : Array Node) (pattern? : Option Node), Lock w (match pattern? with
      | none => Pure.pure (.finish patterns.toList)
      | some pattern => do
        let patterns := patterns.push pattern
        if ← eat .pipe then return .again patterns else return .finish patterns.toList :
        Parser (Round (Array Node) (List Node))) := by
    intro patterns pattern?
    cases pattern? <;> infer_instance
  unfold bracedPatterns
  infer_instance

instance (arms : Array Node) : Lock w (bracedArmRound l.grammar arms) := by
  unfold bracedArmRound
  set_option synthInstance.maxSize 1024 in
  infer_instance

instance : Lock w (wordPatterns l.grammar) := by
  unfold wordPatterns
  infer_instance

instance (arms : Array Node) : Lock w (wordArmRound l.grammar arms) := by
  unfold wordArmRound
  refine Lock.bind (k := fun _ => Lock.bind (k := fun _ => Lock.bind (k := fun _ => ?_)))
  set_option synthInstance.maxSize 1024 in
  infer_instance

instance : Lock w (bracedCase l.grammar) := by
  unfold bracedCase
  infer_instance

instance : Lock w (wordSubject l.grammar) := by
  unfold wordSubject
  infer_instance

instance : Lock w (wordCase l.grammar) := by
  unfold wordCase
  infer_instance

instance : Lock w (caseForm l.grammar) := by
  unfold caseForm
  infer_instance

instance [EntersLevel w enter] : Lock w (caseStatement enter) := by
  unfold caseStatement
  infer_instance

end

/-! ## Statements -/

section

variable {w : Budgets} {enter : Parser Grammar}

theorem simpleKeyword?_lock [EntersLevel w enter] {word : String} {p : Parser Node}
    (h : simpleKeyword? enter word = some p) : Lock w p := by
  unfold simpleKeyword? at h
  split at h
  case h_9 =>
    split at h
    · cases h
      infer_instance
    · cases h
  all_goals
    cases h
    infer_instance

theorem compoundKeyword?_lock [EntersLevel w enter] {word : String} {p : Parser Node}
    (h : compoundKeyword? enter word = some p) : Lock w p := by
  unfold compoundKeyword? at h
  split at h
  case h_6 => cases h
  all_goals
    cases h
    infer_instance

instance [EntersLevel w enter] : Lock w (keywordStatement? enter) := by
  have hword : ∀ word : String, Lock w (match simpleKeyword? enter word, compoundKeyword? enter word with
      | some p, _ => do return some ⟨← p, false⟩
      | none, some p => do return some ⟨← p, true⟩
      | none, none => do
        if ← atBareMutation then return some ⟨← mutation enter .bare, false⟩ else return none :
        Parser (Option KeywordStatement)) := by
    intro word
    split
    · rename_i hp
      have := simpleKeyword?_lock (w := w) hp
      infer_instance
    · rename_i hp
      have := compoundKeyword?_lock (w := w) hp
      infer_instance
    · infer_instance
  unfold keywordStatement?
  infer_instance

instance [EntersLevel w enter] (start : Nat) (node : Node) :
    Lock w (withRedirects enter start node) := by
  unfold withRedirects
  infer_instance

instance [EntersLevel w enter] : Lock w (command enter) := by
  have hkeyword : ∀ (start : Nat) (k? : Option KeywordStatement), Lock w (match k? with
      | some k => if k.compound then withRedirects enter start k.node else Pure.pure k.node
      | none => simpleCommand enter) := by
    intro start k?
    cases k? <;> infer_instance
  unfold command
  refine Lock.bind (k := fun start => Lock.bind (k := fun kind => ?_))
  split <;> infer_instance

instance [EntersLevel w enter] (first : Node) : Lock w (moreStages enter first) := by
  unfold moreStages
  infer_instance

instance [EntersLevel w enter] : Lock w (pipeline enter) := by
  unfold pipeline
  infer_instance

instance [EntersLevel w enter] (first : Node) : Lock w (morePipelines enter first) := by
  unfold morePipelines
  refine Lock.repeatRounds (k := fun r => Lock.bind (k := fun kind => ?_))
  split <;> infer_instance

instance [EntersLevel w enter] : Lock w (pipelines enter) := by
  unfold pipelines
  infer_instance

instance [EntersLevel w enter] : Lock w (andOr enter) := by
  unfold andOr
  infer_instance

instance (bodies : List Node) : Lock w (placeBodies bodies) := by
  induction bodies with
  | nil => exact Lock.pure ()
  | cons body rest ih =>
    unfold placeBodies
    refine Lock.bind (k := fun s => ?_)
    simp only
    split <;> infer_instance

instance : Lock w drainHeredocs := by
  unfold drainHeredocs
  infer_instance

instance (node : Node) : Lock w (pushStatement node) := .same fun _ => rfl

instance (error : LimitError) (start : Nat) (nesting : Nesting) :
    Lock w (abandon error start nesting) := by
  unfold abandon modifyNesting
  infer_instance

instance (stop : StopAt) : Lock w stop.holds := by
  cases stop <;> exact .same fun _ => rfl

instance (stops : List StopAt) : Lock w (atStop stops) := by
  unfold atStop
  induction stops with
  | nil => exact Lock.pure false
  | cons stop stops ih =>
    rw [List.anyM]
    refine Lock.bind (k := fun found => ?_)
    cases found with
    | true => exact Lock.pure true
    | false => exact ih

instance (stops : List StopAt) (statement : Node) : Lock w (separated stops statement) := by
  unfold separated
  split
  · infer_instance
  · refine Lock.bind (k := fun kind => ?_)
    split <;> infer_instance

instance (stops : List StopAt) (stopAfterBlock : Bool) (before start : Nat) (nesting : Nesting)
    (r : Except LimitError Node) :
    Lock w (takeStatement stops stopAfterBlock before start nesting r) := by
  unfold takeStatement
  set_option synthInstance.maxSize 1024 in
  cases r <;> infer_instance

instance [EntersLevel w enter] (stops : List StopAt) (stopAfterBlock : Bool) :
    Lock w (statementRest enter stops stopAfterBlock) := by
  unfold statementRest
  infer_instance

instance [EntersLevel w enter] (stops : List StopAt) (stopAfterBlock : Bool) :
    Lock w (statementRound enter stops stopAfterBlock) := by
  rw [statementRound_eq]
  unfold countedRound
  infer_instance

instance [EntersLevel w enter] (stops : List StopAt) (stopAfterBlock : Bool) :
    Lock w (statementList enter stops stopAfterBlock) := by
  unfold statementList
  infer_instance

end

/-! ## All levels -/

section

variable {w : Budgets} {enter : Parser Grammar}

/-- The level over a way into the next one. -/
def Level.over (w : Budgets) (enter : Parser Grammar) [EntersLevel w enter] : Level w where
  grammar := .over enter
  statements := fun stops stopAfterBlock =>
    inferInstanceAs (Lock w (collecting (statementList enter stops stopAfterBlock)))
  expression := fun power => inferInstanceAs (Lock w (Parse.expression enter power))
  operators := fun power => inferInstanceAs (Lock w (Parse.operators enter power))
  word := inferInstanceAs (Lock w (Parse.word enter))
  stringLiteral := inferInstanceAs (Lock w (Parse.stringLiteral enter))
  block := inferInstanceAs (Lock w (braceBlock enter))

instance entersLevel_enterLevel (levels : Nat) : EntersLevel w (enterLevel levels) := by
  induction levels with
  | zero =>
    refine ⟨Lock.bind (k := fun _ => .same fun _ => rfl), fun s g s' h => ?_⟩
    rw [enterLevel, bind_apply] at h
    split at h <;> cases h
  | succ levels ih =>
    refine ⟨Lock.bind (k := fun _ => Lock.pure _), fun s g s' h => ?_⟩
    rw [enterLevel, bind_apply] at h
    split at h
    · cases h
      exact ⟨Level.over w (enterLevel levels), rfl⟩
    · cases h

end

end Parse

end ShellAnalysis
