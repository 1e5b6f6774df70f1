import ShellAnalysis.Proofs.Built.Rules
import ShellAnalysis.Proofs.Lockstep

/-!
# The nesting comes back

A grammar is compared with a second one that may do something else where newlines
are skipped.  `Mirrored I change p q` says two things: started where `I` says
whether newlines are skipped, `p` and `q` do the same; and wherever it is started,
`p` changes the nesting as `change` says.

    Staying I p q      `p` comes back to the nesting it started in
    Leaving I p q      `p` leaves the construct around it

Only statements need to know that newlines are not skipped: words and expressions
stay anywhere, commands where newlines are tokens.  The property goes through
everything that parsers are put together from and is found by instance search.
-/

namespace ShellAnalysis.Parse

open Text (size)

/-- Newlines may be skipped or not. -/
def Anywhere : Nat → Prop := fun _ => True

/-- Newlines are tokens. -/
def Unskipped : Nat → Prop := fun skip => skip = 0

/-- Two parsers do the same where newlines are skipped as `I` says, and the first one changes the
nesting in this way if it gives a result. -/
class Mirrored {α : Type} (I : Nat → Prop) (change : Nesting → Nesting) (p q : Parser α) :
    Prop where
  same : ∀ doc s, I s.nesting.newlineSkip → p doc s = q doc s
  nesting : ∀ {doc s a s'}, p doc s = .ok a s' → s'.nesting = change s.nesting

/-- The first parser comes back to the nesting it started in. -/
abbrev Staying {α : Type} (I : Nat → Prop) (p q : Parser α) : Prop := Mirrored I id p q

/-- The first parser leaves the construct around it. -/
abbrev Leaving {α : Type} (I : Nat → Prop) (p q : Parser α) : Prop :=
  Mirrored I Nesting.outward p q

/-! ## Putting parsers together -/

section

variable {α β σ : Type} {I : Nat → Prop} {change : Nesting → Nesting} {p p' q q' : Parser α}
  {f g : α → Parser β}

theorem ok_of_bind {doc : Document} {s s' : State} {b : β} (h : (p >>= f) doc s = .ok b s') :
    ∃ a s₁, p doc s = .ok a s₁ ∧ f a doc s₁ = .ok b s' := by
  rw [bind_apply] at h
  split at h
  · rename_i a s₁ heq
    exact ⟨a, s₁, heq, h⟩
  · cases h

theorem bind_same {doc : Document} {s : State} (h : p doc s = q doc s) :
    (p >>= f) doc s = (q >>= f) doc s := by
  rw [bind_apply, bind_apply, h]

/-- A parser that comes back to its nesting from any state, besides itself. -/
theorem Mirrored.self (h : ∀ {doc s a s'}, p doc s = .ok a s' → s'.nesting = s.nesting) :
    Staying I p p := ⟨fun _ _ _ => rfl, h⟩

/-- What only looks at the state stays where it is. -/
instance Mirrored.of_looks [h : Looking p] : Staying I p p := .self fun {doc s _ _} heq => by
  obtain ⟨a, ha⟩ := h.looks doc s
  rw [ha] at heq
  cases heq
  rfl

theorem same_of_staying [h : Staying I p q] {doc : Document} {s : State}
    (hI : I s.nesting.newlineSkip) : p doc s = q doc s := h.same doc s hI

theorem nesting_of_staying (q : Parser α) [h : Staying Anywhere p q] {doc : Document} {s s' : State}
    {a : α} (heq : p doc s = .ok a s') : s'.nesting = s.nesting := h.nesting heq

instance Mirrored.pure (a : α) : Staying I (Pure.pure a : Parser α) (Pure.pure a) := .of_looks

/-- The second parser starts in the nesting of the first one. -/
instance Mirrored.bind [hp : Staying I p q] [k : ∀ a, Mirrored I change (f a) (g a)] :
    Mirrored I change (p >>= f) (q >>= g) where
  same doc s hI := by
    rw [bind_apply, bind_apply, ← hp.same doc s hI]
    cases heq : p doc s with
    | ok a s' =>
      refine (k a).same doc s' ?_
      rw [hp.nesting heq]
      exact hI
    | error e s' => rfl
  nesting h := by
    obtain ⟨a, s₁, heq, h⟩ := ok_of_bind h
    exact ((k a).nesting h).trans (congrArg change (hp.nesting heq))

instance Mirrored.map {g : α → β} [Staying I p q] : Staying I (g <$> p) (g <$> q) :=
  inferInstanceAs (Staying I (p >>= fun a => Pure.pure (g a)) (q >>= fun a => Pure.pure (g a)))

instance Mirrored.discard [Staying I p q] : Staying I (discard p) (discard q) :=
  inferInstanceAs (Staying I ((fun _ => ()) <$> p) ((fun _ => ()) <$> q))

instance Mirrored.ite {c : Prop} [Decidable c] [y : Mirrored I change p q]
    [n : Mirrored I change p' q'] :
    Mirrored I change (if c then p else p') (if c then q else q') := by
  split
  · exact y
  · exact n

/-- A loop keeps what its rounds keep of the nesting, and two loops do the same if their rounds do
the same in such a nesting. -/
theorem rounds_mirrored {r r' : σ → Parser (Round σ α)} {K : σ → Nesting → Prop}
    {L : α → Nesting → Prop} {doc : Document}
    (hsame : ∀ state s, K state s.nesting → r state doc s = r' state doc s)
    (hround : ∀ state s next s', K state s.nesting → r state doc s = .ok next s' →
      Brings (fun state => K state s'.nesting) (fun a => L a s'.nesting) next)
    (init : σ) {s : State} (hs : K init s.nesting) :
    repeatRounds init r doc s = repeatRounds init r' doc s ∧
      ∀ {a s'}, repeatRounds init r doc s = .ok a s' → L a s'.nesting := by
  have hrounds : ∀ fuel state s, K state s.nesting →
      rounds r fuel state doc s = rounds r' fuel state doc s ∧
        ∀ {a s'}, rounds r fuel state doc s = .ok a s' → L a s'.nesting := by
    intro fuel
    induction fuel with
    | zero => exact fun _ _ _ => ⟨rfl, nofun⟩
    | succ fuel ih =>
      intro state s hs
      unfold rounds
      rw [bind_apply, bind_apply, ← hsame state s hs]
      cases heq : r state doc s with
      | error e s' => exact ⟨rfl, nofun⟩
      | ok next s' =>
        have hnext := hround state s next s' hs heq
        cases next with
        | again state' => exact ih state' s' hnext
        | finish a =>
          refine ⟨rfl, fun h => ?_⟩
          cases h
          exact hnext
  exact hrounds (size doc.text - s.pos + 1) init s hs

instance Mirrored.repeatRounds {init : σ} {r r' : σ → Parser (Round σ α)}
    [k : ∀ state, Staying I (r state) (r' state)] :
    Staying I (repeatRounds init r) (repeatRounds init r') := by
  have hround : ∀ (doc : Document) (n : Nesting) state s next s', s.nesting = n →
      r state doc s = .ok next s' →
      Brings (fun _ => s'.nesting = n) (fun _ => s'.nesting = n) next := by
    intro doc n state s next s' hs heq
    cases next <;> exact ((k state).nesting heq).trans hs
  constructor
  · intro doc s hI
    refine (rounds_mirrored (K := fun _ n => n = s.nesting) (L := fun _ n => n = s.nesting)
      (fun state s' hs' => ?_) (hround doc s.nesting) init rfl).1
    exact (k state).same doc s' (by rw [hs']; exact hI)
  · intro doc s a s' h
    exact (rounds_mirrored (K := fun _ n => n = s.nesting) (L := fun _ n => n = s.nesting)
      (fun _ _ _ => rfl) (hround doc s.nesting) init rfl).2 h

instance Mirrored.whileHolds {condition condition' : Parser Bool} {action action' : Parser Unit}
    [Staying I condition condition'] [Staying I action action'] :
    Staying I (whileHolds condition action) (whileHolds condition' action') := by
  unfold Parse.whileHolds
  infer_instance

instance Mirrored.manyWhile {condition condition' : Parser Bool} [Staying I condition condition']
    [Staying I p q] : Staying I (manyWhile condition p) (manyWhile condition' q) := by
  unfold Parse.manyWhile
  infer_instance

theorem within_same {J : Nat → Prop} {enter : Nesting → Nesting} {leave : Nesting → Option Nesting}
    [hp : Staying J p q] {doc : Document} {s : State} (hJ : J (enter s.nesting).newlineSkip) :
    within enter leave p doc s = within enter leave q doc s := by
  unfold within
  rw [hp.same doc { s with nesting := enter s.nesting } hJ]

/-- What is changed on the way in is changed back on the way out. -/
theorem within_nesting {J : Nat → Prop} {enter : Nesting → Nesting}
    {leave : Nesting → Option Nesting} [hp : Staying J p q] {doc : Document} {s s' : State} {a : α}
    (hleave : leave (enter s.nesting) = some s.nesting)
    (h : within enter leave p doc s = .ok a s') : s'.nesting = s.nesting := by
  unfold within at h
  split at h
  · rename_i a s₁ heq
    have hback : s₁.nesting = enter s.nesting := hp.nesting heq
    rw [hback, hleave] at h
    cases h
    rfl
  · split at h <;> cases h

instance Mirrored.skippingNewlines [Staying Anywhere p q] :
    Staying I (skippingNewlines p) (skippingNewlines q) where
  same _ _ _ := within_same (J := Anywhere) trivial
  nesting h := within_nesting (J := Anywhere) (q := q) rfl h

instance Mirrored.insideBackticks [Staying I p q] :
    Staying I (insideBackticks p) (insideBackticks q) where
  same _ _ hI := within_same (J := I) hI
  nesting h := within_nesting (J := I) (q := q) rfl h

theorem withNewlines_apply (p : Parser α) (doc : Document) (s : State) :
    withNewlines p doc s = within (fun n => { n with newlineSkip := 0 })
      (fun n => some { n with newlineSkip := s.nesting.newlineSkip }) p doc s := rfl

/-- Newlines are tokens inside, whatever they are outside. -/
instance Mirrored.withNewlines [Staying Unskipped p q] :
    Staying I (withNewlines p) (withNewlines q) where
  same _ _ _ := by
    rw [withNewlines_apply, withNewlines_apply]
    exact within_same (J := Unskipped) rfl
  nesting h := by
    rw [withNewlines_apply] at h
    exact within_nesting (J := Unskipped) (q := q) rfl h

instance Mirrored.ascend {f g : Unit → Parser β} [k : ∀ a, Staying I (f a) (g a)] :
    Leaving I (ascend >>= f) (ascend >>= g) where
  same doc s hI := (k ()).same doc { s with nesting := s.nesting.outward } hI
  nesting {_ s _ _} h := (k ()).nesting (s := { s with nesting := s.nesting.outward }) h

end

/-! ## Steps -/

section

variable {α : Type} {I : Nat → Prop}

/-- A change to the state that leaves the nesting alone. -/
theorem staying_modify (change : State → State) (h : ∀ s, (change s).nesting = s.nesting) :
    Staying I (modify change : Parser Unit) (modify change) :=
  .self fun {_ s _ _} heq => by
    cases heq
    exact h s

instance (i : Nat) : Staying I (setPosition i) (setPosition i) := staying_modify _ fun _ => rfl
instance (d : Diagnostic) : Staying I (report d) (report d) := staying_modify _ fun _ => rfl

instance (error : LimitError) : Staying I (stopWith error : Parser α) (stopWith error) :=
  .self nofun

instance (a? : Option α) : Staying I (orFault a?) (orFault a?) := by
  cases a? with
  | none => exact .self nofun
  | some a => exact Mirrored.pure a

instance (span : Span) : Staying I (pieceOf span) (pieceOf span) := by
  unfold pieceOf
  infer_instance

instance : Staying I positionInText positionInText := by
  unfold positionInText
  infer_instance

instance : Staying I skipLineBreak skipLineBreak := by
  unfold skipLineBreak
  infer_instance

instance (body : Heredoc.Body) : Staying I (leaveBody body) (leaveBody body) := by
  unfold leaveBody
  split <;> infer_instance

instance : Staying I countToken countToken := by
  have := staying_modify (I := I) (fun s => { s with tokens := s.tokens + 1 }) fun _ => rfl
  unfold countToken
  infer_instance

instance : Staying I countIteration countIteration := by
  have := staying_modify (I := I) (fun s => { s with iterations := s.iterations + 1 })
    fun _ => rfl
  unfold countIteration
  infer_instance

instance (what : String) : Staying I (reportExpected what) (reportExpected what) := by
  unfold reportExpected
  infer_instance

instance (found : Bool) (what : String) : Staying I (require found what) (require found what) := by
  unfold require
  infer_instance

instance (what : String) : Staying I (missing what) (missing what) := by
  unfold missing
  infer_instance

instance (h : Heredoc) (body : Heredoc.Body) (span : Span) :
    Staying I (reportUnclosed h body span) (reportUnclosed h body span) := by
  unfold reportUnclosed
  infer_instance

instance (node : Node) : Staying I (holdBody node) (holdBody node) := by
  have := staying_modify (I := I) (fun s => { s with bodies := s.bodies ++ [node] })
    fun _ => rfl
  unfold holdBody
  infer_instance

instance (h : Heredoc) : Staying I (readBody h) (readBody h) := by
  unfold readBody
  refine Mirrored.bind (k := fun _ => Mirrored.bind (k := fun start => ?_))
  infer_instance

instance (hs : List Heredoc) : Staying I (readBodies hs) (readBodies hs) := by
  induction hs with
  | nil => exact Mirrored.pure ()
  | cons h hs ih =>
    unfold readBodies
    infer_instance

instance : Staying I readPending readPending := by
  have := staying_modify (I := I) (fun s => { s with pending := [] }) fun _ => rfl
  unfold readPending
  infer_instance

instance : Staying I bump bump := by
  unfold bump
  infer_instance

instance (count : Nat) : Staying I (skipTokens count) (skipTokens count) := by
  induction count with
  | zero => exact Mirrored.pure ()
  | succ count ih =>
    unfold skipTokens
    infer_instance

instance (i : Nat) : Staying I (advanceTo i) (advanceTo i) := by
  unfold advanceTo
  infer_instance

instance (kind : TokenKind) : Staying I (eat kind) (eat kind) := by
  unfold eat
  infer_instance

instance (word : String) : Staying I (eatKeyword word) (eatKeyword word) := by
  unfold eatKeyword
  infer_instance

instance {p q : Parser α} (kind : TokenKind) [Staying I p q] :
    Staying I (afterEaten? kind p) (afterEaten? kind q) := by
  unfold afterEaten?
  infer_instance

instance (kind : TokenKind) (what : String) : Staying I (expect kind what) (expect kind what) := by
  unfold expect
  infer_instance

instance (word : String) : Staying I (expectKeyword word) (expectKeyword word) := by
  unfold expectKeyword
  infer_instance

instance (what : String) : Staying I (forceAdvance what) (forceAdvance what) := by
  unfold forceAdvance
  infer_instance

instance : Staying I skipNewlines skipNewlines := by
  unfold skipNewlines
  infer_instance

instance (what : String) : Staying I (identName what) (identName what) := by
  unfold identName
  infer_instance

instance : Staying I identName? identName? := by
  unfold identName?
  infer_instance

end

/-! ## Levels -/

/-- Two levels do the same: words and expressions anywhere, statements where newlines are tokens. -/
class Alike (g g' : Grammar) : Prop where
  statements : ∀ stops stopAfterBlock,
    Staying Unskipped (g.statements stops stopAfterBlock) (g'.statements stops stopAfterBlock)
  expression : ∀ I power, Staying I (g.expression power) (g'.expression power)
  operators : ∀ I power, Leaving I (g.operators power) (g'.operators power)
  word : ∀ I, Staying I g.word g'.word
  stringLiteral : ∀ I, Staying I g.stringLiteral g'.stringLiteral
  block : Staying Unskipped g.block g'.block

attribute [instance] Alike.statements Alike.expression Alike.operators Alike.word
  Alike.stringLiteral Alike.block

/-- Two levels that do the same. -/
structure Twins where
  left : Grammar
  right : Grammar
  alike : Alike left right

attribute [instance] Twins.alike

/-- Two ways to the next level in that give levels which do the same. -/
class EntersTwins (enter enter' : Parser Grammar) : Prop where
  enters : ∀ doc s,
    (∃ e s', enter doc s = .error e s' ∧ enter' doc s = .error e s') ∨
    ∃ (t : Twins) (s' : State), enter doc s = .ok t.left s' ∧ enter' doc s = .ok t.right s' ∧
      s'.nesting = s.nesting.inward

/-- A construct that is entered and left. -/
instance Mirrored.entered {α : Type} {I : Nat → Prop} {enter enter' : Parser Grammar}
    [he : EntersTwins enter enter'] {f g : Grammar → Parser α}
    [k : ∀ t : Twins, Leaving I (f t.left) (g t.right)] :
    Staying I (enter >>= f) (enter' >>= g) where
  same doc s hI := by
    rw [bind_apply, bind_apply]
    rcases he.enters doc s with ⟨e, s', heq, heq'⟩ | ⟨t, s', heq, heq', hnesting⟩
    · rw [heq, heq']
    · rw [heq, heq']
      refine (k t).same doc s' ?_
      rw [hnesting]
      exact hI
  nesting {doc s _ _} h := by
    obtain ⟨_, s₁, hg, h⟩ := ok_of_bind h
    rcases he.enters doc s with ⟨e, s', heq, -⟩ | ⟨t, s', heq, -, hnesting⟩
    · exact nomatch hg.symm.trans heq
    · cases hg.symm.trans heq
      exact ((k t).nesting h).trans (congrArg Nesting.outward hnesting)

/-! ## Words -/

section

variable {α : Type} {I : Nat → Prop} {enter enter' : Parser Grammar}

instance (parts : Array Node) (span : Span) :
    Staying I (pushText parts span) (pushText parts span) := by
  unfold pushText
  split <;> infer_instance

instance : Staying I bracedVarSub bracedVarSub := by
  unfold bracedVarSub
  infer_instance

instance (close : TokenKind) (what : String) {p q : Parser α} [Staying Anywhere p q] :
    Staying I (closedBy close what p) (closedBy close what q) := by
  unfold closedBy
  infer_instance

variable [EntersTwins enter enter']

instance (close : TokenKind) (what : String) {content content' : Grammar → Parser α}
    (form : α → Form Node) [∀ t : Twins, Staying Anywhere (content t.left) (content' t.right)] :
    Staying I (bracketed enter close what content form)
      (bracketed enter' close what content' form) := by
  unfold bracketed
  infer_instance

instance : Staying I (commandSub enter) (commandSub enter') := by
  unfold commandSub
  infer_instance

instance : Staying I (backtickSub enter) (backtickSub enter') := by
  unfold backtickSub
  -- The usual search is too short for a production of many steps.
  set_option synthInstance.maxSize 1024 in
  infer_instance

instance : Staying I (exprSub enter) (exprSub enter') := by
  unfold exprSub
  infer_instance

instance (t : Token) : Staying I (afterSigil t) (afterSigil t) := by
  unfold afterSigil
  infer_instance

instance : Staying I (substitution? enter) (substitution? enter') := by
  unfold substitution?
  refine Mirrored.bind (k := fun kind => ?_)
  split <;> infer_instance

instance (style : StringStyle) (parts : Array Node) :
    Staying I (stringRun style parts) (stringRun style parts) := by
  unfold stringRun
  refine Mirrored.bind (k := fun text => Mirrored.bind (k := fun i =>
    Mirrored.bind (k := fun found => ?_)))
  split <;> infer_instance

instance (style : StringStyle) (parts : Array Node) :
    Staying I (stringRound enter style parts) (stringRound enter' style parts) := by
  unfold stringRound
  refine Mirrored.bind (k := fun parts => Mirrored.bind (k := fun text =>
    Mirrored.bind (k := fun i => Mirrored.ite (n := Mirrored.ite (n :=
      Mirrored.bind (k := fun sub? => ?_))))))
  cases sub? <;> infer_instance

instance : Staying I (stringLiteral enter) (stringLiteral enter') := by
  unfold stringLiteral
  refine Mirrored.bind (k := fun start => Mirrored.bind (k := fun opener =>
    Mirrored.bind (k := fun r => ?_)))
  obtain ⟨parts, closed⟩ := r
  infer_instance

instance (parts : Array Node) : Staying I (wordRound enter parts) (wordRound enter' parts) := by
  unfold wordRound
  refine Mirrored.bind (k := fun more => Mirrored.ite (n := Mirrored.bind (k := fun kind =>
    Mirrored.bind (k := fun part? => ?_))))
  cases part? <;> infer_instance

instance : Staying I (word enter) (word enter') := by
  unfold word
  infer_instance

end

/-! ## Expressions -/

/-- With this many operators more in the open expressions. -/
def Nesting.folded (folds : Nat) (n : Nesting) : Nesting := { n with chain := n.chain + folds }

section

variable {α : Type} {I : Nat → Prop} {enter enter' : Parser Grammar} {g g' : Grammar} [Alike g g']

instance : Staying I infixOp? infixOp? := by
  unfold infixOp?
  refine Mirrored.bind (k := fun t => ?_)
  split
  case h_9 =>
    refine Mirrored.bind (k := fun text => ?_)
    split <;> infer_instance
  case h_10 => split <;> infer_instance
  all_goals infer_instance

instance : Staying I comparison? comparison? := by
  unfold comparison?
  refine Mirrored.bind (k := fun t => Mirrored.ite (y := Mirrored.bind (k := fun text => ?_)))
  split <;> infer_instance

instance : Staying I eatComparison? eatComparison? := by
  unfold eatComparison?
  refine Mirrored.bind (k := fun found => ?_)
  split <;> infer_instance

instance : Staying I intLiteral intLiteral := by
  unfold intLiteral
  refine Mirrored.bind (k := fun t => Mirrored.bind (k := fun text => ?_))
  split <;> infer_instance

instance : Staying I floatLiteral floatLiteral := by
  unfold floatLiteral
  infer_instance

instance (start : Nat) : Staying I (regexContent start) (regexContent start) := by
  unfold regexContent
  refine Mirrored.bind (k := fun text => Mirrored.bind (k := fun i =>
    Mirrored.bind (k := fun found => ?_)))
  split
  · infer_instance
  · refine Mirrored.bind (k := fun _ => ?_)
    split <;> infer_instance

instance : Staying I regexClose regexClose := by
  unfold regexClose
  infer_instance

instance : Staying I regexLiteral regexLiteral := by
  unfold regexLiteral
  infer_instance

instance (items : Array Node) : Staying I (listRound g items) (listRound g' items) := by
  unfold listRound
  set_option synthInstance.maxSize 1024 in
  infer_instance

instance : Staying I (dictKey? g) (dictKey? g') := by
  unfold dictKey?
  infer_instance

instance (entries : Array Node) :
    Staying I (dictRound g entries) (dictRound g' entries) := by
  unfold dictRound
  refine Mirrored.bind (k := fun done => Mirrored.ite (n := Mirrored.bind (k := fun _ =>
    Mirrored.bind (k := fun start => Mirrored.bind (k := fun key? => ?_)))))
  cases key? <;> infer_instance

instance : Staying I (namedArg g) (namedArg g') := by
  unfold namedArg
  infer_instance

instance (args : Arguments) : Staying I (argument g args) (argument g' args) := by
  unfold argument
  infer_instance

instance (args : Arguments) : Staying I (argRound g args) (argRound g' args) := by
  unfold argRound
  set_option synthInstance.maxSize 1024 in
  infer_instance

instance : Staying I (parenExpr g) (parenExpr g') := by
  unfold parenExpr
  infer_instance

variable [EntersTwins enter enter']

instance (power : Nat) : Staying I (expression enter power) (expression enter' power) := by
  unfold expression
  infer_instance

instance (op : UnaryOp) (power : Nat) :
    Staying I (unary enter op power) (unary enter' op power) := by
  unfold unary
  infer_instance

instance (first : Node) : Staying I (moreItems enter first) (moreItems enter' first) := by
  unfold moreItems
  infer_instance

instance : Staying I (parenOrTuple enter) (parenOrTuple enter') := by
  unfold parenOrTuple
  set_option synthInstance.maxSize 1024 in
  infer_instance

instance : Staying I (listLiteral enter) (listLiteral enter') := by
  unfold listLiteral
  infer_instance

instance : Staying I (dictLiteral enter) (dictLiteral enter') := by
  unfold dictLiteral
  infer_instance

instance : Staying I (argList enter) (argList enter') := by
  unfold argList
  infer_instance

instance : Staying I (nameOperand enter) (nameOperand enter') := by
  unfold nameOperand
  infer_instance

instance : Staying I (operand enter) (operand enter') := by
  unfold operand
  refine Mirrored.bind (k := fun kind => ?_)
  split
  case h_13 =>
    refine Mirrored.ite (n := Mirrored.bind (k := fun node? => ?_))
    cases node? <;> infer_instance
  all_goals infer_instance

instance : Staying I (subscriptIndex enter) (subscriptIndex enter') := by
  unfold subscriptIndex
  infer_instance

instance (first : Node) :
    Staying I (comparisonChain enter first) (comparisonChain enter' first) := by
  unfold comparisonChain
  refine Mirrored.repeatRounds (k := fun r => Mirrored.bind (k := fun op? => ?_))
  cases op? <;> infer_instance

instance : Staying I (elseOperand enter) (elseOperand enter') := by
  unfold elseOperand
  infer_instance

instance (op : Infix) (lhs : Node) :
    Staying I (foldOperator enter op lhs) (foldOperator enter' op lhs) := by
  unfold foldOperator
  cases op <;> infer_instance

/-! ### Chains of operators -/

theorem fold_nesting {doc : Document} {s s' : State} {a : Unit} (h : fold doc s = .ok a s') :
    s'.nesting = s.nesting.folded 1 := by
  have h : (if doc.limits.chain < s.nesting.chain + 1 then stopWith (.chain doc.limits.chain)
      else Pure.pure () : Parser Unit) doc { s with nesting := s.nesting.folded 1 } = .ok a s' := h
  split at h
  · cases h
  · cases h
    rfl

/-- An operator is counted before the rest of it is read. -/
theorem operatorRound_same {doc : Document} {s : State} (power start : Nat) (r : Node × Nat)
    (hI : I s.nesting.newlineSkip) :
    operatorRound enter power start r.1 r.2 doc s =
      operatorRound enter' power start r.1 r.2 doc s := by
  unfold operatorRound
  rw [bind_apply, bind_apply]
  cases heq : infixOp? doc s with
  | error e s₁ => rfl
  | ok op? s₁ =>
    have h₁ := nesting_of_staying infixOp? heq
    cases op? with
    | none => rfl
    | some op =>
      simp only
      split
      · rfl
      · rw [bind_apply, bind_apply]
        cases hfold : fold doc s₁ with
        | error e s₂ => rfl
        | ok _ s₂ =>
          show (foldOperator enter op r.1 >>= _) doc s₂ = (foldOperator enter' op r.1 >>= _) doc s₂
          refine same_of_staying (I := I) ?_
          rw [fold_nesting hfold, h₁]
          exact hI

/-- What is counted is what the round adds to the operators. -/
theorem operatorRound_nesting (enter' : Parser Grammar) [EntersTwins enter enter'] {doc : Document}
    {power start : Nat} {n : Nesting} (r : Node × Nat) (s : State)
    (next : Round (Node × Nat) (Node × Nat)) (s' : State) (hs : s.nesting = n.folded r.2)
    (h : operatorRound enter power start r.1 r.2 doc s = .ok next s') :
    Brings (fun r => s'.nesting = n.folded r.2) (fun r => s'.nesting = n.folded r.2) next := by
  obtain ⟨op?, s₁, hop, h⟩ := ok_of_bind h
  have h₁ := nesting_of_staying infixOp? hop
  cases op? with
  | none =>
    cases h
    exact h₁.trans hs
  | some op =>
    simp only at h
    split at h
    · cases h
      exact h₁.trans hs
    · obtain ⟨_, s₂, hfold, h⟩ := ok_of_bind h
      obtain ⟨form, s₃, hform, h⟩ := ok_of_bind h
      have h₃ := nesting_of_staying (foldOperator enter' op r.1) hform
      obtain ⟨_, s₄, hspan, h⟩ := ok_of_bind h
      cases hspan
      cases h
      show _ = n.folded (r.2 + 1)
      rw [h₃, fold_nesting hfold, h₁, hs]
      rfl

/-- An expression is left with all its operators released. -/
instance (power : Nat) : Leaving I (operators enter power) (operators enter' power) := by
  unfold operators
  refine Mirrored.bind (k := fun start => Mirrored.bind (k := fun first => ?_))
  have hround : ∀ (doc : Document) (n : Nesting) (r : Node × Nat) (s : State)
      (next : Round (Node × Nat) (Node × Nat)) (s' : State), s.nesting = n.folded r.2 →
      operatorRound enter power start r.1 r.2 doc s = .ok next s' →
      Brings (fun r => s'.nesting = n.folded r.2) (fun r => s'.nesting = n.folded r.2) next :=
    fun _ _ => operatorRound_nesting enter'
  constructor
  · intro doc s hI
    refine bind_same (rounds_mirrored (K := fun r n => n = s.nesting.folded r.2)
      (L := fun r n => n = s.nesting.folded r.2) (fun r s' hs' => ?_) (hround doc s.nesting)
      (first, 0) rfl).1
    exact operatorRound_same power start r (show I s'.nesting.newlineSkip by rw [hs']; exact hI)
  · intro doc s a s' h
    obtain ⟨r, s₁, hr, h⟩ := ok_of_bind h
    have h₁ := (rounds_mirrored (K := fun r n => n = s.nesting.folded r.2)
      (L := fun r n => n = s.nesting.folded r.2) (fun _ _ _ => rfl) (hround doc s.nesting)
      (first, 0) rfl).2 hr
    cases h
    show Nesting.outward { s₁.nesting with chain := s₁.nesting.chain - r.2 } = _
    rw [h₁]
    simp [Nesting.outward, Nesting.folded]

instance : Staying I (exprOrTuple enter) (exprOrTuple enter') := by
  unfold exprOrTuple
  infer_instance

instance : Staying I (place enter) (place enter') := by
  unfold place
  infer_instance

end

/-! ## Commands -/

section

variable {I : Nat → Prop} {enter enter' : Parser Grammar} {g g' : Grammar} [Alike g g']

instance (piece : Scanned) (heredoc : Heredoc) :
    Staying I (announce piece heredoc) (announce piece heredoc) := by
  have := staying_modify (I := I) (fun s => { s with pending := s.pending ++ [heredoc] })
    fun _ => rfl
  unfold announce
  split <;> infer_instance

instance (start : Nat) (fd : Option Nat) :
    Staying I (heredocRedirect start fd) (heredocRedirect start fd) := by
  unfold heredocRedirect
  refine Mirrored.bind (k := fun text => Mirrored.bind (k := fun i =>
    Mirrored.bind (k := fun found => ?_)))
  split <;> infer_instance

instance : Staying I redirectDescriptor redirectDescriptor := by
  unfold redirectDescriptor
  infer_instance

instance (d : Draft) : Staying I (functionName? d) (functionName? d) := by
  unfold functionName?
  infer_instance

variable [EntersTwins enter enter']

instance : Staying I (redirectTarget enter) (redirectTarget enter') := by
  unfold redirectTarget
  infer_instance

instance : Staying I (redirect enter) (redirect enter') := by
  unfold redirect
  infer_instance

instance : Staying I (arrayLiteral enter) (arrayLiteral enter') := by
  unfold arrayLiteral
  infer_instance

instance : Staying I (assignedValue enter) (assignedValue enter') := by
  unfold assignedValue
  infer_instance

instance : Staying I (assignment enter) (assignment enter') := by
  unfold assignment
  infer_instance

instance (stop : StopAt) (close : TokenKind) (what : String) (form : List Node → Form Node) :
    Staying Unskipped (enclosed enter stop close what form)
      (enclosed enter' stop close what form) := by
  unfold enclosed
  set_option synthInstance.maxSize 1024 in
  infer_instance

instance : Staying Unskipped (braceBlock enter) (braceBlock enter') := by
  unfold braceBlock
  infer_instance

instance : Staying Unskipped (subshell enter) (subshell enter') := by
  unfold subshell
  infer_instance

instance : Staying Unskipped (functionBody enter) (functionBody enter') := by
  unfold functionBody
  refine Mirrored.bind (k := fun kind => ?_)
  split <;> infer_instance

instance (start : Nat) (name : Name) :
    Staying Unskipped (shellFunction enter start name) (shellFunction enter' start name) := by
  unfold shellFunction
  infer_instance

instance (d : Draft) : Staying Unskipped (commandWord enter d) (commandWord enter' d) := by
  unfold commandWord
  infer_instance

instance (d : Draft) : Staying Unskipped (commandRound enter d) (commandRound enter' d) := by
  unfold commandRound
  refine Mirrored.bind (k := fun redirect => Mirrored.ite (n :=
    Mirrored.bind (k := fun kind => ?_)))
  split
  case h_1 =>
    refine Mirrored.bind (k := fun name? => ?_)
    cases name? <;> infer_instance
  all_goals infer_instance

instance : Staying Unskipped (simpleCommand enter) (simpleCommand enter') := by
  unfold simpleCommand
  refine Mirrored.bind (k := fun start => Mirrored.repeatRounds (k := fun d =>
    Mirrored.bind (k := fun r => ?_)))
  cases r <;> infer_instance

end

/-! ## Definitions -/

section

variable {I : Nat → Prop} {enter enter' : Parser Grammar} {g g' : Grammar} [Alike g g']

instance (what : String) : Staying I (nameWord what) (nameWord what) := by
  unfold nameWord
  infer_instance

instance (group : ParamGroup) : Staying I (param g group) (param g' group) := by
  unfold param
  infer_instance

instance (params : Array Node) (group : ParamGroup) :
    Staying I (paramRound g params group) (paramRound g' params group) := by
  unfold paramRound
  refine Mirrored.bind (k := fun kind => ?_)
  split <;> infer_instance

instance (group : ParamGroup) : Staying I (paramList g group) (paramList g' group) := by
  unfold paramList
  infer_instance

instance (group : ParamGroup) (required : Bool) :
    Staying I (signature g group required) (signature g' group required) := by
  unfold signature
  infer_instance

instance : Staying Unskipped (definitionBody g) (definitionBody g') := by
  unfold definitionBody
  infer_instance

instance (kind : CallableKind) {name : Parser Name} [Staying Unskipped name name]
    (group : ParamGroup) (required : Bool) : Staying Unskipped
      (callable kind name group required g) (callable kind name group required g') := by
  unfold callable
  infer_instance

instance : Staying I eatParens eatParens := by
  unfold eatParens
  infer_instance

instance : Staying I typedNames typedNames := by
  unfold typedNames
  infer_instance

instance (keyword : MutationKeyword) :
    Staying I (mutationOpener keyword) (mutationOpener keyword) := by
  unfold mutationOpener
  infer_instance

variable [EntersTwins enter enter']

instance {form form' : Grammar → Parser (Form Node)}
    [∀ t : Twins, Staying I (form t.left) (form' t.right)] :
    Staying I (construct enter form) (construct enter' form') := by
  unfold construct
  infer_instance

instance : Staying Unskipped (procDef enter) (procDef enter') := by
  unfold procDef
  infer_instance

instance : Staying Unskipped (funcDef enter) (funcDef enter') := by
  unfold funcDef
  infer_instance

instance : Staying Unskipped (functionKeyword enter) (functionKeyword enter') := by
  unfold functionKeyword
  infer_instance

instance (keyword : DeclKeyword) : Staying I (varDecl enter keyword) (varDecl enter' keyword) := by
  unfold varDecl
  infer_instance

instance : Staying I (mutationTargets enter) (mutationTargets enter') := by
  unfold mutationTargets
  infer_instance

instance : Staying I (mutationValue enter) (mutationValue enter') := by
  unfold mutationValue
  refine Mirrored.bind (k := fun kind => ?_)
  split <;> infer_instance

instance (keyword : MutationKeyword) :
    Staying I (mutation enter keyword) (mutation enter' keyword) := by
  unfold mutation
  infer_instance

instance (keyword : ExprKeyword) :
    Staying I (exprStatement enter keyword) (exprStatement enter' keyword) := by
  unfold exprStatement
  infer_instance

end

/-! ## Control flow -/

section

variable {I : Nat → Prop} {enter enter' : Parser Grammar} {g g' : Grammar} [Alike g g']

instance (stops : List StopAt) :
    Staying Unskipped (blockUntil g stops) (blockUntil g' stops) := by
  unfold blockUntil
  infer_instance

instance (keyword : String) (conditionStops bodyStops : List StopAt) : Staying Unskipped
    (conditionalArm g keyword conditionStops bodyStops)
    (conditionalArm g' keyword conditionStops bodyStops) := by
  unfold conditionalArm
  refine Mirrored.bind (k := fun paren => Mirrored.ite (n := Mirrored.bind (k := fun start =>
    Mirrored.bind (k := fun commands => Mirrored.bind (k := fun found =>
      Mirrored.ite (n := Mirrored.bind (k := fun taken => ?_)))))))
  cases taken <;> infer_instance

instance (braced : Bool) (word : String) :
    Staying I (closeBody braced word) (closeBody braced word) := by
  unfold closeBody
  infer_instance

instance : Staying Unskipped (elifArm g) (elifArm g') := by
  unfold elifArm
  infer_instance

instance (braced : Bool) :
    Staying Unskipped (elsePart g braced) (elsePart g' braced) := by
  unfold elsePart
  infer_instance

instance : Staying Unskipped (ifForm g) (ifForm g') := by
  unfold ifForm
  infer_instance

instance (negated : Bool) :
    Staying Unskipped (whileForm negated g) (whileForm negated g') := by
  unfold whileForm
  infer_instance

instance : Staying I loopVariables loopVariables := by
  unfold loopVariables
  infer_instance

instance : Staying I (loopIterable g) (loopIterable g') := by
  unfold loopIterable
  infer_instance

instance : Staying Unskipped (forBody g) (forBody g') := by
  unfold forBody
  infer_instance

instance : Staying Unskipped (forForm g) (forForm g') := by
  unfold forForm
  infer_instance

instance : Staying I (bracedPattern? g) (bracedPattern? g') := by
  unfold bracedPattern?
  refine Mirrored.bind (k := fun kind => ?_)
  split <;> infer_instance

instance : Staying I (bracedPatterns g) (bracedPatterns g') := by
  unfold bracedPatterns
  refine Mirrored.repeatRounds (k := fun patterns => Mirrored.bind (k := fun pattern? => ?_))
  cases pattern? <;> infer_instance

instance (arms : Array Node) :
    Staying Unskipped (bracedArmRound g arms) (bracedArmRound g' arms) := by
  unfold bracedArmRound
  set_option synthInstance.maxSize 1024 in
  infer_instance

instance : Staying I (wordPatterns g) (wordPatterns g') := by
  unfold wordPatterns
  infer_instance

instance (arms : Array Node) :
    Staying Unskipped (wordArmRound g arms) (wordArmRound g' arms) := by
  unfold wordArmRound
  refine Mirrored.bind (k := fun _ => Mirrored.bind (k := fun _ =>
    Mirrored.bind (k := fun _ => ?_)))
  set_option synthInstance.maxSize 1024 in
  infer_instance

instance : Staying Unskipped (bracedCase g) (bracedCase g') := by
  unfold bracedCase
  infer_instance

instance : Staying I (wordSubject g) (wordSubject g') := by
  unfold wordSubject
  infer_instance

instance : Staying Unskipped (wordCase g) (wordCase g') := by
  unfold wordCase
  infer_instance

instance : Staying Unskipped (caseForm g) (caseForm g') := by
  unfold caseForm
  infer_instance

variable [EntersTwins enter enter']

instance : Staying Unskipped (ifStatement enter) (ifStatement enter') := by
  unfold ifStatement
  infer_instance

instance (negated : Bool) :
    Staying Unskipped (whileStatement enter negated) (whileStatement enter' negated) := by
  unfold whileStatement
  infer_instance

instance : Staying Unskipped (forStatement enter) (forStatement enter') := by
  unfold forStatement
  infer_instance

instance : Staying Unskipped (caseStatement enter) (caseStatement enter') := by
  unfold caseStatement
  infer_instance

end

end ShellAnalysis.Parse
