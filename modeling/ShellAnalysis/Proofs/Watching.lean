import ShellAnalysis.Proofs.Nesting
import ShellAnalysis.Proofs.Outcome

/-!
# Every list starts its rounds where it began

A watched statement list is a fault when one of its rounds starts in another
nesting than the list did, or where newlines are skipped.  `watchedRun` reads a
document with watched lists at every level.  Watching changes nothing, and no
run is a fault, so every round of every list of a run starts where the list
began, behind a statement that was given up too.

    watchedRun text limits = run text limits
-/

namespace ShellAnalysis.Parse

open Text (size)

/-! ## Watched lists -/

/-- A round that is a fault unless it starts in the nesting `entry`, where newlines are tokens. -/
def watchedRound (enter : Parser Grammar) (entry : Nesting) (stops : List StopAt)
    (stopAfterBlock : Bool) : Parser (Round Unit Unit) := do
  let nesting := (← get).nesting
  if nesting = entry ∧ nesting.newlineSkip = 0 then statementRound enter stops stopAfterBlock
  else throw .fault

/-- A statement list whose rounds are watched. -/
def watchedList (enter : Parser Grammar) (stops : List StopAt) (stopAfterBlock : Bool) :
    Parser Unit := do
  let entry := (← get).nesting
  repeatRounds () fun _ => watchedRound enter entry stops stopAfterBlock

/-- A level whose lists are watched. -/
def Grammar.watched (enter : Parser Grammar) : Grammar :=
  { Grammar.over enter with
    statements := fun stops stopAfterBlock => collecting (watchedList enter stops stopAfterBlock) }

/-- Enters a construct with watched lists at all levels further in. -/
def watchedLevel : (levels : Nat) → Parser Grammar
  | 0 => do
    descend
    throw .fault
  | levels + 1 => do
    descend
    return .watched (watchedLevel levels)

/-- Reads a document and watches all its lists. -/
def watchedRun (text : String) (limits : Limits) : EStateM.Result Stopped State Unit :=
  watchedList (watchedLevel limits.depth) [] false ⟨text, limits⟩ .initial

/-! ## Statements -/

section

variable {I : Nat → Prop} {enter enter' : Parser Grammar}

instance (bodies : List Node) : Staying I (placeBodies bodies) (placeBodies bodies) := by
  induction bodies with
  | nil => exact Mirrored.pure ()
  | cons body rest ih =>
    unfold placeBodies
    refine Mirrored.bind (k := fun s => ?_)
    simp only
    split
    · rename_i statements _
      have := staying_modify (I := I) (fun s => { s with statements }) fun _ => rfl
      infer_instance
    · infer_instance

instance : Staying I drainHeredocs drainHeredocs := by
  have := staying_modify (I := I) (fun s => { s with bodies := [] }) fun _ => rfl
  unfold drainHeredocs
  infer_instance

instance (node : Node) : Staying I (pushStatement node) (pushStatement node) :=
  staying_modify _ fun _ => rfl

variable [EntersTwins enter enter']

theorem simpleKeyword?_mirrored (enter enter' : Parser Grammar) [EntersTwins enter enter']
    (word : String) :
    Option.Rel (Staying Unskipped) (simpleKeyword? enter word) (simpleKeyword? enter' word) := by
  unfold simpleKeyword?
  split
  case h_9 => split <;> constructor; infer_instance
  all_goals exact .some inferInstance

theorem compoundKeyword?_mirrored (enter enter' : Parser Grammar) [EntersTwins enter enter']
    (word : String) :
    Option.Rel (Staying Unskipped) (compoundKeyword? enter word)
      (compoundKeyword? enter' word) := by
  unfold compoundKeyword?
  split
  case h_6 => exact .none
  all_goals exact .some inferInstance

instance : Staying Unskipped (keywordStatement? enter) (keywordStatement? enter') := by
  unfold keywordStatement?
  refine Mirrored.bind (k := fun t => Mirrored.bind (k := fun glued => Mirrored.ite (n :=
    Mirrored.bind (k := fun word => ?_))))
  have hsimple := simpleKeyword?_mirrored enter enter' word
  have hcompound := compoundKeyword?_mirrored enter enter' word
  generalize simpleKeyword? enter word = p at *
  generalize simpleKeyword? enter' word = p' at *
  generalize compoundKeyword? enter word = q at *
  generalize compoundKeyword? enter' word = q' at *
  cases hsimple with
  | some hp => infer_instance
  | none =>
    cases hcompound with
    | some hq => infer_instance
    | none => infer_instance

instance (start : Nat) (node : Node) :
    Staying Unskipped (withRedirects enter start node) (withRedirects enter' start node) := by
  unfold withRedirects
  infer_instance

instance : Staying Unskipped (command enter) (command enter') := by
  unfold command
  refine Mirrored.bind (k := fun start => Mirrored.bind (k := fun kind => ?_))
  split
  case h_4 =>
    refine Mirrored.bind (k := fun k? => ?_)
    cases k? <;> infer_instance
  all_goals infer_instance

instance (first : Node) : Staying Unskipped (moreStages enter first) (moreStages enter' first) := by
  unfold moreStages
  infer_instance

instance : Staying Unskipped (pipeline enter) (pipeline enter') := by
  unfold pipeline
  infer_instance

instance (first : Node) :
    Staying Unskipped (morePipelines enter first) (morePipelines enter' first) := by
  unfold morePipelines
  refine Mirrored.repeatRounds (k := fun r => Mirrored.bind (k := fun kind => ?_))
  split <;> infer_instance

instance : Staying Unskipped (pipelines enter) (pipelines enter') := by
  unfold pipelines
  infer_instance

instance : Staying Unskipped (andOr enter) (andOr enter') := by
  unfold andOr
  infer_instance

/-! ### Rounds -/

/-- A statement that is given up leaves the parser in the nesting that is given. -/
theorem abandon_nesting {doc : Document} {s s' : State} {error : LimitError} {start : Nat}
    {nesting : Nesting} {v : Node} (h : abandon error start nesting doc s = .ok v s') :
    s'.nesting = nesting := by
  unfold abandon at h
  obtain ⟨_, s₁, hmodify, h⟩ := ok_of_bind h
  cases hmodify
  exact nesting_of_staying (do
    whileHolds (do
      let kind ← currentKind
      return kind != .newline && kind != .eof) (discard bump)
    let span ← spanFrom start
    report (.limit error span)
    return .error span) h

/-- Whether a statement was read or given up, what is done with it ends in the nesting in which the
statement started. -/
theorem takeStatement_nesting {doc : Document} {s s' : State} {stops : List StopAt}
    {stopAfterBlock : Bool} {before start : Nat} {nesting : Nesting} {r : Except LimitError Node}
    {next : Round Unit Unit} (hr : ∀ v, r = .ok v → s.nesting = nesting)
    (h : takeStatement stops stopAfterBlock before start nesting r doc s = .ok next s') :
    s'.nesting = nesting := by
  cases r with
  | error error =>
    obtain ⟨v, s₁, hv, h⟩ := ok_of_bind h
    cases h
    show s₁.nesting = nesting
    exact abandon_nesting hv
  | ok v =>
    rw [← hr v rfl]
    have : Staying Anywhere (takeStatement stops stopAfterBlock before start nesting (.ok v))
        (takeStatement stops stopAfterBlock before start nesting (.ok v)) := by
      unfold takeStatement
      -- The usual search is too short for a production of many steps.
      set_option synthInstance.maxSize 1024 in
      infer_instance
    exact nesting_of_staying (takeStatement stops stopAfterBlock before start nesting (.ok v)) h

theorem catchLocal_same {α : Type} {p q : Parser α} {doc : Document} {s : State}
    (h : p doc s = q doc s) : catchLocal p doc s = catchLocal q doc s := by
  unfold catchLocal
  rw [h]

theorem ok_of_catchLocal {α : Type} {p : Parser α} {doc : Document} {s s' : State} {a : α}
    (h : catchLocal p doc s = .ok (.ok a) s') : p doc s = .ok a s' := by
  unfold catchLocal at h
  split at h
  · rename_i heq
    cases h
    exact heq
  · split at h <;> cases h
  · cases h

/-- What follows a caught parser may bring the nesting back by itself. -/
theorem caught_mirrored {α β : Type} {p q : Parser α} [hp : Staying I p q]
    {f : Nesting → Except LimitError α → Parser β}
    (hf : ∀ {doc n r s b s'}, (∀ a, r = .ok a → s.nesting = n) → f n r doc s = .ok b s' →
      s'.nesting = n) :
    Staying I (get >>= fun s => catchLocal p >>= f s.nesting)
      (get >>= fun s => catchLocal q >>= f s.nesting) where
  same doc s hI := by
    show (catchLocal p >>= f s.nesting) doc s = (catchLocal q >>= f s.nesting) doc s
    exact bind_same (catchLocal_same (hp.same doc s hI))
  nesting {doc s b s'} h := by
    have h : (catchLocal p >>= f s.nesting) doc s = .ok b s' := h
    obtain ⟨r, s₁, hr, h⟩ := ok_of_bind h
    refine hf (fun a ha => ?_) h
    subst ha
    exact hp.nesting (ok_of_catchLocal hr)

instance (stops : List StopAt) (stopAfterBlock : Bool) : Staying Unskipped
    (statementRest enter stops stopAfterBlock) (statementRest enter' stops stopAfterBlock) := by
  unfold statementRest
  refine Mirrored.bind (k := fun eof => Mirrored.bind (k := fun stop => Mirrored.ite (n :=
    Mirrored.bind (k := fun before => Mirrored.bind (k := fun start => ?_)))))
  exact caught_mirrored (f := takeStatement stops stopAfterBlock before start)
    takeStatement_nesting

instance (stops : List StopAt) (stopAfterBlock : Bool) : Staying Unskipped
    (statementRound enter stops stopAfterBlock) (statementRound enter' stops stopAfterBlock) := by
  rw [statementRound_eq, statementRound_eq]
  unfold countedRound
  infer_instance

/-! ## Lists -/

instance (stops : List StopAt) (stopAfterBlock : Bool) : Staying Unskipped
    (statementList enter stops stopAfterBlock) (statementList enter' stops stopAfterBlock) := by
  unfold statementList
  infer_instance

/-- A list with watched rounds does the same: they all start where the list began. -/
instance (stops : List StopAt) (stopAfterBlock : Bool) : Staying Unskipped
    (statementList enter stops stopAfterBlock) (watchedList enter' stops stopAfterBlock) := by
  have hlist : Staying Unskipped (statementList enter stops stopAfterBlock)
      (statementList enter' stops stopAfterBlock) := inferInstance
  refine ⟨fun doc s hI => ?_, hlist.nesting⟩
  have hround : ∀ (state : Unit) (s' : State), s'.nesting = s.nesting →
      statementRound enter stops stopAfterBlock doc s' =
        watchedRound enter' s.nesting stops stopAfterBlock doc s' := by
    intro _ s' hs'
    have hI' : Unskipped s'.nesting.newlineSkip := by rw [hs']; exact hI
    have hsame : statementRound enter stops stopAfterBlock doc s' =
        statementRound enter' stops stopAfterBlock doc s' := same_of_staying hI'
    show _ = (if s'.nesting = s.nesting ∧ s'.nesting.newlineSkip = 0 then
      statementRound enter' stops stopAfterBlock else throw .fault : Parser _) doc s'
    rw [if_pos ⟨hs', hI'⟩]
    exact hsame
  refine (rounds_mirrored (K := fun _ n => n = s.nesting) (L := fun _ _ => True) hround
    (fun _ s' next s'' hs' h => ?_) () rfl).1
  cases next with
  | again =>
    exact ((inferInstance : Staying Unskipped (statementRound enter stops stopAfterBlock)
      (statementRound enter' stops stopAfterBlock)).nesting h).trans hs'
  | finish => trivial

instance {p q : Parser Unit} [hp : Staying I p q] : Staying I (collecting p) (collecting q) where
  same doc s hI := by
    unfold collecting
    rw [hp.same doc { s with statements := #[] } hI]
  nesting {doc s _ s'} h := by
    unfold collecting at h
    split at h
    · rename_i s₁ heq
      cases h
      have hnesting := hp.nesting heq
      exact hnesting
    · cases h

end

/-! ## Levels -/

section

variable {enter enter' : Parser Grammar} [EntersTwins enter enter']

/-- Levels that differ in their statements alone. -/
theorem alike_over {f : List StopAt → Bool → Parser (List Node)}
    (h : ∀ stops stopAfterBlock, Staying Unskipped
      (collecting (statementList enter stops stopAfterBlock)) (f stops stopAfterBlock)) :
    Alike (.over enter) { Grammar.over enter' with statements := f } where
  statements := h
  expression := fun I power =>
    inferInstanceAs (Staying I (Parse.expression enter power) (Parse.expression enter' power))
  operators := fun I power =>
    inferInstanceAs (Leaving I (Parse.operators enter power) (Parse.operators enter' power))
  word := fun I => inferInstanceAs (Staying I (Parse.word enter) (Parse.word enter'))
  stringLiteral := fun I =>
    inferInstanceAs (Staying I (Parse.stringLiteral enter) (Parse.stringLiteral enter'))
  block := inferInstanceAs (Staying Unskipped (braceBlock enter) (braceBlock enter'))

instance : Alike (.over enter) (.over enter') :=
  alike_over (f := (Grammar.over enter').statements) fun stops stopAfterBlock =>
    inferInstanceAs (Staying Unskipped (collecting (statementList enter stops stopAfterBlock))
      (collecting (statementList enter' stops stopAfterBlock)))

instance : Alike (.over enter) (.watched enter') := alike_over fun _ _ => inferInstance

end

/-- A construct that is entered is counted, unless there are too many. -/
theorem descend_cases (doc : Document) (s : State) :
    (∃ e s', descend doc s = .error e s') ∨
      descend doc s = .ok () { s with nesting := s.nesting.inward } := by
  show (∃ e s', (if doc.limits.depth < s.nesting.depth + 1 then stopWith (.nesting doc.limits.depth)
      else Pure.pure () : Parser Unit) doc { s with nesting := s.nesting.inward } = .error e s') ∨
    (if doc.limits.depth < s.nesting.depth + 1 then stopWith (.nesting doc.limits.depth)
      else Pure.pure () : Parser Unit) doc { s with nesting := s.nesting.inward } = _
  split
  · exact .inl ⟨_, _, rfl⟩
  · exact .inr rfl

theorem entersTwins_fault :
    EntersTwins (descend >>= fun _ => throw .fault) (descend >>= fun _ => throw .fault) where
  enters doc s := by
    refine .inl ?_
    rcases descend_cases doc s with ⟨e, s', heq⟩ | heq
    · exact ⟨e, s', by rw [bind_apply, heq], by rw [bind_apply, heq]⟩
    · exact ⟨.fault, _, by rw [bind_apply, heq]; rfl, by rw [bind_apply, heq]; rfl⟩

theorem entersTwins_descend (g g' : Grammar) [h : Alike g g'] :
    EntersTwins (descend >>= fun _ => return g) (descend >>= fun _ => return g') where
  enters doc s := by
    rcases descend_cases doc s with ⟨e, s', heq⟩ | heq
    · exact .inl ⟨e, s', by rw [bind_apply, heq], by rw [bind_apply, heq]⟩
    · exact .inr ⟨⟨g, g', h⟩, _, by rw [bind_apply, heq]; rfl, by rw [bind_apply, heq]; rfl, rfl⟩

instance entersTwins_enterLevel (levels : Nat) :
    EntersTwins (enterLevel levels) (enterLevel levels) := by
  induction levels with
  | zero => exact entersTwins_fault
  | succ levels ih => exact entersTwins_descend (.over _) (.over _)

instance entersTwins_watchedLevel (levels : Nat) :
    EntersTwins (enterLevel levels) (watchedLevel levels) := by
  induction levels with
  | zero => exact entersTwins_fault
  | succ levels ih => exact entersTwins_descend (.over _) (.watched _)

/-! ## All productions -/

/-- The productions over a way to the next level in, with what they read inside of it. -/
inductive Production (enter : Parser Grammar) (inner : Grammar) : {α : Type} → Parser α → Prop
  -- words
  | word : Production enter inner (word enter)
  | stringLiteral : Production enter inner (stringLiteral enter)
  | substitution : Production enter inner (substitution? enter)
  | bracedVarSub : Production enter inner bracedVarSub
  | commandSub : Production enter inner (commandSub enter)
  | backtickSub : Production enter inner (backtickSub enter)
  | exprSub : Production enter inner (exprSub enter)
  -- expressions
  | expression (power : Nat) : Production enter inner (expression enter power)
  | exprOrTuple : Production enter inner (exprOrTuple enter)
  | operand : Production enter inner (operand enter)
  | unary (op : UnaryOp) (power : Nat) : Production enter inner (unary enter op power)
  | nameOperand : Production enter inner (nameOperand enter)
  | intLiteral : Production enter inner intLiteral
  | floatLiteral : Production enter inner floatLiteral
  | regexLiteral : Production enter inner regexLiteral
  | parenOrTuple : Production enter inner (parenOrTuple enter)
  | parenExpr : Production enter inner (parenExpr inner)
  | moreItems (first : Node) : Production enter inner (moreItems enter first)
  | listLiteral : Production enter inner (listLiteral enter)
  | dictLiteral : Production enter inner (dictLiteral enter)
  | dictKey : Production enter inner (dictKey? inner)
  | argList : Production enter inner (argList enter)
  | argument (args : Arguments) : Production enter inner (argument inner args)
  | namedArg : Production enter inner (namedArg inner)
  | subscriptIndex : Production enter inner (subscriptIndex enter)
  | comparisonChain (first : Node) : Production enter inner (comparisonChain enter first)
  | elseOperand : Production enter inner (elseOperand enter)
  | foldOperator (op : Infix) (lhs : Node) : Production enter inner (foldOperator enter op lhs)
  -- commands
  | redirect : Production enter inner (redirect enter)
  | heredocRedirect (start : Nat) (fd : Option Nat) :
      Production enter inner (heredocRedirect start fd)
  | assignment : Production enter inner (assignment enter)
  | arrayLiteral : Production enter inner (arrayLiteral enter)
  | simpleCommand : Production enter inner (simpleCommand enter)
  | shellFunction (start : Nat) (name : Name) :
      Production enter inner (shellFunction enter start name)
  | functionBody : Production enter inner (functionBody enter)
  | braceBlock : Production enter inner (braceBlock enter)
  | subshell : Production enter inner (subshell enter)
  -- definitions
  | procDef : Production enter inner (procDef enter)
  | funcDef : Production enter inner (funcDef enter)
  | functionKeyword : Production enter inner (functionKeyword enter)
  | signature (group : ParamGroup) (required : Bool) :
      Production enter inner (signature inner group required)
  | param (group : ParamGroup) : Production enter inner (param inner group)
  | definitionBody : Production enter inner (definitionBody inner)
  | varDecl (keyword : DeclKeyword) : Production enter inner (varDecl enter keyword)
  | mutation (keyword : MutationKeyword) : Production enter inner (mutation enter keyword)
  | exprStatement (keyword : ExprKeyword) : Production enter inner (exprStatement enter keyword)
  -- control flow
  | blockUntil (stops : List StopAt) : Production enter inner (blockUntil inner stops)
  | conditionalArm (keyword : String) (conditionStops bodyStops : List StopAt) :
      Production enter inner (conditionalArm inner keyword conditionStops bodyStops)
  | ifStatement : Production enter inner (ifStatement enter)
  | elifArm : Production enter inner (elifArm inner)
  | elsePart (braced : Bool) : Production enter inner (elsePart inner braced)
  | whileStatement (negated : Bool) : Production enter inner (whileStatement enter negated)
  | forStatement : Production enter inner (forStatement enter)
  | loopIterable : Production enter inner (loopIterable inner)
  | forBody : Production enter inner (forBody inner)
  | caseStatement : Production enter inner (caseStatement enter)
  | bracedPatterns : Production enter inner (bracedPatterns inner)
  | bracedArmRound (arms : Array Node) : Production enter inner (bracedArmRound inner arms)
  | wordPatterns : Production enter inner (wordPatterns inner)
  | wordArmRound (arms : Array Node) : Production enter inner (wordArmRound inner arms)
  -- statements
  | keywordStatement : Production enter inner (keywordStatement? enter)
  | withRedirects (start : Nat) (node : Node) :
      Production enter inner (withRedirects enter start node)
  | command : Production enter inner (command enter)
  | pipeline : Production enter inner (pipeline enter)
  | pipelines : Production enter inner (pipelines enter)
  | andOr : Production enter inner (andOr enter)
  | statementRound (stops : List StopAt) (stopAfterBlock : Bool) :
      Production enter inner (statementRound enter stops stopAfterBlock)
  | statementList (stops : List StopAt) (stopAfterBlock : Bool) :
      Production enter inner (statementList enter stops stopAfterBlock)

/-- A production comes back to the nesting it started in. -/
theorem Production.staying {α : Type} {p : Parser α} {enter : Parser Grammar} {inner : Grammar}
    [EntersTwins enter enter] [Alike inner inner] (h : Production enter inner p) :
    Staying Unskipped p p := by
  cases h <;> infer_instance

/-! ## Whole parses -/

/-- Watching changes nothing. -/
theorem watchedRun_eq (text : String) (limits : Limits) :
    watchedRun text limits = run text limits := by
  have hlist : Staying Unskipped (statementList (enterLevel limits.depth) [] false)
      (watchedList (watchedLevel limits.depth) [] false) := inferInstance
  exact (hlist.same ⟨text, limits⟩ .initial rfl).symm

/-- A run ends in the outermost nesting or at a limit on the whole document, and is no fault. -/
theorem run_nesting (text : String) (limits : Limits) :
    (∃ s, run text limits = .ok () s ∧ s.nesting = .outermost) ∨
      ∃ error s, run text limits = .error (.limit error) s ∧ error.isLocal = false := by
  have hlist : Staying Unskipped (statementList (enterLevel limits.depth) [] false)
      (statementList (enterLevel limits.depth) [] false) := inferInstance
  cases outcome_open text limits with
  | complete s hrun => exact .inl ⟨s, hrun, hlist.nesting hrun⟩
  | aborted error s hrun hquits => exact .inr ⟨error, s, hrun, hquits.1.1⟩

/-- Every production comes back to the nesting it started in, whatever that is, and so do the rounds
of a statement list.  With all lists watched a run is the same and is no fault, so each round of a
list starts in the nesting in which the list began, where newlines are tokens.  A run that no limit
on the whole document stops ends in the outermost nesting. -/
theorem nesting_balanced (text : String) (limits : Limits) :
    (∀ (levels : Nat) {α : Type} (p : Parser α),
      Production (enterLevel levels) (.over (enterLevel levels)) p →
      ∀ doc s a s', p doc s = .ok a s' → s'.nesting = s.nesting) ∧
    watchedRun text limits = run text limits ∧
    ((∃ s, run text limits = .ok () s ∧ s.nesting = .outermost) ∨
      ∃ error s, run text limits = .error (.limit error) s ∧ error.isLocal = false) :=
  ⟨fun _ _ _ hp _ _ _ _ h => hp.staying.nesting h, watchedRun_eq text limits,
    run_nesting text limits⟩

end ShellAnalysis.Parse
