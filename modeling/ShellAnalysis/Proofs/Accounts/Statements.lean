import ShellAnalysis.Proofs.Accounts.Control
import ShellAnalysis.Proofs.StatementLists

/-!
# Accounts of statements

A statement list accounts for the statements in it (`Lists`), which are those
that were read since it began: a statement that is read is added, one that
exceeds a limit gives way to an error node that was reported, and heredoc bodies
bring no error node.  A list that a limit stops still accounts for the error
nodes in it (`Carries`).
-/

namespace ShellAnalysis.Parse

open Text Node

section

variable {doc : Document} {s s₀ : State} {enter : Parser Grammar}

/-! ## Commands -/

theorem simpleKeyword?_gathers {word : String} {p : Parser Node} (he : Deepens doc enter)
    (hp : simpleKeyword? enter word = some p) : Gathers doc p s fun v => [v] := by
  unfold simpleKeyword? at hp
  split at hp
  · exact Option.some.inj hp ▸ procDef_gathers he
  · exact Option.some.inj hp ▸ funcDef_gathers he
  · exact Option.some.inj hp ▸ varDecl_gathers he _
  · exact Option.some.inj hp ▸ varDecl_gathers he _
  · exact Option.some.inj hp ▸ mutation_gathers he _
  · exact Option.some.inj hp ▸ mutation_gathers he _
  · exact Option.some.inj hp ▸ exprStatement_gathers he _
  · exact Option.some.inj hp ▸ functionKeyword_gathers he
  · split at hp
    · exact Option.some.inj hp ▸ forceAdvance_gathers _
    · cases hp

theorem compoundKeyword?_gathers {word : String} {p : Parser Node} (he : Deepens doc enter)
    (hp : compoundKeyword? enter word = some p) : Gathers doc p s fun v => [v] := by
  unfold compoundKeyword? at hp
  split at hp
  · exact Option.some.inj hp ▸ construct_gathers he fun _ _ => ifForm_composes
  · exact Option.some.inj hp ▸ construct_gathers he fun _ _ hinner => whileForm_composes hinner _
  · exact Option.some.inj hp ▸ construct_gathers he fun _ _ hinner => whileForm_composes hinner _
  · exact Option.some.inj hp ▸ construct_gathers he fun _ _ => forForm_composes
  · exact Option.some.inj hp ▸ construct_gathers he fun _ _ => caseForm_composes
  · cases hp

/-- The node of a keyword statement, if there is one. -/
def keywordNodes (k? : Option KeywordStatement) : List Node := (k?.map (·.node)).toList

theorem keywordStatement?_gathers (he : Deepens doc enter) :
    Gathers doc (keywordStatement? enter) s keywordNodes := by
  refine fun ht => runs_current.2 ((Accounts.refl ht).step fun glued s₁ h₁ => ?_)
  split
  · exact .pure h₁
  refine runs_tokenText.2 ?_
  split
  · rename_i hp
    exact h₁.take (simpleKeyword?_gathers he hp) fun v _ h => .pure h
  · rename_i hp
    exact h₁.take (compoundKeyword?_gathers he hp) fun v _ h => .pure h
  · refine h₁.step fun bare s₂ h₂ => ?_
    split
    · exact h₂.take (mutation_gathers he _) fun v _ h => .pure h
    · exact .pure h₂

theorem withRedirects_answers {node : Node} (he : Deepens doc enter)
    (h : Accounts doc s₀ [node] s) :
    Answers doc s₀ (withRedirects enter (s₀.front doc) node) s fun v s' =>
      Accounts doc s₀ [v] s' := by
  refine h.step fun more s₁ h₁ => ?_
  split
  · exact .pure h₁
  · refine h₁.take (.manyWhile atRedirect_looks fun _ _ => redirect_gathers he)
      fun redirects s₂ h₂ => runs_spanFrom.2 (.pure ?_)
    exact h₂.make (f := .redirected node redirects) rfl

theorem command_gathers (he : Deepens doc enter) : Gathers doc (command enter) s fun v => [v] := by
  refine fun ht => runs_startOffset.2 (runs_currentKind.2 ?_)
  split
  · exact (braceBlock_gathers he ht).bind fun v _ hv => withRedirects_answers he hv
  · exact (subshell_gathers he ht).bind fun v _ hv => withRedirects_answers he hv
  · exact exprStatement_gathers he _ ht
  · refine (keywordStatement?_gathers he ht).bind fun k? s₁ h₁ => ?_
    cases k? with
    | some k =>
      simp only
      split
      · exact withRedirects_answers he h₁
      · exact .pure h₁
    | none => exact Accounts.last h₁ (simpleCommand_gathers he h₁.tidy) fun _ _ h => h₁.trans h
  · exact simpleCommand_gathers he ht

/-! ## Pipelines and command lists -/

/-- A stage that consumes nothing is dropped, and reported as missing. -/
theorem moreStages_answers {first : Node} (he : Deepens doc enter)
    (h : Accounts doc s₀ [first] s) :
    Answers doc s₀ (moreStages enter first) s fun stages s' => Accounts doc s₀ stages s' := by
  refine .loop Array.toList h fun stages s₁ h₁ => h₁.step fun more s₂ h₂ => ?_
  split
  · exact .pure h₂
  refine h₂.step fun _ s₃ h₃ => runs_position.2 ?_
  refine h₃.bind (command_gathers he h₃.tidy) fun stage s₄ h₄ => runs_position.2 ?_
  split
  · have h₅ := (h₃.trans h₄).drop
    exact h₅.bind (missing_gathers _ h₅.tidy) fun last _ hlast => .pure (h₅.push hlast)
  · exact .pure (h₃.push h₄)

theorem pipeline_gathers (he : Deepens doc enter) :
    Gathers doc (pipeline enter) s fun v => [v] := by
  refine fun ht => runs_startOffset.2 ((Accounts.refl ht).step fun negated s₁ h₁ => ?_)
  refine h₁.take (command_gathers he) fun first s₂ h₂ => runs_atKind.2 ?_
  split
  · exact .pure h₂
  · refine (moreStages_answers he h₂).bind fun stages s₃ h₃ => runs_spanFrom.2 (.pure ?_)
    exact ((List.append_nil stages).symm ▸ h₃ : Accounts doc s (stages ++ []) s₃).make
      (f := .pipeline negated stages []) rfl

/-- Pipelines that were read make a command list. -/
theorem Accounts.andOr {ops : List Connective} {commands : Array Node}
    (h : Accounts doc s₀ commands.toList s) :
    Assembles doc s₀ (.andOr ops commands.toList []) s :=
  Accounts.assembles (by rwa [Form.children, List.append_nil]) rfl

theorem morePipelines_answers {first : Node} (he : Deepens doc enter)
    (h : Accounts doc s₀ [first] s) :
    Answers doc s₀ (morePipelines enter first) s (Assembles doc s₀) := by
  refine .loop (fun r : Array Connective × Array Node => r.2.toList) h fun r s₁ h₁ => ?_
  refine runs_currentKind.2 ?_
  split
  · exact .pure h₁.andOr
  refine h₁.step fun _ s₂ h₂ => h₂.step fun _ s₃ h₃ => runs_position.2 ?_
  refine h₃.bind (pipeline_gathers he h₃.tidy) fun next s₄ h₄ => runs_position.2 ?_
  split
  · have h₅ := (h₃.trans h₄).drop
    exact h₅.bind (missing_gathers _ h₅.tidy) fun last _ hlast => .pure (h₅.push hlast).andOr
  · exact .pure (h₃.push h₄)

theorem pipelines_gathers (he : Deepens doc enter) :
    Gathers doc (pipelines enter) s fun v => [v] := by
  refine fun ht => runs_startOffset.2 ((pipeline_gathers he ht).bind fun first s₁ h₁ => ?_)
  refine runs_currentKind.2 ?_
  split
  · exact (morePipelines_answers he h₁).bind fun form s₂ h₂ => runs_spanFrom.2 (.pure h₂.make)
  · exact .pure h₁

theorem andOr_gathers (he : Deepens doc enter) : Gathers doc (andOr enter) s fun v => [v] := by
  refine fun ht => runs_startOffset.2 ((pipelines_gathers he ht).bind fun v s₁ h₁ => ?_)
  refine h₁.step fun amp s₂ h₂ => ?_
  split
  · exact runs_spanFrom.2 (.pure (h₂.make (f := .background v) rfl))
  · exact .pure h₂

end

/-! ## Heredoc bodies -/

section

variable {doc : Document} {s s₀ s₁ s₂ s' : State} {xs : List Node} {v b : Node}

/-- The open list does not matter. -/
theorem Accounts.holding (h : Accounts doc s xs s') (X : Array Node) :
    Accounts doc (s.holding X) xs (s'.holding X) where
  statements := rfl
  tidy := h.tidy
  skip := h.skip
  explained := h.explained
  drift q := by
    have hd := h.drift ⟨q.lacks, ⟨q.neat.boundary, q.neat.pending, q.neat.bodies⟩, q.errors⟩
    exact ⟨⟨hd.neat.boundary, hd.neat.pending, hd.neat.bodies⟩, hd.le, hd.lies⟩
  leap q := h.leap ⟨q.lacks, ⟨q.neat.boundary, q.neat.pending, q.neat.bodies⟩, q.errors⟩

/-- Putting bodies into the list brings no error node. -/
structure Places (s s' : State) : Prop where
  tidy : s.Tidy → s'.Tidy
  nesting : s'.nesting = s.nesting
  errors_le : s.errors ≤ s'.errors
  statements : errorsIn s'.statements.toList = errorsIn s.statements.toList

theorem Places.refl (s : State) : Places s s := ⟨id, rfl, Nat.le_refl _, rfl⟩

theorem Places.trans (h : Places s s₁) (h' : Places s₁ s₂) : Places s s₂ :=
  ⟨h'.tidy ∘ h.tidy, h'.nesting.trans h.nesting, Nat.le_trans h.errors_le h'.errors_le,
    h'.statements.trans h.statements⟩

theorem places_place (hb : b.IsBody) : Places s (s.place b) := by
  rcases place_cases s b with ⟨-, heq⟩ | ⟨X, last, hX, -, ⟨-, heq⟩ | ⟨w, hw, heq⟩⟩
  · rw [heq]
    refine ⟨id, rfl, Nat.le_refl _, ?_⟩
    show errorsIn (s.statements.push b).toList = _
    rw [Array.toList_push, errorsIn_append, errorsIn_cons, errors_body hb]
    rfl
  · rw [heq]
    exact ⟨id, rfl, by rw [errors_push]; exact Nat.le_add_right _ _, rfl⟩
  · rw [heq]
    refine ⟨id, rfl, Nat.le_refl _, ?_⟩
    show errorsIn (X.push w).toList = _
    rw [hX, Array.toList_push, Array.toList_push, errorsIn_append, errorsIn_append, errorsIn_cons,
      errorsIn_cons, errors_attach hb hw]

theorem places_drained (ht : s.Tidy) : Places s s.drained := by
  have hfoldl : ∀ {s : State} {bodies : List Node}, (∀ b ∈ bodies, b.IsBody) →
      Places s (bodies.foldl State.place s) := by
    intro s bodies hbodies
    induction bodies generalizing s with
    | nil => exact .refl s
    | cons b bodies ih =>
      obtain ⟨hb, hbodies⟩ := List.forall_mem_cons.1 hbodies
      exact (places_place hb).trans (ih hbodies)
  have hclear : Places s { s with bodies := [] } := ⟨fun _ => nofun, rfl, Nat.le_refl _, rfl⟩
  exact hclear.trans (hfoldl ht)

end

/-! ## Statement lists -/

/-- The error nodes in the open list were reported since it began. -/
structure Carries (s₀ s : State) : Prop where
  tidy : s.Tidy
  explained : errorsIn s.statements.toList + s₀.errors ≤ s.errors

/-- The open list holds what was read since it began. -/
def Lists (doc : Document) (s₀ s : State) : Prop :=
  Accounts doc s₀ s.statements.toList (s.holding s₀.statements)

section

variable {α : Type} {doc : Document} {s s₀ s₁ s' : State} {v : Node} {enter : Parser Grammar}
  {stops : List StopAt} {stopAfterBlock : Bool}

theorem Lists.carries (h : Lists doc s₀ s) : Carries s₀ s := ⟨h.tidy, h.explained⟩

/-- A parser that a limit stops leaves the list as it was. -/
theorem Lists.fails (h : Lists doc s₀ s) (h' : Upholds s s') : Carries s₀ s' where
  tidy := h'.tidy
  explained := by
    rw [h'.statements]
    exact Nat.le_trans h.explained h'.errors_le

theorem Lists.still (h : Lists doc s₀ s) (h' : Accounts doc s [] s') : Lists doc s₀ s' := by
  unfold Lists
  rw [h'.statements]
  exact Accounts.then h (h'.holding s₀.statements)

/-- A statement more. -/
theorem Lists.push (h : Lists doc s₀ s) (h' : Accounts doc s [v] s') :
    Lists doc s₀ (s'.push v) := by
  have hall := Accounts.trans h (h'.holding s₀.statements)
  rw [← h'.statements, ← Array.toList_push] at hall
  exact hall

/-- Nothing waits to be put into the list on a quiet way. -/
theorem Lists.drained (h : Lists doc s₀ s) : Lists doc s₀ s.drained := by
  have hplaces : Places s s.drained := places_drained h.carries.tidy
  have hquiet : Quiet doc s₀ (s.drained.holding s₀.statements) →
      Quiet doc s₀ (s.holding s₀.statements) ∧ s.drained = s := by
    intro q
    have q' : Quiet doc s₀ (s.holding s₀.statements) := q.first h.errors_le hplaces.errors_le
    exact ⟨q', drained_of_nil (h.drift q').neat.bodies⟩
  exact {
    statements := rfl
    tidy := hplaces.tidy h.tidy
    skip := (congrArg Nesting.newlineSkip hplaces.nesting).trans h.skip
    explained := by
      rw [hplaces.statements]
      exact Nat.le_trans h.explained hplaces.errors_le
    drift := fun q => by
      obtain ⟨q', heq⟩ := hquiet q
      rw [heq]
      exact h.drift q'
    leap := fun q => by
      obtain ⟨q', heq⟩ := hquiet q
      rw [heq]
      exact h.leap q' }

theorem Lists.drain (h : Lists doc s₀ s) {fail : Stopped → State → Prop} :
    Runs doc fail drainHeredocs s fun _ => Lists doc s₀ := by
  refine drainHeredocs_runs.imp ?_
  rintro _ _ rfl
  exact h.drained

/-- A parser that is run on the list. -/
theorem Lists.run {p : Parser α} {R : α → State → Prop} (h : Lists doc s₀ s)
    (hp : Answers doc s p s₁ R) : Runs doc (fun _ => Carries s₀) p s₁ R :=
  hp.imp_fail fun _ _ => h.fails

theorem separators_answers (h : Lists doc s₀ s) :
    Runs doc (fun _ => Carries s₀) (whileHolds atSeparator do
      discard bump
      drainHeredocs) s fun _ => Lists doc s₀ := by
  refine Runs.whileLoop (Lists doc s₀) (fun _ h => h.carries) atSeparator_looks (fun s h => ?_) h
  refine (h.run (discard_bump_answers h.carries.tidy)).bind fun _ s₁ h₁ => ?_
  exact (h.still h₁.toAccounts).drain

/-- What became of a statement: it was read, or exceeded a limit. -/
def Attempts (doc : Document) (s : State) : Except LimitError Node → State → Prop
  | .ok v, s' => Accounts doc s [v] s'
  | .error _, s' => Upholds s s'

theorem catchLocal_answers {p : Parser Node} (hp : Gathers doc p s fun v => [v]) (ht : s.Tidy) :
    Answers doc s (catchLocal p) s (Attempts doc s) := by
  have hruns := hp ht
  unfold Answers Runs at hruns ⊢
  unfold catchLocal
  cases hrun : p doc s with
  | ok v s₁ =>
    rw [hrun] at hruns
    exact hruns
  | error e s₁ =>
    rw [hrun] at hruns
    cases e with
    | fault => exact hruns
    | limit error =>
      simp only
      cases error.isLocal <;> exact hruns

/-- A statement that exceeded a limit is reported. -/
theorem abandon_answers {error : LimitError} {start : Nat} (h : Upholds s s₁) :
    Answers doc s (abandon error start s.nesting) s₁ fun v s' => Accounts doc s [v] s' := by
  have hrest : Answers doc { s₁ with nesting := s.nesting } (do
      whileHolds (do
        let kind ← currentKind
        return kind != .newline && kind != .eof) (discard bump)
      let span ← spanFrom start
      report (.limit error span)
      return .error span) { s₁ with nesting := s.nesting } fun v s' =>
        Explains { s₁ with nesting := s.nesting } [v] s' ∧ s₁.errors < s'.errors := by
    refine (Accounts.refl (s := { s₁ with nesting := s.nesting }) h.tidy).step fun _ s₂ h₂ =>
      runs_spanFrom.2 ?_
    refine h₂.bind (report_answers _ h₂.tidy) fun _ s₃ ⟨h₃, _, hmore⟩ => .pure ?_
    have hmore : s₃.errors = s₂.errors + 1 := hmore
    have hle : s₁.errors ≤ s₂.errors := h₂.errors_le
    refine ⟨{ (h₂.append h₃.toExplains) with explained := ?_ }, by omega⟩
    rw [errorsIn_cons, errors_error, errorsIn_nil]
    show 1 + 0 + s₁.errors ≤ _
    omega
  have hupholds : ∀ {s'}, Upholds { s₁ with nesting := s.nesting } s' → Upholds s s' :=
    fun h' => h.trans ⟨⟨h'.statements, h'.tidy⟩, h'.errors_le⟩
  have hruns : Answers doc s _ { s₁ with nesting := s.nesting } fun v s' =>
      Accounts doc s [v] s' :=
    (hrest.imp_fail fun _ _ => hupholds).imp fun v s' ⟨h', hlt⟩ => by
      have hexplains : Explains s [v] s' := {
        toRests := (hupholds h'.upholds).toRests
        skip := h'.skip
        explained := Nat.le_trans (Nat.add_le_add_left h.errors_le _) h'.explained }
      exact hexplains.accounts (Nat.lt_of_le_of_lt h.errors_le hlt)
  exact hruns

/-- Something that does not fit is taken for a statement. -/
theorem force_answers {what : String} (h : Lists doc s₀ s) :
    Runs doc (fun _ => Carries s₀) (do
        pushStatement (← forceAdvance what)
        return .again () : Parser (Round Unit Unit)) s
      (Next (fun _ => Lists doc s₀) fun _ => Lists doc s₀) :=
  (h.run (forceAdvance_gathers what h.carries.tidy)).bind fun _ _ hv =>
    runs_pushStatement.2 (.pure (h.push hv))

theorem takeStatement_answers {start : Nat} {r : Except LimitError Node} (h : Lists doc s₀ s)
    (hr : Attempts doc s r s₁) :
    Runs doc (fun _ => Carries s₀) (takeStatement stops stopAfterBlock s.pos start s.nesting r) s₁
      (Next (fun _ => Lists doc s₀) fun _ => Lists doc s₀) := by
  cases r with
  | error error =>
    exact (h.run (abandon_answers hr)).bind fun _ _ hv => runs_pushStatement.2 (.pure (h.push hv))
  | ok v =>
    have hv : Accounts doc s [v] s₁ := hr
    refine runs_position.2 ?_
    split
    · exact force_answers (h.still (hv.among (List.nil_subset _) (Nat.zero_le _)))
    refine runs_pushStatement.2 ((h.push hv).drain.bind fun _ s₂ h₂ => ?_)
    split
    · exact .pure h₂
    refine .look (separated_looks stops v) fun sep _ => ?_
    split
    · exact force_answers h₂
    · exact .pure h₂

theorem statementRound_answers (he : Deepens doc enter) (h : Lists doc s₀ s) :
    Runs doc (fun _ => Carries s₀) (statementRound enter stops stopAfterBlock) s
      (Next (fun _ => Lists doc s₀) fun _ => Lists doc s₀) := by
  rw [statementRound_eq]
  refine (h.run (Silent.silent doc s h.carries.tidy)).bind fun _ s₁ h₁ => ?_
  refine (separators_answers (h.still h₁)).bind fun _ s₂ h₂ => runs_atKind.2 ?_
  refine .look (atStop_looks stops) fun stop _ => ?_
  split
  · exact .pure h₂
  refine runs_position.2 (runs_startOffset.2 (runs_get.2 ?_))
  refine (h₂.run (catchLocal_answers (andOr_gathers he) h₂.carries.tidy)).bind fun r s₃ hr => ?_
  exact takeStatement_answers h₂ hr

/-- However a statement list ends, it accounts for what it holds. -/
theorem statementList_answers (he : Deepens doc enter) (h : Lists doc s₀ s) :
    Runs doc (fun _ => Carries s₀) (statementList enter stops stopAfterBlock) s
      fun _ => Lists doc s₀ :=
  Runs.loop (fun _ => Lists doc s₀) (fun _ _ h => h.carries) (statementRound_answers he h)
    fun _ _ h => statementRound_answers he h

theorem lists_nil (ht : s.Tidy) (hnil : s.statements = #[]) : Lists doc s s := by
  unfold Lists
  rw [hnil]
  have : s.holding #[] = s := by rw [← hnil]; rfl
  rw [this]
  exact .refl ht

theorem collecting_gathers (he : Deepens doc enter) :
    Gathers doc (collecting (statementList enter stops stopAfterBlock)) s id := by
  intro ht
  have hruns : Runs doc _ (statementList enter stops stopAfterBlock) (s.holding #[]) _ :=
    statementList_answers he (lists_nil ht rfl)
  unfold Answers Runs at *
  unfold collecting
  cases hrun : statementList enter stops stopAfterBlock doc (s.holding #[]) with
  | ok _ s₁ =>
    rw [hrun] at hruns
    rw [State.holding] at hrun
    rw [hrun]
    exact Accounts.holding hruns s.statements
  | error e s₁ =>
    rw [hrun] at hruns
    rw [State.holding] at hrun
    rw [hrun]
    exact ⟨⟨rfl, hruns.tidy⟩, Nat.le_trans (Nat.le_add_left _ _) hruns.explained⟩

end

/-! ## Levels -/

section

variable {doc : Document} {enter : Parser Grammar}

theorem over_honest (he : Deepens doc enter) : (Grammar.over enter).Honest doc where
  statements _ _ _ := collecting_gathers he
  expression power _ := expression_gathers he power
  operators power _ := operators_gathers he power
  word _ := word_gathers he
  stringLiteral _ hquote := (stringLiteral_frames he hquote).gathers
  block _ := braceBlock_gathers he

/-- Every level accounts for what it reads. -/
theorem deepens_level (levels : Nat) : Deepens doc (enterLevel levels) := by
  induction levels with
  | zero =>
    exact fun s ht => (Silent.silent doc s ht).bind fun _ _ h => h.upholds
  | succ levels ih =>
    exact fun s ht => (Silent.silent doc s ht).bind fun _ _ h => .pure ⟨h, over_honest ih⟩

end

end ShellAnalysis.Parse
