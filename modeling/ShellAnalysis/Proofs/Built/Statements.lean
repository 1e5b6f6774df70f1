import ShellAnalysis.Proofs.Built.Control

/-!
# Statements that are built

A pipeline or a command list is made only where there is an operator to read, or
a negation.  A statement list takes the statements in, puts heredoc bodies into
them and gives up statements that exceed a limit; whatever happens, what is in
the open list is built (`Stocked`), and every round ends in the nesting in which
the list began.

Each level of the grammar adds a fixed number of nodes and one chain of
operators to the level further in (`opens_level`).
-/

namespace ShellAnalysis.Parse

open Text Node

section

variable {doc : Document} {s : State} {h : Nat} {enter : Parser Grammar}

/-! ## Commands -/

theorem simpleKeyword?_gives {word : String} {p : Parser Node} (he : Opens doc h enter)
    (hp : simpleKeyword? enter word = some p) : Gives doc p s (Built doc.text (h + 2)) := by
  unfold simpleKeyword? at hp
  split at hp
  · exact Option.some.inj hp ▸ procDef_gives he
  · exact Option.some.inj hp ▸ funcDef_gives he
  · exact Option.some.inj hp ▸ varDecl_gives he _
  · exact Option.some.inj hp ▸ varDecl_gives he _
  · exact Option.some.inj hp ▸ mutation_gives he _
  · exact Option.some.inj hp ▸ mutation_gives he _
  · exact Option.some.inj hp ▸ (exprStatement_gives he _).imp fun _ hv => hv.mono (Nat.le_succ _)
  · exact Option.some.inj hp ▸ functionKeyword_gives he
  · split at hp
    · cases hp
      exact (forceAdvance_gives _ (Nat.succ_pos _)).imp fun _ hv => hv.1
    · cases hp

/-- A construct of control flow is a compound command. -/
theorem control_gives {k : Nat} {form : Grammar → Parser (Form Node)} (he : Opens doc h enter)
    (hk : k ≤ h + 3) (hform : ∀ inner s', Grammar.Builds doc h inner →
      Gives doc (form inner) s' (Controls doc.text k)) :
    Gives doc (construct enter form) s (Compound doc.text (h + 3)) :=
  (construct_gives (P := fun form => form.isCompound = true) he hform).imp
    fun _ hv => ⟨hv.1.mono hk, hv.2⟩

theorem compoundKeyword?_gives {word : String} {p : Parser Node} (he : Opens doc h enter)
    (hp : compoundKeyword? enter word = some p) : Gives doc p s (Compound doc.text (h + 3)) := by
  unfold compoundKeyword? at hp
  split at hp
  · cases hp
    exact control_gives he (Nat.le_refl _) fun _ _ => ifForm_gives
  · cases hp
    exact control_gives he (Nat.le_succ _) fun _ _ hinner => whileForm_gives hinner _
  · cases hp
    exact control_gives he (Nat.le_succ _) fun _ _ hinner => whileForm_gives hinner _
  · cases hp
    exact control_gives he (Nat.le_succ _) fun _ _ => forForm_gives
  · cases hp
    exact control_gives he (Nat.le_refl _) fun _ _ => caseForm_gives
  · cases hp

theorem keywordStatement?_gives (he : Opens doc h enter) :
    Gives doc (keywordStatement? enter) s fun k? => ∀ k, k? = some k →
      Built doc.text (h + 3) k.node ∧ (k.compound = true → k.node.form.isCompound = true) := by
  refine .step fun t s₁ => .step fun glued s₂ => ?_
  split
  · exact .pure nofun
  refine .step fun word s₃ => ?_
  split
  · rename_i hp
    refine (simpleKeyword?_gives he hp).bind fun v _ hv => .pure ?_
    rintro _ ⟨⟩
    exact ⟨hv.mono (Nat.le_succ _), nofun⟩
  · rename_i hp
    refine (compoundKeyword?_gives he hp).bind fun v _ hv => .pure ?_
    rintro _ ⟨⟩
    exact ⟨hv.1, fun _ => hv.2⟩
  · refine .step fun bare s₄ => ?_
    split
    · refine (mutation_gives he _).bind fun v _ hv => .pure ?_
      rintro _ ⟨⟩
      exact ⟨hv.mono (Nat.le_succ _), nofun⟩
    · exact .pure nofun

theorem withRedirects_gives {start : Nat} {node : Node} (he : Opens doc h enter)
    (hnode : Compound doc.text (h + 3) node) :
    Gives doc (withRedirects enter start node) s (Built doc.text (h + 5)) := by
  refine .look atRedirect_looks fun b hb => ?_
  cases b with
  | false => exact .pure (hnode.1.mono (by omega))
  | true =>
    refine (Turns.manyWhile atRedirect_looks fun _ _ => redirect_gives he).bind
      fun redirects s₁ ⟨hredirects, hne⟩ => .step fun span _ => .pure ?_
    exact built_make (List.forall_mem_cons.2 ⟨hnode.1.mono (Nat.le_succ _), hredirects⟩) rfl
      ⟨hne hb, hnode.2⟩ rfl

theorem command_gives (he : Opens doc h enter) :
    Gives doc (command enter) s (Built doc.text (h + 5)) := by
  have hcompound : ∀ {v : Node}, Compound doc.text (h + 1) v → Compound doc.text (h + 3) v :=
    fun hv => ⟨hv.1.mono (by omega), hv.2⟩
  refine .step fun start s₁ => .step fun kind s₂ => ?_
  split
  · exact (braceBlock_gives he).bind fun v _ hv => withRedirects_gives he (hcompound hv)
  · exact (subshell_gives he).bind fun v _ hv => withRedirects_gives he (hcompound hv)
  · exact (exprStatement_gives he _).imp fun _ hv => hv.mono (by omega)
  · refine (keywordStatement?_gives he).bind fun k? s₃ hk => ?_
    split
    · rename_i k
      obtain ⟨hbuilt, hkind⟩ := hk k rfl
      split
      · rename_i hc
        exact withRedirects_gives he ⟨hbuilt, hkind hc⟩
      · exact .pure (hbuilt.mono (by omega))
    · exact simpleCommand_gives he
  · exact simpleCommand_gives he

/-! ## Pipelines and command lists -/

theorem eat_gives (kind : TokenKind) :
    Gives doc (eat kind) s fun b => (s.ahead doc).kind = kind → b = true := by
  refine .look (atKind_looks kind) fun b hb => ?_
  cases b with
  | true => exact .step fun _ _ => .pure fun _ => rfl
  | false => exact .pure fun hk => absurd hk (atKind_false hb)

/-- A round of a pipeline adds a stage, unless there is no `|`. -/
theorem stageRound_gives {negated : Bool} {stages : Array Node} (he : Opens doc h enter)
    (hstages : AllBuilt doc.text (h + 5) stages.toList) (hne : stages.toList ≠ [])
    (hmore : (s.ahead doc).kind = .pipe ∨ negated = true ∨ 2 ≤ stages.toList.length) :
    Gives doc (do
      if !(← eat .pipe) then return .finish stages.toList
      skipNewlines
      let before ← position
      let stage ← command enter
      if (← position) == before then
        return .finish (stages.push (← missing "a command")).toList
      else return .again (stages.push stage)) s
      (Brings (fun stages => AllBuilt doc.text (h + 5) stages.toList ∧ 2 ≤ stages.toList.length)
        fun stages => AllBuilt doc.text (h + 5) stages ∧ stages ≠ [] ∧
          (negated = true ∨ 2 ≤ stages.length)) := by
  have htwo : ∀ v, 2 ≤ (stages.push v).toList.length := by
    intro v
    have := List.length_pos_iff.2 hne
    rw [Array.toList_push, List.length_append, List.length_singleton]
    omega
  refine (eat_gives .pipe).bind fun b s₁ hb => ?_
  cases b with
  | false =>
    refine .pure ⟨hstages, hne, hmore.resolve_left fun hk => ?_⟩
    cases hb hk
  | true =>
    refine .step fun _ s₂ => .step fun before s₃ => ?_
    refine (command_gives he).bind fun stage s₄ hstage => .step fun i s₅ => ?_
    split
    · refine (missing_gives _ hstage.pos).bind fun last _ hlast => .pure ?_
      exact ⟨hstages.push hlast, by simp, .inr (htwo last)⟩
    · exact .pure ⟨hstages.push hstage, htwo stage⟩

theorem moreStages_gives {negated : Bool} {first : Node} (he : Opens doc h enter)
    (hfirst : Built doc.text (h + 5) first)
    (hmore : (s.ahead doc).kind = .pipe ∨ negated = true) :
    Gives doc (moreStages enter first) s fun stages =>
      AllBuilt doc.text (h + 5) stages ∧ stages ≠ [] ∧ (negated = true ∨ 2 ≤ stages.length) := by
  refine .loopFrom (fun stages => AllBuilt doc.text (h + 5) stages.toList ∧
      2 ≤ stages.toList.length) ?_ fun stages s' hstages => ?_
  · exact stageRound_gives he (.push allBuilt_nil hfirst) (by simp) (hmore.imp_right .inl)
  · refine stageRound_gives he hstages.1 (fun hnil => ?_) (.inr (.inr hstages.2))
    have := hstages.2
    simp [hnil] at this

theorem pipeline_gives (he : Opens doc h enter) :
    Gives doc (pipeline enter) s (Built doc.text (h + 6)) := by
  refine .step fun start s₁ => .step fun negated s₂ => ?_
  refine (command_gives he).bind fun first s₃ hfirst => .look (atKind_looks _) fun b hb => ?_
  split
  · exact .pure (hfirst.mono (Nat.le_succ _))
  · rename_i hgo
    have hmore : (s₃.ahead doc).kind = .pipe ∨ negated = true := by
      cases b with
      | true => exact .inl (atKind_true hb)
      | false => exact .inr (by simpa using hgo)
    refine (moreStages_gives he hfirst hmore).bind fun stages s₄ ⟨hstages, hshape⟩ => ?_
    refine .step fun span _ => .pure (built_make ?_ rfl hshape rfl)
    rwa [Form.children, List.append_nil]

theorem Joined.andOr {text : String} {ops : Array Connective} {commands : Array Node}
    (hr : Joined text h ops commands) (hne : ops.toList ≠ []) :
    Raises text (h + 1) (.andOr ops.toList commands.toList []) := by
  refine fun span => built_make ?_ rfl ⟨hne, hr.length⟩ rfl
  rw [Form.children, List.append_nil]
  exact hr.built

theorem pipelineRound_gives {ops : Array Connective} {commands : Array Node}
    (he : Opens doc h enter) (hr : Joined doc.text (h + 6) ops commands)
    (hmore : ops.toList ≠ [] ∨ (connective? (s.ahead doc).kind).isSome = true) :
    Gives doc (do
      match connective? (← currentKind) with
      | none => return .finish (.andOr ops.toList commands.toList [])
      | some op =>
        discard bump
        skipNewlines
        let before ← position
        let next ← pipeline enter
        if (← position) == before then
          let last ← missing "a command"
          return .finish (.andOr (ops.push op).toList (commands.push last).toList [])
        else return .again (ops.push op, commands.push next)) s
      (Brings (fun r => r.1.toList ≠ [] ∧ Joined doc.text (h + 6) r.1 r.2)
        (Raises doc.text (h + 7))) := by
  refine .currentKind ?_
  split
  · rename_i hnone
    refine .pure (hr.andOr (hmore.resolve_right ?_))
    rw [hnone]
    exact nofun
  · rename_i op _
    refine .step fun _ s₁ => .step fun _ s₂ => .step fun before s₃ => ?_
    refine (pipeline_gives he).bind fun next s₄ hnext => .step fun i s₅ => ?_
    split
    · refine (missing_gives _ hnext.pos).bind fun last _ hlast => .pure ?_
      exact (hr.push hlast op).andOr (by simp)
    · exact .pure ⟨by simp, hr.push hnext op⟩

theorem morePipelines_gives {first : Node} (he : Opens doc h enter)
    (hfirst : Built doc.text (h + 6) first)
    (hmore : (connective? (s.ahead doc).kind).isSome = true) :
    Gives doc (morePipelines enter first) s (Raises doc.text (h + 7)) :=
  .loopFrom (fun r => r.1.toList ≠ [] ∧ Joined doc.text (h + 6) r.1 r.2)
    (pipelineRound_gives he (joined_first hfirst) (.inr hmore))
    fun _ _ hr => pipelineRound_gives he hr.2 (.inl hr.1)

theorem pipelines_gives (he : Opens doc h enter) :
    Gives doc (pipelines enter) s (Built doc.text (h + 7)) := by
  refine .step fun start s₁ => (pipeline_gives he).bind fun first s₂ hfirst => .currentKind ?_
  split
  · rename_i hmore
    refine (morePipelines_gives he hfirst hmore).bind fun form s₃ hform => ?_
    exact .step fun span _ => .pure (hform span)
  · exact .pure (hfirst.mono (Nat.le_succ _))

theorem andOr_gives (he : Opens doc h enter) :
    Gives doc (andOr enter) s (Built doc.text (h + 8)) := by
  refine .step fun start s₁ => (pipelines_gives he).bind fun v s₂ hv => .step fun amp s₃ => ?_
  split
  · exact .step fun span _ => .pure (built_make (List.forall_mem_singleton.2 hv) rfl trivial rfl)
  · exact .pure (hv.mono (Nat.le_succ _))

/-! ## Statement lists -/

/-- What is in the open list is built, and only heredoc bodies wait. -/
structure Stocked (doc : Document) (h : Nat) (s : State) : Prop where
  statements : AllBuilt doc.text h s.statements.toList
  tidy : s.Tidy

section

variable {α : Type} {s' : State} {v b : Node} {n : Nesting} {stops : List StopAt}
  {stopAfterBlock : Bool}

theorem Stocked.rests (hs : Stocked doc h s) (hr : Rests s s') : Stocked doc h s' :=
  ⟨hr.statements ▸ hs.statements, hr.tidy⟩

/-- A parser that leaves the list alone. -/
theorem Stocked.runs {p : Parser α} {Q : α → Prop} (hs : Stocked doc h s) (hp : Gives doc p s Q) :
    Runs doc (fun _ => Stocked doc h) p s fun a s' =>
      Stocked doc h s' ∧ s'.nesting = s.nesting ∧ Q a :=
  ((hp hs.tidy).imp fun _ _ h => ⟨hs.rests h.1, h.2⟩).imp_fail fun _ _ => hs.rests

theorem Stocked.push (hs : Stocked doc h s) (hv : Built doc.text h v) :
    Stocked doc h (s.push v) := ⟨hs.statements.push hv, hs.tidy⟩

/-- A body is put into the open list, or dropped. -/
theorem Stocked.place (hs : Stocked doc h s) (hb : b.IsBody) (hpos : 0 < h) :
    Stocked doc h (s.place b) ∧ (s.place b).nesting = s.nesting := by
  rcases place_cases s b with ⟨-, heq⟩ | ⟨X, last, hX, -, ⟨-, heq⟩ | ⟨w, hw, heq⟩⟩
  · exact heq ▸ ⟨hs.push ((built_body hb).mono hpos), rfl⟩
  · exact heq ▸ ⟨⟨hs.statements, hs.tidy⟩, rfl⟩
  · have hstatements := hs.statements
    rw [hX, Array.toList_push, AllBuilt, List.forall_mem_append, List.forall_mem_singleton]
      at hstatements
    exact heq ▸ ⟨⟨forall_mem_push hstatements.1 (hstatements.2.attach hb hw), hs.tidy⟩, rfl⟩

theorem Stocked.foldl {bodies : List Node} (hs : Stocked doc h s) (hb : ∀ b ∈ bodies, b.IsBody)
    (hpos : 0 < h) : Stocked doc h (bodies.foldl State.place s) ∧
      (bodies.foldl State.place s).nesting = s.nesting := by
  induction bodies generalizing s with
  | nil => exact ⟨hs, rfl⟩
  | cons b bodies ih =>
    obtain ⟨hb, hbodies⟩ := List.forall_mem_cons.1 hb
    obtain ⟨hplaced, hnesting⟩ := hs.place hb hpos
    obtain ⟨hall, hsame⟩ := ih hplaced hbodies
    exact ⟨hall, hsame.trans hnesting⟩

/-- All bodies that wait are put into the open list. -/
theorem Stocked.drained (hs : Stocked doc h s) (hpos : 0 < h) :
    Stocked doc h s.drained ∧ s.drained.nesting = s.nesting :=
  Stocked.foldl (s := { s with bodies := [] }) ⟨hs.statements, nofun⟩ hs.tidy hpos

/-- The list at the nesting in which it began. -/
def Balanced (doc : Document) (h : Nat) (n : Nesting) (s : State) : Prop :=
  Stocked doc h s ∧ s.nesting = n

theorem Balanced.drain (hs : Balanced doc h n s) (hpos : 0 < h) {fail : Stopped → State → Prop} :
    Runs doc fail drainHeredocs s fun _ => Balanced doc h n := by
  refine drainHeredocs_runs.imp ?_
  rintro _ _ rfl
  obtain ⟨hdrained, hnesting⟩ := hs.1.drained hpos
  exact ⟨hdrained, hnesting.trans hs.2⟩

theorem Balanced.runs {p : Parser α} {Q : α → Prop} (hs : Balanced doc h n s)
    (hp : Gives doc p s Q) :
    Runs doc (fun _ => Stocked doc h) p s fun a s' => Balanced doc h n s' ∧ Q a :=
  (hs.1.runs hp).imp fun _ _ h => ⟨⟨h.1, h.2.1.trans hs.2⟩, h.2.2⟩

theorem Balanced.push (hs : Balanced doc h n s) (hv : Built doc.text h v) :
    Balanced doc h n (s.push v) := ⟨hs.1.push hv, hs.2⟩

theorem separators_balanced (hs : Balanced doc h n s) (hpos : 0 < h) :
    Runs doc (fun _ => Stocked doc h) (whileHolds atSeparator do
      discard bump
      drainHeredocs) s fun _ => Balanced doc h n := by
  refine Runs.whileLoop (Balanced doc h n) (fun _ h => h.1) atSeparator_looks (fun s hs => ?_) hs
  refine (hs.runs (Tame.tame (p := discard bump) doc s)).bind fun _ s₁ h₁ => ?_
  exact h₁.1.drain hpos

/-- A statement that exceeds a limit on one construct stops with the list as it was. -/
theorem catchLocal_balanced {p : Parser α} {Q : α → Prop} (hs : Stocked doc h s)
    (hp : Gives doc p s Q) :
    Runs doc (fun _ => Stocked doc h) (catchLocal p) s fun r s' => Stocked doc h s' ∧
      ∀ a, r = .ok a → s'.nesting = s.nesting ∧ Q a := by
  have hruns := hs.runs hp
  unfold Runs at hruns ⊢
  unfold catchLocal
  cases hrun : p doc s with
  | ok a s₁ =>
    rw [hrun] at hruns
    refine ⟨hruns.1, ?_⟩
    rintro _ ⟨⟩
    exact hruns.2
  | error e s₁ =>
    rw [hrun] at hruns
    cases e with
    | fault => exact hruns
    | limit error =>
      simp only
      cases error.isLocal with
      | true => exact ⟨hruns, nofun⟩
      | false => exact hruns

/-- The list goes on in the nesting in which it began. -/
theorem abandon_balanced {error : LimitError} {start : Nat} (hs : Stocked doc h s) :
    Runs doc (fun _ => Stocked doc h) (abandon error start n) s fun v s' =>
      Balanced doc h n s' ∧ ∃ span, v = Node.error span := by
  have hrest : Gives doc (do
      whileHolds (do
        let kind ← currentKind
        return kind != .newline && kind != .eof) (discard bump)
      let span ← spanFrom start
      report (.limit error span)
      return .error span) { s with nesting := n } fun v => ∃ span, v = Node.error span :=
    .step fun _ _ => .step fun span _ => .step fun _ _ => .pure ⟨span, rfl⟩
  have hlevel : Balanced doc h n { s with nesting := n } := ⟨⟨hs.statements, hs.tidy⟩, rfl⟩
  exact hlevel.runs hrest

/-- Something that does not fit is taken for a statement. -/
theorem force_balanced {what : String} (hs : Balanced doc h n s) (hpos : 0 < h) :
    Runs doc (fun _ => Stocked doc h) (do
        pushStatement (← forceAdvance what)
        return .again () : Parser (Round Unit Unit)) s
      (Next (fun _ => Balanced doc h n) fun _ => Balanced doc h n) := by
  refine (hs.runs (forceAdvance_gives what hpos)).bind fun v s₁ ⟨hs₁, hv, _⟩ => ?_
  rw [runs_pushStatement]
  exact hs₁.push hv

theorem takeStatement_balanced {before start : Nat} {r : Except LimitError Node}
    (hs : Stocked doc (h + 8) s)
    (hr : ∀ v, r = .ok v → s.nesting = n ∧ Built doc.text (h + 8) v) :
    Runs doc (fun _ => Stocked doc (h + 8)) (takeStatement stops stopAfterBlock before start n r) s
      (Next (fun _ => Balanced doc (h + 8) n) fun _ => Balanced doc (h + 8) n) := by
  have hpos : 0 < h + 8 := Nat.succ_pos _
  cases r with
  | error error =>
    refine (abandon_balanced hs).bind ?_
    rintro _ s₁ ⟨hs₁, span, rfl⟩
    rw [runs_pushStatement]
    exact hs₁.push ((built_error span).mono hpos)
  | ok v =>
    obtain ⟨hnesting, hv⟩ := hr v rfl
    have hs : Balanced doc (h + 8) n s := ⟨hs, hnesting⟩
    unfold takeStatement
    simp only [runs_position]
    split
    · exact force_balanced hs hpos
    rw [runs_pushStatement]
    refine ((hs.push hv).drain hpos).bind fun _ s₁ hs₁ => ?_
    split
    · exact hs₁
    refine .look (separated_looks stops v) fun sep _ => ?_
    split
    · exact force_balanced hs₁ hpos
    · exact hs₁

theorem statementRound_balanced (he : Opens doc h enter) (hs : Balanced doc (h + 8) n s) :
    Runs doc (fun _ => Stocked doc (h + 8)) (statementRound enter stops stopAfterBlock) s
      (Next (fun _ => Balanced doc (h + 8) n) fun _ => Balanced doc (h + 8) n) := by
  rw [statementRound_eq]
  refine (hs.runs (Tame.tame (p := countIteration) doc s)).bind fun _ s₁ hs₁ => ?_
  refine (separators_balanced hs₁.1 (Nat.succ_pos _)).bind fun _ s₂ hs₂ => ?_
  unfold statementRest
  rw [runs_atKind]
  refine .look (atStop_looks stops) fun stop _ => ?_
  split
  · exact hs₂
  rw [runs_position, runs_startOffset, runs_get, hs₂.2]
  refine (catchLocal_balanced hs₂.1 (andOr_gives he)).bind fun r s₃ hr => ?_
  exact takeStatement_balanced hr.1 fun v hv => ⟨(hr.2 v hv).1.trans hs₂.2, (hr.2 v hv).2⟩

/-- However a statement list ends, what it holds is built. -/
theorem statementList_balanced (he : Opens doc h enter) (hs : Balanced doc (h + 8) n s) :
    Runs doc (fun _ => Stocked doc (h + 8)) (statementList enter stops stopAfterBlock) s
      fun _ => Balanced doc (h + 8) n :=
  Runs.loop (fun _ => Balanced doc (h + 8) n) (fun _ _ h => h.1) (statementRound_balanced he hs)
    fun _ _ => statementRound_balanced he

theorem collecting_gives (he : Opens doc h enter) :
    Gives doc (collecting (statementList enter stops stopAfterBlock)) s
      (AllBuilt doc.text (h + 8)) := by
  intro ht
  have hruns : Runs doc _ (statementList enter stops stopAfterBlock)
      { s with statements := #[] } _ := statementList_balanced he ⟨⟨nofun, ht⟩, rfl⟩
  unfold Runs at hruns ⊢
  unfold collecting
  cases hrun : statementList enter stops stopAfterBlock doc { s with statements := #[] } with
  | ok _ s₁ =>
    rw [hrun] at hruns
    exact ⟨⟨rfl, hruns.1.tidy⟩, hruns.2, hruns.1.statements⟩
  | error e s₁ =>
    rw [hrun] at hruns
    exact ⟨rfl, hruns.tidy⟩

end

/-! ## Levels -/

/-- A level is no more than eight nodes and a chain of operators higher than the level further
in. -/
theorem over_builds (he : Opens doc h enter) :
    Grammar.Builds doc (h + 8 + doc.limits.chain) (.over enter) where
  pos := by omega
  statements := fun _ _ _ => (collecting_gives he).imp fun _ hxs x hx => (hxs x hx).mono (by omega)
  expression := fun power _ => (expression_gives he power).imp fun _ hv => hv.mono (by omega)
  operators := fun power _ => (operators_gives he power).imp fun _ hv => hv.mono (by omega)
  word := fun _ hk => (word_gives he hk).imp fun _ hv => hv.mono (by omega)
  stringLiteral := fun _ => (stringLiteral_gives he).imp fun _ hv => hv.mono (by omega)
  block := fun _ => (braceBlock_gives he).imp fun _ hv => hv.1.mono (by omega)

theorem descend_turns : Turns doc Nesting.inward descend s fun _ => True := by
  intro ht
  show Runs doc _ (if doc.limits.depth < s.nesting.depth + 1 then _ else _) _ _
  split
  · exact ⟨rfl, ht⟩
  · exact ⟨⟨rfl, ht⟩, rfl, trivial⟩

/-- How high the trees of a level with this many levels further in can be. -/
def levelHeight (limits : Limits) : (levels : Nat) → Nat
  | 0 => 0
  | levels + 1 => levelHeight limits levels + 8 + limits.chain

theorem opens_level (levels : Nat) :
    Opens doc (levelHeight doc.limits levels) (enterLevel levels) := by
  induction levels with
  | zero =>
    intro s
    exact descend_turns.bindGives fun _ _ _ ht => ht.rests
  | succ levels ih =>
    intro s
    exact descend_turns.bindGives fun _ _ _ => .pure (over_builds ih)

end

end ShellAnalysis.Parse
