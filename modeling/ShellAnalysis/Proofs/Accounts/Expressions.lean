import ShellAnalysis.Proofs.Accounts.Words
import ShellAnalysis.Proofs.Built.Expressions

/-!
# Accounts of expressions

An operand is read as one node, and every operator makes one node over the
operand on its left and what is read after it (`foldOperator_answers`).  The left
operand is passed along, so what was read before an operator and what is read
after it make one account.
-/

namespace ShellAnalysis.Parse

open Text Node

/-- The parts of a construct were read, and the names in it. -/
structure Assembles (doc : Document) (s : State) (f : Form Node) (s' : State) : Prop
    extends Mentions doc s f.children f.names s' where
  loose : f.isLoose = true

section

variable {α : Type} {doc : Document} {s s₀ s₁ : State} {enter : Parser Grammar} {inner : Grammar}

/-! ## Literals -/

theorem intLiteral_gathers : Gathers doc intLiteral s fun v => [v] := by
  intro ht
  refine (bump_answers ht).bind ?_
  rintro _ s₁ ⟨rfl, h₁, hpos⟩
  refine runs_tokenText.2 ?_
  split
  · exact .pure (h₁.leaf hpos rfl rfl).toAccounts
  · refine h₁.bind (report_answers _ h₁.tidy) ?_
    rintro _ s₂ ⟨h₂, -, hmore⟩
    have hmore : s₂.errors = s₁.errors + 1 := hmore
    have h := h₁.append h₂.toExplains
    have hle := h₁.errors_le
    refine .pure (Explains.accounts { h with explained := ?_ } (by omega))
    rw [errorsIn_cons, errors_error, errorsIn_nil]
    omega

theorem floatLiteral_gathers : Gathers doc floatLiteral s fun v => [v] := by
  intro ht
  refine (bump_answers ht).bind ?_
  rintro _ s₁ ⟨rfl, h₁, hpos⟩
  exact runs_tokenText.2 (.pure (h₁.leaf hpos rfl rfl).toAccounts)

theorem regexContent_answers {start : Nat} (h : Encloses doc s₀ [] s) :
    Answers doc s₀ (regexContent start) s fun _ s' => Encloses doc s₀ [] s' := by
  refine runs_source.2 (runs_position.2 (h.bind (orFault_answers _ h.tidy) ?_))
  rintro piece? _ ⟨hpiece, rfl⟩
  cases piece? with
  | none => exact .pure h
  | some piece =>
    refine h.bind (advanceTo_answers _ h.tidy) fun _ s₁ h₁ => ?_
    have hread := Scanner.regex?_spec hpiece
    have hnext := h.jump h₁ fun _ => ⟨hread.cut.2, Nat.le_of_lt hread.lt⟩
    split
    · refine runs_spanFrom.2 (hnext.bind (Silent.silent doc s₁ hnext.tidy) fun _ s₂ h₂ => ?_)
      exact .pure (hnext.then h₂)
    · exact .pure hnext

theorem regexClose_answers (h : Encloses doc s₀ [] s) :
    Answers doc s₀ regexClose s fun _ s' => Encloses doc s₀ [] s' := by
  refine runs_position.2 (runs_source.2 ?_)
  split
  · rename_i hslash
    refine ((advanceTo_answers _ h.tidy).imp_fail fun _ _ => h.upholds.trans).imp fun _ s₁ h₁ => ?_
    exact h.jump h₁ fun _ => ⟨.succ (hasByte_iff.1 hslash) (by decide), Nat.le_succ _⟩
  · exact ((Silent.silent doc s h.tidy).imp_fail fun _ _ => h.upholds.trans).imp
      fun _ s₁ h₁ => h.then h₁

theorem regexLiteral_gathers : Gathers doc regexLiteral s fun v => [v] := by
  intro ht
  refine runs_startOffset.2 ((discard_bump_answers ht).bind fun _ s₁ h₁ => ?_)
  refine h₁.bind (regexContent_answers (Accounts.refl h₁.tidy).encloses) fun content s₂ h₂ => ?_
  refine ((regexClose_answers h₂).imp_fail fun _ _ => h₁.upholds.trans).bind fun _ s₃ h₃ => ?_
  exact runs_spanFrom.2 (.pure (h₁.make (f := .regex (trim content)) h₃ rfl).toAccounts)

/-! ## Operands -/

theorem expression_gathers (he : Deepens doc enter) (power : Nat) :
    Gathers doc (expression enter power) s fun v => [v] :=
  fun ht => (Accounts.refl ht).deeper he fun _ s₁ h₁ hinner =>
    h₁.last (hinner.operators power s₁ h₁.tidy) fun _ _ h => h₁.trans h

/-- A construct without names. -/
theorem Accounts.assembles {f : Form Node} (h : Accounts doc s f.children s₁)
    (hf : f.isOrdinary = true) : Assembles doc s f s₁ :=
  ⟨Form.names_of_isOrdinary hf ▸ h.nameless, Form.isLoose_of_isOrdinary hf⟩

/-- A node over what was read since the token that was ahead. -/
theorem Assembles.make {f : Form Node} (h : Assembles doc s f s₁) :
    Accounts doc s [.make f (.upTo (s.front doc) s₁.pos)] s₁ := h.toMentions.make h.loose

theorem unary_gathers (he : Deepens doc enter) (op : UnaryOp) (power : Nat) :
    Gathers doc (unary enter op power) s fun v => [v] := by
  intro ht
  refine runs_startOffset.2 ((Accounts.refl ht).step fun _ s₁ h₁ => ?_)
  refine h₁.take (expression_gathers he power) fun v s₂ h₂ => ?_
  exact runs_spanFrom.2 (.pure (h₂.make (f := .unary op v) rfl))

theorem moreItems_answers {first : Node} (he : Deepens doc enter) (h : Accounts doc s₀ [first] s) :
    Answers doc s₀ (moreItems enter first) s fun items s' => Accounts doc s₀ items s' := by
  refine .loop Array.toList h fun items s₁ h₁ => h₁.step fun more s₂ h₂ => ?_
  split
  · exact .pure h₂
  refine h₂.step fun start s₃ h₃ => ?_
  split
  · exact .pure h₃
  · exact h₃.bind (expression_gathers he 0 h₃.tidy) fun v _ hv => .pure (h₃.push hv)

/-- What is read in parentheses: the expression itself, or the items of a tuple. -/
def Parenthesized (doc : Document) (start : Nat) (s : State) (v : Node) (s' : State) : Prop :=
  Encloses doc s [v] s' ∨
    ∃ items, v = .make (.tuple items) (.upTo start s'.pos) ∧ Encloses doc s items s'

theorem parenOrTuple_gathers (he : Deepens doc enter) :
    Gathers doc (parenOrTuple enter) s fun v => [v] := by
  intro ht
  refine runs_startOffset.2 ((discard_bump_answers ht).bind fun _ s₁ h₁ => ?_)
  have hinside : Answers doc s₁ (skippingNewlines do
      if ← eat .parenClose then return .make (.tuple []) (← spanFrom (s.front doc))
      let first ← expression enter 0
      if !(← atKind .comma) then
        expect .parenClose "`)`"
        return first
      let items ← moreItems enter first
      expect .parenClose "`)`"
      return .make (.tuple items) (← spanFrom (s.front doc))) s₁
      (Parenthesized doc (s.front doc) s₁) := by
    refine .skippingNewlines (R := Parenthesized doc (s.front doc) s₁.skipping) ?_ fun v s' h => ?_
    · refine (Accounts.refl (s := s₁.skipping) h₁.tidy).step fun closed s₂ h₂ => ?_
      split
      · exact runs_spanFrom.2 (.pure (.inr ⟨[], rfl, h₂.encloses⟩))
      refine h₂.take (expression_gathers he 0) fun first s₃ h₃ => runs_atKind.2 ?_
      split
      · refine h₃.bind (expect_answers _ _ h₃.tidy) fun _ s₄ h₄ => .pure (.inl (h₃.close h₄))
      · refine (moreItems_answers he h₃).bind fun items s₄ h₄ => ?_
        refine h₄.bind (expect_answers _ _ h₄.tidy) fun _ s₅ h₅ => ?_
        exact runs_spanFrom.2 (.pure (.inr ⟨items, rfl, h₄.close h₅⟩))
    · rcases h with h | ⟨items, heq, h⟩
      · exact ⟨h.upholds, h.skip, fun n hn => .inl (h.renest hn)⟩
      · exact ⟨h.upholds, h.skip, fun n hn => .inr ⟨items, heq, h.renest hn⟩⟩
  refine (hinside.imp_fail fun _ _ => h₁.upholds.trans).imp fun v s' h => ?_
  rcases h with h | ⟨items, rfl, h⟩
  · exact h₁.around h.toExplains (h₁.inside h)
  · exact (h₁.make (f := .tuple items) h rfl).toAccounts

/-- A round of a loop over nodes. -/
abbrev NodeRound (doc : Document) (s : State) : Round (Array Node) (List Node) → State → Prop :=
  Next (fun xs => Accounts doc s xs.toList) (Accounts doc s)

theorem listRound_answers {items : Array Node} (hinner : inner.Honest doc)
    (h : Accounts doc s₀ items.toList s) :
    Answers doc s₀ (listRound inner items) s (NodeRound doc s₀) := by
  refine h.step fun done s₁ h₁ => ?_
  split
  · exact .pure h₁
  refine h₁.step fun _ s₂ h₂ => h₂.step fun start s₃ h₃ => ?_
  split
  · exact h₃.bind (forceAdvance_gathers _ h₃.tidy) fun v _ hv => .pure (h₃.push hv)
  · refine h₃.bind (hinner.expression 0 s₃ h₃.tidy) fun v s₄ hv => ?_
    refine (h₃.push hv).step fun comma s₅ h₅ => ?_
    split
    · exact .pure h₅
    · exact .pure h₅

theorem listLiteral_gathers (he : Deepens doc enter) :
    Gathers doc (listLiteral enter) s fun v => [v] :=
  (bracketed_frames he (fun _ _ hinner ht => .loop Array.toList (.refl ht)
    fun _ _ h => listRound_answers hinner h) fun _ => rfl).gathers

/-! ### Dicts and arguments -/

/-- The name in a key. -/
def keyNames : DictKey Node → List Name
  | .name name => [name]
  | _ => []

theorem names_dictEntry (key : DictKey Node) (value : Option Node) :
    (Form.dictEntry key value).names = keyNames key := by
  cases key <;> rfl

theorem dictKey?_answers (hinner : inner.Honest doc) (ht : s.Tidy) :
    Answers doc s (dictKey? inner) s fun key? s' =>
      Mentions doc s (key?.elim [] keyNodes) (key?.elim [] keyNames) s' := by
  refine runs_currentKind.2 ?_
  split
  · exact (bump_picks ht).bind fun t s₁ h₁ => runs_tokenText.2 (.pure h₁)
  split
  · refine (Accounts.refl ht).step fun _ s₁ h₁ => h₁.take (hinner.expression 0 s₁) fun v s₂ h₂ => ?_
    exact h₂.step fun _ s₃ h₃ => .pure h₃.nameless
  split
  · rename_i hquote
    exact (hinner.stringLiteral s hquote ht).bind fun v s₁ h₁ => .pure h₁.nameless
  · exact .pure (Accounts.refl ht).nameless

theorem afterEaten?_gathers {kind : TokenKind} {p : Parser Node}
    (hp : ∀ s', Gathers doc p s' fun v => [v]) :
    Gathers doc (afterEaten? kind p) s Option.toList := by
  refine fun ht => (Accounts.refl ht).step fun eaten s₁ h₁ => ?_
  split
  · exact h₁.last ((hp s₁).present h₁.tidy) fun _ _ h => h₁.trans h
  · exact .pure h₁

theorem dictRound_answers {entries : Array Node} (hinner : inner.Honest doc)
    (h : Accounts doc s₀ entries.toList s) :
    Answers doc s₀ (dictRound inner entries) s (NodeRound doc s₀) := by
  refine h.step fun done s₁ h₁ => ?_
  split
  · exact .pure h₁
  refine h₁.step fun _ s₂ h₂ => runs_startOffset.2 ?_
  refine h₂.bind (dictKey?_answers hinner h₂.tidy) fun key? s₃ hkey => ?_
  cases key? with
  | none =>
    have h₃ := h₂.then hkey.toAccounts
    exact h₃.bind (forceAdvance_gathers _ h₃.tidy) fun v _ hv => .pure (h₃.push hv)
  | some key =>
    refine (h₂.trans hkey.toAccounts).bind (afterEaten?_gathers (hinner.expression 0) hkey.tidy)
      fun value s₄ hvalue => runs_spanFrom.2 ?_
    have hall := hkey.trans hvalue.nameless
    have hentry : Assembles doc s₂ (.dictEntry key value) s₄ := by
      refine ⟨?_, rfl⟩
      rw [children_dictEntry, names_dictEntry, ← List.append_nil (keyNames key)]
      exact hall
    refine (h₂.push hentry.make).step fun comma s₅ h₅ => ?_
    split
    · exact .pure h₅
    · exact .pure h₅

theorem dictLiteral_gathers (he : Deepens doc enter) :
    Gathers doc (dictLiteral enter) s fun v => [v] :=
  (bracketed_frames he (fun _ _ hinner ht => .loop Array.toList (.refl ht)
    fun _ _ h => dictRound_answers hinner h) fun _ => rfl).gathers

theorem namedArg_gathers (hinner : inner.Honest doc) :
    Gathers doc (namedArg inner) s fun v => [v] := by
  refine fun ht => runs_startOffset.2 ((bump_picks ht).bind fun t s₁ h₁ => ?_)
  refine h₁.step fun _ s₂ h₂ => h₂.take (hinner.expression 0 s₂) fun v s₃ h₃ => ?_
  exact runs_tokenText.2 (runs_spanFrom.2 (.pure (h₃.make (f := .namedArg _ v) rfl)))

/-- The arguments that were read. -/
def Arguments.nodes (args : Arguments) : List Node := args.positional.toList ++ args.named.toList

/-- A node that is put in front of others. -/
theorem perm_insert (xs ys : List Node) (v : Node) :
    (xs ++ ([v] ++ ys)).Perm (xs ++ ys ++ [v]) := by
  rw [List.append_assoc]
  exact List.Perm.append_left xs List.perm_append_comm

/-- One positional argument more. -/
theorem Accounts.pushPositional {args : Arguments} {v : Node} (h : Accounts doc s₀ args.nodes s)
    (h' : Accounts doc s [v] s₁) :
    Accounts doc s₀ { args with positional := args.positional.push v : Arguments }.nodes s₁ := by
  refine (h.trans h').perm ?_
  have := perm_insert args.positional.toList args.named.toList v
  simpa [Arguments.nodes] using this

theorem Accounts.pushNamed {args : Arguments} {v : Node} (h : Accounts doc s₀ args.nodes s)
    (h' : Accounts doc s [v] s₁) :
    Accounts doc s₀ { args with named := args.named.push v : Arguments }.nodes s₁ := by
  have := h.trans h'
  rwa [Arguments.nodes, List.append_assoc, ← Array.toList_push] at this

theorem argument_answers {args : Arguments} (hinner : inner.Honest doc)
    (h : Accounts doc s₀ args.nodes s) :
    Answers doc s₀ (argument inner args) s fun args' s' => Accounts doc s₀ args'.nodes s' := by
  refine h.step fun kind s₁ h₁ => h₁.step fun next s₂ h₂ => ?_
  split
  · exact h₂.bind (namedArg_gathers hinner h₂.tidy) fun v _ hv => .pure (h₂.pushNamed hv)
  refine h₂.step fun start s₃ h₃ => ?_
  split
  · exact h₃.bind (hinner.expression 0 s₃ h₃.tidy) fun v _ hv => .pure (h₃.pushPositional hv)
  · exact h₃.bind (forceAdvance_gathers _ h₃.tidy) fun v _ hv => .pure (h₃.pushPositional hv)

theorem argRound_answers {args : Arguments} (hinner : inner.Honest doc)
    (h : Accounts doc s₀ args.nodes s) :
    Answers doc s₀ (argRound inner args) s (Next (fun args s' => Accounts doc s₀ args.nodes s')
      fun args s' => Accounts doc s₀ args.nodes s') := by
  refine h.step fun _ s₁ h₁ => h₁.step fun before s₂ h₂ => h₂.step fun kind s₃ h₃ =>
    h₃.step fun done s₄ h₄ => ?_
  split
  · exact .pure h₄
  split
  · exact h₄.step fun _ _ h₅ => .pure h₅
  refine (argument_answers hinner h₄).bind fun args' s₅ h₅ => h₅.step fun i s₆ h₆ => ?_
  split
  · exact h₆.bind (forceAdvance_gathers _ h₆.tidy) fun v _ hv => .pure (h₆.pushPositional hv)
  · exact .pure h₆

theorem argList_gathers (he : Deepens doc enter) :
    Gathers doc (argList enter) s fun v => [v] :=
  (bracketed_frames he (fun _ _ hinner ht => .loop Arguments.nodes (.refl ht)
    fun _ _ h => argRound_answers hinner h) fun _ => rfl).gathers

/-! ### All operands -/

theorem nameOperand_gathers (he : Deepens doc enter) :
    Gathers doc (nameOperand enter) s fun v => [v] := by
  refine fun ht => runs_current.2 (runs_tokenText.2 ?_)
  split
  · exact unary_gathers he _ _ ht
  · refine (discard_bump_stops ht).bind fun _ s₁ ⟨h₁, hpos⟩ => .pure ?_
    split <;> exact (h₁.leaf hpos rfl rfl).toAccounts

theorem operand_gathers (he : Deepens doc enter) : Gathers doc (operand enter) s fun v => [v] := by
  intro ht
  refine runs_currentKind.2 ?_
  split
  · exact intLiteral_gathers ht
  · exact floatLiteral_gathers ht
  · exact nameOperand_gathers he ht
  · exact parenOrTuple_gathers he ht
  · exact listLiteral_gathers he ht
  · exact dictLiteral_gathers he ht
  · exact regexLiteral_gathers ht
  · exact unary_gathers he _ _ ht
  · exact unary_gathers he _ _ ht
  · exact unary_gathers he _ _ ht
  · exact unary_gathers he _ _ ht
  · exact unary_gathers he _ _ ht
  split
  · rename_i hquote
    exact (stringLiteral_frames he hquote).gathers ht
  · refine (substitution?_answers he ht).bind fun sub? s₁ h₁ => ?_
    cases sub? with
    | some v => exact .pure h₁.toAccounts
    | none =>
      obtain rfl : s₁ = s := h₁
      exact missing_gathers _ ht

/-! ## Operators -/

theorem subscriptIndex_gathers (he : Deepens doc enter) :
    Gathers doc (subscriptIndex enter) s fun v => [v] := by
  intro ht
  refine runs_startOffset.2 ((expression_gathers he 0 ht).bind fun index s₁ h₁ => ?_)
  refine h₁.step fun colon s₂ h₂ => ?_
  split
  · exact .pure h₂
  refine h₂.step fun more s₃ h₃ => ?_
  split
  · exact .pure h₃
  · refine h₃.take (expression_gathers he 0) fun last s₄ h₄ => ?_
    exact runs_spanFrom.2 (.pure (h₄.make (f := .range .exclusive index last) rfl))

instance : Silent eatComparison? where
  silent doc s ht := by
    refine comparison?_runs.bind ?_
    rintro found _ ⟨rfl, -⟩
    cases found with
    | none => exact .pure (.refl ht)
    | some found => exact (Accounts.refl ht).step fun _ _ h => .pure h

theorem comparisonRound_answers {ops : Array CompareOp} {operands : Array Node}
    (he : Deepens doc enter) (h : Accounts doc s₀ operands.toList s) :
    Answers doc s₀ (do
      match ← eatComparison? with
      | some op => return .again (ops.push op, operands.push (← expression enter comparePower))
      | none => return .finish (.compare ops.toList operands.toList)) s
      (Next (fun r s' => Accounts doc s₀ r.2.toList s') (Assembles doc s₀)) := by
  refine h.step fun op? s₁ h₁ => ?_
  cases op? with
  | none => exact .pure (h₁.assembles rfl)
  | some op => exact h₁.bind (expression_gathers he _ h₁.tidy) fun v _ hv => .pure (h₁.push hv)

theorem comparisonChain_answers {first : Node} (he : Deepens doc enter)
    (h : Accounts doc s₀ [first] s) :
    Answers doc s₀ (comparisonChain enter first) s (Assembles doc s₀) :=
  .loop (fun r => r.2.toList) h fun _ _ h => comparisonRound_answers he h

theorem elseOperand_gathers (he : Deepens doc enter) :
    Gathers doc (elseOperand enter) s fun v => [v] := by
  refine fun ht => (Accounts.refl ht).step fun found s₁ h₁ => ?_
  split
  · exact h₁.last (expression_gathers he _ h₁.tidy) fun _ _ h => h₁.trans h
  · exact h₁.last (missing_gathers _ h₁.tidy) fun _ _ h => h₁.trans h

/-- One operator is folded around the operand on its left. -/
theorem foldOperator_answers {op : Infix} {lhs : Node} (he : Deepens doc enter)
    (h : Accounts doc s₀ [lhs] s) :
    Answers doc s₀ (foldOperator enter op lhs) s (Assembles doc s₀) := by
  unfold foldOperator
  split
  · exact h.take (argList_gathers he) fun args s₁ h₁ => .pure (h₁.assembles rfl)
  · refine h.bind (discard_bump_answers h.tidy) fun _ s₁ h₁ => ?_
    refine (h.append h₁.toExplains).bind (closedBy_answers (fun _ => subscriptIndex_gathers he)
      h₁.tidy) fun index s₂ h₂ => .pure (Accounts.assembles ?_ rfl)
    exact h.trans (h₁.around h₂.toExplains (h₁.inside h₂))
  · exact h.step fun _ s₁ h₁ =>
      h₁.nameless.read (identName_picks _) fun name s₂ h₂ => .pure ⟨h₂, rfl⟩
  · exact h.step fun _ s₁ h₁ =>
      h₁.take (expression_gathers he _) fun rhs s₂ h₂ => .pure (h₂.assembles rfl)
  · exact comparisonChain_answers he h
  · refine h.step fun _ s₁ h₁ => h₁.take (expression_gathers he _) fun condition s₂ h₂ => ?_
    exact h₂.take (elseOperand_gathers he) fun value s₃ h₃ => .pure (h₃.assembles rfl)
  · exact h.step fun _ s₁ h₁ =>
      h₁.take (expression_gathers he _) fun last s₂ h₂ => .pure (h₂.assembles rfl)

theorem operatorRound_answers {power : Nat} {r : Node × Nat} (he : Deepens doc enter)
    (h : Accounts doc s₀ [r.1] s) :
    Answers doc s₀ (operatorRound enter power (s₀.front doc) r.1 r.2) s
      (Next (fun r s' => Accounts doc s₀ [r.1] s') fun r s' => Accounts doc s₀ [r.1] s') := by
  refine infixOp?_runs.bind ?_
  rintro op? _ ⟨rfl, -⟩
  cases op? with
  | none => exact .pure h
  | some op =>
    simp only
    split
    · exact .pure h
    · refine h.step fun _ s₁ h₁ => (foldOperator_answers he h₁).bind fun form s₂ h₂ => ?_
      exact runs_spanFrom.2 (.pure h₂.make)

theorem operators_gathers (he : Deepens doc enter) (power : Nat) :
    Gathers doc (operators enter power) s fun v => [v] := by
  refine fun ht => runs_startOffset.2 ((operand_gathers he ht).bind fun first s₁ h₁ => ?_)
  refine (Answers.loop (fun r : Node × Nat => [r.1]) h₁
    fun r s₂ h₂ => operatorRound_answers he h₂).bind fun r s₂ h₂ => ?_
  exact h₂.step fun _ s₃ h₃ => h₃.step fun _ s₄ h₄ => .pure h₄

/-! ## Around expressions -/

theorem exprOrTuple_gathers (he : Deepens doc enter) :
    Gathers doc (exprOrTuple enter) s fun v => [v] := by
  refine fun ht => runs_startOffset.2 ((expression_gathers he 0 ht).bind fun first s₁ h₁ => ?_)
  refine runs_atKind.2 ?_
  split
  · exact .pure h₁
  · refine (moreItems_answers he h₁).bind fun items s₂ h₂ => ?_
    exact runs_spanFrom.2 (.pure (h₂.make (f := .tuple items) rfl))

theorem parenExpr_gathers (hinner : inner.Honest doc) :
    Gathers doc (parenExpr inner) s fun v => [v] := by
  refine fun ht => (discard_bump_answers ht).bind fun _ s₁ h₁ => ?_
  refine ((closedBy_answers (hinner.expression 0) h₁.tidy).imp_fail fun _ _ =>
    h₁.upholds.trans).imp fun v s₂ h₂ => ?_
  exact h₁.around h₂.toExplains (h₁.inside h₂)

end

end ShellAnalysis.Parse
