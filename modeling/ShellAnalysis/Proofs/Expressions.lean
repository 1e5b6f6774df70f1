import ShellAnalysis.Proofs.Words

/-!
# Expressions

The promises of `expression` and `operators`.  An operand is read first; what
is folded around it starts where it does, so every round of `operators` keeps
one node from the start to what is consumed.

Arguments are the one construct here whose fields are not in the order of the
text: a named argument may stand before a positional one.  `Filed` says how the
fields lie in the row that was read.
-/

namespace ShellAnalysis.Parse

open Text Node

/-! ## What is ahead -/

section

variable {doc : Document} {s s' : State}

theorem second_congr (hpos : s'.pos = s.pos)
    (hskip : s'.nesting.newlineSkip = s.nesting.newlineSkip) : s'.second doc = s.second doc := by
  unfold State.second
  rw [ahead_congr hpos hskip, hskip]

/-- Behind a token that is no newline comes the second one. -/
theorem Bumped.ahead_eq (h : Bumped doc s s') (hk : (s.ahead doc).kind ≠ .newline) :
    s'.ahead doc = s.second doc := by
  unfold State.ahead State.second
  rw [(h.advanced hk).pos, h.skip]

/-- The current token starts a comparison. -/
def AtComparison (doc : Document) (s : State) : Prop :=
  (s.ahead doc).kind = .ident ∧ ((s.ahead doc).text doc.text = "in" ∨
    (s.ahead doc).text doc.text = "is" ∨
    (s.ahead doc).text doc.text = "not" ∧ (s.second doc).isWord doc.text "in" = true) ∨
  (s.ahead doc).kind ≠ .ident ∧ (compareOfKind? (s.ahead doc).kind).isSome = true

theorem AtComparison.congr (h : AtComparison doc s) (hpos : s'.pos = s.pos)
    (hskip : s'.nesting.newlineSkip = s.nesting.newlineSkip) : AtComparison doc s' := by
  unfold AtComparison
  rw [ahead_congr hpos hskip, second_congr hpos hskip]
  exact h

theorem runs_peekIsWord {β : Type} {fail : Stopped → State → Prop} {word : String}
    {f : Bool → Parser β} {Q : β → State → Prop} :
    Runs doc fail (peekIsWord word >>= f) s Q ↔
      Runs doc fail (f ((s.second doc).isWord doc.text word)) s Q := Iff.rfl

instance (word : String) : Looking (peekIsWord word) := ⟨fun _ _ => ⟨_, rfl⟩⟩

/-- An operator is not the end of the text, and a comparison is one. -/
theorem infixOp?_runs {fail : Stopped → State → Prop} :
    Runs doc fail infixOp? s fun op? s' => s' = s ∧ ∀ op, op? = some op →
      (s.ahead doc).kind ≠ .eof ∧ (op = .compare → AtComparison doc s) := by
  unfold infixOp?
  rw [runs_current]
  split
  · rename_i hk
    exact .look (fun _ _ => ⟨_, rfl⟩) fun b _ => ⟨rfl, by cases b <;> simp [hk]⟩
  · rename_i hk
    exact .look (fun _ _ => ⟨_, rfl⟩) fun b _ => ⟨rfl, by cases b <;> simp [hk]⟩
  · rename_i hk
    exact .pure ⟨rfl, by simp [hk]⟩
  · rename_i hk
    exact .pure ⟨rfl, by simp [hk]⟩
  · rename_i hk
    exact .pure ⟨rfl, by simp [hk]⟩
  · rename_i hk
    exact .pure ⟨rfl, by simp [hk]⟩
  · rename_i hk
    exact .pure ⟨rfl, by simp [hk]⟩
  · rename_i hk
    exact .pure ⟨rfl, by simp [hk]⟩
  · rename_i hk
    rw [runs_tokenText]
    split
    · exact .pure ⟨rfl, by simp [hk]⟩
    · exact .pure ⟨rfl, by simp [hk]⟩
    · rename_i htext
      exact .pure ⟨rfl, fun _ _ => ⟨by simp [hk], fun _ => .inl ⟨hk, .inl htext⟩⟩⟩
    · rename_i htext
      exact .pure ⟨rfl, fun _ _ => ⟨by simp [hk], fun _ => .inl ⟨hk, .inr (.inl htext)⟩⟩⟩
    · rename_i htext
      rw [runs_peekIsWord]
      split
      · rename_i hin
        exact .pure ⟨rfl, fun _ _ => ⟨by simp [hk], fun _ => .inl ⟨hk, .inr (.inr ⟨htext, hin⟩)⟩⟩⟩
      · exact .pure ⟨rfl, by simp⟩
    · exact .pure ⟨rfl, by simp [hk]⟩
    · exact .pure ⟨rfl, by simp⟩
  · rename_i hident
    split
    · rename_i op hop
      refine .pure ⟨rfl, fun _ _ => ⟨fun heof => ?_, fun hcompare => ?_⟩⟩
      · rw [heof] at hop
        cases hop
      · simp_all
    · refine .pure ⟨rfl, fun op hop => ?_⟩
      obtain ⟨c, hc, -⟩ := Option.map_eq_some_iff.1 hop
      refine ⟨fun heof => ?_, fun _ => .inr ⟨hident, by rw [hc]; rfl⟩⟩
      rw [heof] at hc
      cases hc

/-- A comparison takes one token, or two of which both are names. -/
theorem comparison?_runs {fail : Stopped → State → Prop} :
    Runs doc fail comparison? s fun found s' => s' = s ∧
      (∀ op width, found = some (op, width) → (s.ahead doc).kind ≠ .eof ∧
        (width = 1 ∨ width = 2 ∧ (s.ahead doc).kind = .ident ∧ (s.second doc).kind = .ident)) ∧
      (AtComparison doc s → found.isSome = true) := by
  have hword : ∀ {word : String}, (s.second doc).isWord doc.text word = true →
      (s.second doc).kind = .ident := by
    intro word h
    simp only [Token.isWord, Bool.and_eq_true, beq_iff_eq] at h
    exact h.1
  unfold comparison?
  rw [runs_current]
  split
  · rename_i hk
    have hk := beq_iff_eq.1 hk
    rw [runs_tokenText]
    split
    · exact .pure ⟨rfl, by simp [hk], fun _ => rfl⟩
    · rw [runs_peekIsWord]
      split
      · rename_i hnot
        exact .pure ⟨rfl, by simp [hk, hword hnot], fun _ => rfl⟩
      · exact .pure ⟨rfl, by simp [hk], fun _ => rfl⟩
    · rename_i htext
      rw [runs_peekIsWord]
      split
      · rename_i hin
        exact .pure ⟨rfl, by simp [hk, hword hin], fun _ => rfl⟩
      · rename_i hin
        refine .pure ⟨rfl, by simp, ?_⟩
        simp [AtComparison, hk, htext, hin]
    · rename_i h1 h2 h3
      refine .pure ⟨rfl, by simp, ?_⟩
      rintro (⟨-, h | h | h⟩ | ⟨h, -⟩)
      · exact absurd h h1
      · exact absurd h h2
      · exact absurd h.1 h3
      · exact absurd hk h
  · rename_i hk
    refine .pure ⟨rfl, fun op width hfound => ?_, fun hat => ?_⟩
    · obtain ⟨c, hc, heq⟩ := Option.map_eq_some_iff.1 hfound
      cases heq
      refine ⟨fun heof => ?_, .inl rfl⟩
      rw [heof] at hc
      cases hc
    · rcases hat with ⟨hident, -⟩ | ⟨-, hsome⟩
      · exact absurd (beq_iff_eq.2 hident) hk
      · simpa using hsome

/-- A comparison is consumed where one starts. -/
theorem eatComparison?_runs (hv : Valid doc s) :
    Runs doc (Aborts doc s) eatComparison? s fun op? s' =>
      Moves doc s s' ∧ (op?.isSome = true → s.pos < s'.pos) ∧
        (AtComparison doc s → op?.isSome = true) := by
  unfold eatComparison?
  refine comparison?_runs.bind fun found s' h => ?_
  obtain ⟨rfl, hfound, hat⟩ := h
  split
  · exact .pure ⟨.refl hv, by simp, hat⟩
  · rename_i op width
    obtain ⟨hk, hwidth⟩ := hfound op width rfl
    refine Runs.bind (R := fun _ s₂ => Moves doc s' s₂ ∧ s'.pos < s₂.pos) ?_ fun _ s₂ h₂ =>
      .pure ⟨h₂.1, fun _ => h₂.2, fun _ => rfl⟩
    rcases hwidth with rfl | ⟨rfl, hident, hsecond⟩
    · exact (discard_bump_runs hv hk).bind fun _ s₁ h₁ => .pure ⟨h₁.toMoves, h₁.pos_lt hv⟩
    · refine (discard_bump_runs hv hk).bind fun _ s₁ h₁ => ?_
      have hkind : (s₁.ahead doc).kind ≠ .eof := by
        rw [h₁.ahead_eq (by rw [hident]; decide), hsecond]
        decide
      refine ((discard_bump_runs h₁.valid hkind).imp_fail fun _ _ => .rebase h₁.toKeeps).bind
        fun _ s₂ h₂ => ?_
      exact .pure ⟨h₁.toMoves.trans h₂.toMoves, Nat.lt_of_lt_of_le (h₁.pos_lt hv) h₂.pos_le⟩

theorem runs_atExprStart {β : Type} {fail : Stopped → State → Prop}
    {f : Bool → Parser β} {Q : β → State → Prop} :
    Runs doc fail (atExprStart >>= f) s Q ↔ Runs doc fail (f (s.opens doc)) s Q := Iff.rfl

instance : Looking atExprStart := ⟨fun _ _ => ⟨_, rfl⟩⟩

theorem opens_of_ident (hk : (s.ahead doc).kind = .ident) : s.opens doc = true := by
  unfold State.opens State.closes
  rw [hk]
  rfl

end

/-! ## Literals -/

section

variable {doc : Document} {s : State}

theorem intLiteral_runs (hv : Valid doc s) (hk : (s.ahead doc).kind ≠ .eof) :
    Runs doc (Fails doc s) intLiteral s fun v s' =>
      Yields doc .final s [v] s' ∧ s.pos < s'.pos := by
  unfold intLiteral
  refine ((bump_runs hv hk).stepIn (.refl s)).bind fun t s₁ h₁ => ?_
  obtain ⟨rfl, h₁⟩ := h₁
  rw [runs_tokenText]
  split
  · exact .pure ⟨h₁.leaf hv rfl rfl (by simp [Form.names]), h₁.pos_lt hv⟩
  · refine (report_runs h₁.valid (Diagnostic.fair_syntaxError hv.ahead.cut)).bind
      fun _ s₂ h₂ => ?_
    exact .pure ⟨(h₁.error hv).step h₂.moves, h₂.pos ▸ h₁.pos_lt hv⟩

theorem floatLiteral_runs (hv : Valid doc s) (hk : (s.ahead doc).kind ≠ .eof) :
    Runs doc (Fails doc s) floatLiteral s fun v s' =>
      Yields doc .final s [v] s' ∧ s.pos < s'.pos := by
  unfold floatLiteral
  refine ((bump_runs hv hk).stepIn (.refl s)).bind fun t s₁ h₁ => ?_
  obtain ⟨rfl, h₁⟩ := h₁
  rw [runs_tokenText]
  exact .pure ⟨h₁.leaf hv rfl rfl (by simp [Form.names]), h₁.pos_lt hv⟩

theorem regexContent_runs {start : Nat} (hv : Valid doc s) (hstart : Boundary doc.text start) :
    Runs doc (Aborts doc s) (regexContent start) s fun _ s' => Drifts doc s s' := by
  obtain ⟨found, hfound⟩ := Scanner.exists_regex? hv.boundary
  unfold regexContent
  rw [runs_source, runs_position, hfound, runs_orFault]
  cases found with
  | none => exact .pure (Moves.refl hv).toDrifts
  | some piece =>
    have hread := Scanner.regex?_spec hfound
    refine (advance_runs hv hread.cut.2 hread.lt).bind fun _ s₁ h₁ => ?_
    split
    · rw [runs_spanFrom]
      have hcut := cut_upTo hstart h₁.valid.boundary
      refine (report_runs h₁.valid (Diagnostic.fair_lexical hcut)).bind fun _ s₂ h₂ => ?_
      exact .pure (h₁.toDrifts.trans h₂.moves.toDrifts)
    · exact .pure h₁.toDrifts

theorem regexClose_runs (hv : Valid doc s) :
    Runs doc (Aborts doc s) regexClose s fun _ s' => Drifts doc s s' := by
  unfold regexClose
  rw [runs_position, runs_source]
  split
  · rename_i hslash
    have hb := hasByte_iff.1 hslash
    exact (advance_runs hv (.succ hb (by decide)) (Nat.lt_succ_self _)).imp fun _ _ h => h.toDrifts
  · exact (reportExpected_runs hv).imp fun _ _ h => h.moves.toDrifts

theorem regexLiteral_runs (hv : Valid doc s) (hk : (s.ahead doc).kind ≠ .eof) :
    Runs doc (Fails doc s) regexLiteral s fun v s' =>
      Yields doc .final s [v] s' ∧ s.pos < s'.pos := by
  unfold regexLiteral
  rw [runs_startOffset]
  refine ((discard_bump_runs hv hk).stepIn (.refl s)).bind fun _ s₁ h₁ => ?_
  refine ((regexContent_runs h₁.valid hv.front_boundary).stepIn h₁.toKeeps).bind
    fun content s₂ h₂ => ?_
  have hkeeps := h₁.toKeeps.trans h₂.toKeeps
  refine ((regexClose_runs h₂.valid).stepIn hkeeps).bind fun _ s₃ h₃ => ?_
  rw [runs_spanFrom]
  have hdrifts := h₂.trans h₃
  have hlt := Nat.lt_of_lt_of_le (h₁.pos_lt hv) hdrifts.pos_le
  exact .pure ⟨(h₁.toMoves.drift (h₁.pos_lt hv) hdrifts).made hlt hv .nil rfl (by simp [Form.names]), hlt⟩

end

/-! ## Operands -/

section

variable {doc : Document} {s s₁ : State} {d : Nat} {enter : Parser Grammar} {g : Grammar}

/-- The node of an expression, which consumes something where one starts. -/
def Valued (doc : Document) (s : State) (v : Node) (s' : State) : Prop :=
  Yields doc .final s [v] s' ∧ (s.opens doc = true → s.pos < s'.pos)

theorem expression_runs {power : Nat} (he : Enters doc d enter) (hv : Valid doc s)
    (hd : s.nesting.depth = d) :
    Runs doc (Fails doc s) (expression enter power) s (Valued doc s) := by
  unfold expression
  refine (he hv hd).bind fun g s₁ h₁ => ?_
  obtain ⟨hg, rfl⟩ := h₁
  exact hg.operators power hv (congrArg (· + 1) hd)

theorem unary_runs {op : UnaryOp} {power : Nat} (he : Enters doc d enter) (hv : Valid doc s)
    (hd : s.nesting.depth = d) (hk : (s.ahead doc).kind ≠ .eof) :
    Runs doc (Fails doc s) (unary enter op power) s fun v s' =>
      Yields doc .final s [v] s' ∧ s.pos < s'.pos := by
  unfold unary
  rw [runs_startOffset]
  refine ((discard_bump_runs hv hk).stepIn (.refl s)).bind fun _ s₁ h₁ => ?_
  refine ((expression_runs he h₁.valid (h₁.depth.trans hd)).inside h₁.toMoves).bind
    fun v s₂ h₂ => ?_
  rw [runs_spanFrom]
  exact .pure (h₁.made hv h₂.1 rfl (by simp [Form.names]))

/-- Items after the first one; a comma is consumed if one comes next. -/
theorem moreItems_runs {first : Node} (he : Enters doc d enter) (hd : s.nesting.depth = d)
    (hy : Yields doc .final s [first] s₁) :
    Runs doc (Fails doc s) (moreItems enter first) s₁ fun items s' =>
      Yields doc .final s items s' ∧ ((s₁.ahead doc).kind = .comma → s₁.pos < s'.pos) := by
  refine Runs.repeatRounds (fun items s₂ => Yields doc .final s items.toList s₂ ∧
    (s₂ = s₁ ∨ s₁.pos < s₂.pos)) (fun _ _ h => h.1.valid.le_size) ⟨hy, .inl rfl⟩
    fun items s₂ h₂ => ?_
  obtain ⟨hy₂, hpos⟩ := h₂
  refine ((eat_runs hy₂.valid (by decide)).stepIn hy₂.toKeeps).bind fun eaten s₃ h₃ => ?_
  cases eaten with
  | false =>
    obtain ⟨hne, rfl⟩ := h₃
    refine .pure ⟨hy₂, fun hcomma => hpos.resolve_left fun heq => ?_⟩
    rw [heq] at hne
    exact hne hcomma
  | true =>
    obtain ⟨-, h₃⟩ := h₃
    have hy₃ := hy₂.step h₃.toMoves
    have hlt : s₁.pos < s₃.pos := by
      have := h₃.pos_lt hy₂.valid
      rcases hpos with rfl | hpos <;> omega
    rw [if_neg (by simp), runs_atExprStart]
    split
    · exact .pure ⟨hy₃, fun _ => hlt⟩
    · refine ((expression_runs he hy₃.valid (hy₃.depth.trans hd)).inside hy₃.toMoves).bind
        fun v s₄ h₄ => ?_
      have hle := h₄.1.pos_le
      have hlt₃ := h₃.pos_lt hy₂.valid
      exact .pure ⟨⟨hy₃.push h₄.1, .inr (by omega)⟩, by omega⟩

theorem parenOrTuple_runs (he : Enters doc d enter) (hv : Valid doc s) (hd : s.nesting.depth = d)
    (hk : (s.ahead doc).kind ≠ .eof) :
    Runs doc (Fails doc s) (parenOrTuple enter) s fun v s' =>
      Yields doc .final s [v] s' ∧ s.pos < s'.pos := by
  unfold parenOrTuple
  rw [runs_startOffset]
  refine ((discard_bump_runs hv hk).stepIn (.refl s)).bind fun _ s₁ h₁ => ?_
  have hlt := h₁.pos_lt hv
  refine (Runs.begun (skippingNewlines_runs (R := fun v s' => Laid doc .final s [v] s' ∧ ¬ v.IsBody)
    ?_) h₁.toMoves hlt).imp fun v s' h => ?_
  · have hv₁ : Valid doc s₁.skipping := h₁.valid.nest _
    have hd₁ : s₁.skipping.nesting.depth = d := h₁.depth.trans hd
    have hfront := Nat.le_of_lt h₁.front_lt
    -- A tuple starts at the parenthesis, so it is laid from there.
    have htuple : ∀ {items s₂}, Yields doc .final s₁.skipping items s₂ →
        Laid doc .final s [.make (.tuple items) (.upTo (s.front doc) s₂.pos)] s₂ := by
      intro items s₂ hy
      refine Laid.make (f := .tuple items) ?_ rfl (by simp [Form.names]) hy.valid hv.front_boundary
        hv.pos_le_front (Nat.le_trans hfront hy.pos_le)
      exact (show Laid doc .final s₁ items s₂ from hy.laid).after h₁.toDrifts
    refine ((eat_runs hv₁ (by decide)).stepOn (.refl _)).bind fun eaten s₂ h₂ => ?_
    have hm₂ := h₂.moves hv₁
    split
    · rw [runs_spanFrom]
      exact .pure ⟨hm₂.toDrifts, htuple hm₂.yields, id⟩
    · refine ((expression_runs he hm₂.valid (hm₂.depth.trans hd₁)).along hm₂.toDrifts).bind
        fun first s₃ h₃ => ?_
      have hy₃ := h₃.1.after hm₂
      rw [runs_atKind]
      split
      · refine ((expect_moves hy₃.valid (by decide)).stepOn hy₃.toKeeps).bind fun _ s₄ h₄ => ?_
        refine .pure ⟨hy₃.toDrifts.trans h₄.toDrifts, ?_, hy₃.firm first (by simp)⟩
        have hl := hy₃.laid.until_drift h₄.toDrifts
        exact (show Laid doc .final s₁ [first] s₄ from hl).after h₁.toDrifts
      · refine ((moreItems_runs he hd₁ hy₃).imp_fail fun _ _ => Fails.strays).bind
          fun items s₄ h₄ => ?_
        refine ((expect_moves h₄.1.valid (by decide)).stepOn h₄.1.toKeeps).bind fun _ s₅ h₅ => ?_
        rw [runs_spanFrom]
        have hy₅ := h₄.1.step h₅
        exact .pure ⟨hy₅.toDrifts, htuple hy₅, id⟩
  · obtain ⟨hd, hl, hfirm⟩ := h
    exact ⟨⟨h₁.toMoves.drift hlt hd, hl, by simpa using hfirm⟩, Nat.lt_of_lt_of_le hlt hd.pos_le⟩

/-! ### Lists and dicts -/

theorem atListEnd_looks (close : TokenKind) : Looks (atListEnd close) := fun _ _ => ⟨_, rfl⟩

instance (close : TokenKind) : Looking (atListEnd close) := ⟨atListEnd_looks close⟩

/-- Before the end of a list there is a token. -/
theorem ne_eof_of_atListEnd {close : TokenKind} (h : atListEnd close doc s = .ok false s) :
    (s.ahead doc).kind ≠ .eof := by
  intro heof
  have h : EStateM.Result.ok ((s.ahead doc).kind == close || (s.ahead doc).kind == .eof ||
    s.closes doc) s = (.ok false s : EStateM.Result Stopped _ _) := h
  rw [heof] at h
  simp at h

/-- One round of a bracketed list, and the way on from it. -/
theorem countRound_runs {items : List Node} (h : Parts doc s items s₁.charge) :
    Runs doc (Strays doc s) countIteration s₁ fun _ s₂ => s₂ = s₁.charge := by
  have hv := h.valid.of_charge
  exact (countIteration_runs hv).stepOn ⟨h.skip, h.backticks, h.statements⟩

theorem listRound_runs {items : Array Node} (hg : g.Obeys doc d) (hd : s.nesting.depth = d)
    (h : Parts doc s items.toList s₁.charge) :
    Runs doc (Strays doc s) (listRound g items) s₁
      (Goes (fun items s₂ => Parts doc s items.toList s₂.charge) (Parts doc s) s₁) := by
  unfold listRound
  refine .look (atListEnd_looks _) fun atEnd hend => ?_
  split
  · exact .pure h.uncharge
  · rename_i hne
    rw [Bool.not_eq_true] at hne
    subst hne
    refine (countRound_runs h).bind fun _ s₂ h₂ => ?_
    subst h₂
    have hk : (s₁.charge.ahead doc).kind ≠ .eof := ne_eof_of_atListEnd (s := s₁) hend
    rw [runs_atExprStart]
    split
    · refine ((forceAdvance_runs h.valid hk).stepOn h.toKeeps).bind fun v s₂ h₂ => ?_
      obtain ⟨rfl, h₂⟩ := h₂
      have hlt := h₂.pos_lt h.valid
      exact .pure ⟨h.again_push (h₂.error h.valid) hlt, hlt⟩
    · rename_i hopens
      have hopens : s₁.charge.opens doc = true := by simpa using hopens
      refine ((hg.expression 0 h.valid (h.depth.trans hd)).along h.toDrifts).bind
        fun v s₂ h₂ => ?_
      have hlt := h₂.2 hopens
      refine ((eat_runs h₂.1.valid (by decide)).stepOn (h.toKeeps.trans h₂.1.toKeeps)).bind
        fun eaten s₃ h₃ => ?_
      have hy₃ := h₂.1.step (h₃.moves h₂.1.valid)
      have hlt₃ : s₁.charge.pos < s₃.pos := Nat.lt_of_lt_of_le hlt (h₃.moves h₂.1.valid).pos_le
      split
      · exact .pure ⟨h.again_push hy₃ hlt₃, hlt₃⟩
      · exact .pure (h.push hy₃.parts)

theorem listLiteral_runs (he : Enters doc d enter) (hv : Valid doc s) (hd : s.nesting.depth = d)
    (hk : (s.ahead doc).kind ≠ .eof) :
    Runs doc (Fails doc s) (listLiteral enter) s fun v s' =>
      Yields doc .final s [v] s' ∧ s.pos < s'.pos := by
  refine bracketed_yields he hv hd hk (by decide) (fun _ => rfl) (fun _ => rfl)
    fun g s₁ hg hv₁ hd₁ => ?_
  refine (Runs.repeatRounds (fun items s₂ => Parts doc s₁.charge items.toList s₂.charge)
    (fun _ _ h => h.valid.le_size) (.nil hv₁) fun items s₂ h =>
    listRound_runs (s := s₁.charge) hg hd₁ h).imp fun items s₂ h => ?_
  exact ⟨h.toDrifts, h.laid⟩

/-- The node in a dict key. -/
def keyNodes : DictKey Node → List Node
  | .name _ => []
  | .quoted key | .computed key => [key]

theorem children_dictEntry (key : DictKey Node) (value : Option Node) :
    (Form.dictEntry key value).children = keyNodes key ++ value.toList := by
  cases key <;> rfl

/-- A string of one piece of text or none does not start before its quote. -/
theorem not_startsEarly_of_plain {v : Node} {style : StringStyle} {parts : List Node}
    (hform : v.form = .stringLit style parts)
    (hparts : ∀ x ∈ parts, ∃ span text, x = ⟨span, .text text⟩) : ¬ v.StartsEarly := by
  intro hearly
  cases hearly with
  | body hb _ hbody =>
    rw [hform] at hb
    obtain ⟨span, text, rfl⟩ := hparts _ hb
    exact hbody
  | part hc _ hpart =>
    rw [hform] at hc
    obtain ⟨span, text, rfl⟩ := hparts _ hc
    exact not_startsEarly_of_text hpart
  | hollow hcommand =>
    rw [hform] at hcommand
    cases hcommand

/-- The literal key of an entry stands where it was read. -/
theorem le_literalKey {text : String} {lo hi edge : Nat} {held : List Node} {key : DictKey Node}
    (h : Row text lo held hi edge (keyNodes key))
    (hbare : ∀ name, key = .name name → lo ≤ name.span.start) :
    ∀ k ∈ (literalKey? key).toList, lo ≤ k.span.start := by
  have hquoted : ∀ {span : Span} {style : StringStyle} {parts : List Node},
      key = .quoted ⟨span, .stringLit style parts⟩ →
      (∀ x ∈ parts, ∃ span text, x = ⟨span, .text text⟩) → lo ≤ span.start := by
    rintro span style parts rfl hparts
    rcases h.late _ (List.mem_singleton.2 rfl) with hle | ⟨hearly | hbody, -⟩
    · exact hle
    · exact absurd hearly (not_startsEarly_of_plain rfl hparts)
    · exact hbody.elim
  intro k hk
  unfold literalKey? at hk
  split at hk
  · rw [List.mem_singleton.1 hk]
    exact hbare _ rfl
  · rw [List.mem_singleton.1 hk]
    exact hquoted rfl nofun
  · rename_i litSpan style span t
    rw [List.mem_singleton.1 hk]
    have hlit := hquoted rfl fun x hx => ⟨span, t, List.mem_singleton.1 hx⟩
    have hlocal := (h.sound ⟨litSpan, .stringLit style [⟨span, .text t⟩]⟩ List.mem_cons_self).here
    exact Nat.le_trans hlit (hlocal.le_start _ List.mem_cons_self)
  · cases hk

/-- A dict key is read, or the current token starts none. -/
def Keyed (doc : Document) (s : State) : Option (DictKey Node) → State → Prop
  | some key, s' => Yields doc .final s (keyNodes key) s' ∧ s.pos < s'.pos ∧
      ∀ name, key = .name name →
        Cut doc.text name.span ∧ s.front doc ≤ name.span.start ∧ name.span.stop ≤ s'.pos
  | none, s' => s' = s

theorem dictKey?_runs (hg : g.Obeys doc d) (hv : Valid doc s) (hd : s.nesting.depth = d) :
    Runs doc (Fails doc s) (dictKey? g) s (Keyed doc s) := by
  unfold dictKey?
  rw [runs_currentKind]
  split
  · rename_i hk
    have hk := beq_iff_eq.1 hk
    refine ((bump_runs hv (by rw [hk]; decide)).stepIn (.refl s)).bind fun t s₁ h₁ => ?_
    obtain ⟨rfl, h₁⟩ := h₁
    rw [runs_tokenText]
    refine .pure ⟨h₁.toMoves.yields, h₁.pos_lt hv, ?_⟩
    rintro _ ⟨⟩
    exact ⟨hv.ahead.cut, Nat.le_refl _, h₁.stop_le⟩
  split
  · rename_i hk
    have hk := beq_iff_eq.1 hk
    refine ((discard_bump_runs hv (by rw [hk]; decide)).stepIn (.refl s)).bind fun _ s₁ h₁ => ?_
    refine ((hg.expression 0 h₁.valid (h₁.depth.trans hd)).inside h₁.toMoves).bind
      fun v s₂ h₂ => ?_
    have hy₂ := h₂.1.after h₁.toMoves
    refine ((expect_moves hy₂.valid (by decide)).stepIn hy₂.toKeeps).bind fun _ s₃ h₃ => ?_
    refine .pure ⟨hy₂.step h₃, ?_, nofun⟩
    exact Nat.lt_of_lt_of_le (h₁.pos_lt hv) (Nat.le_trans h₂.1.pos_le h₃.pos_le)
  split
  · rename_i hquote
    refine (hg.stringLiteral hv hd hquote).bind fun v s₁ h₁ => ?_
    exact .pure ⟨h₁.1, h₁.2, nofun⟩
  · exact .pure rfl

/-- A key and the value behind it make an entry. -/
theorem entry_yields {key : DictKey Node} {value : Option Node} (hv : Valid doc s)
    (hkey : Keyed doc s (some key) s₁) (hvalue : Yields doc .final s₁ value.toList s₂) :
    Yields doc .final s [.make (.dictEntry key value) (.upTo (s.front doc) s₂.pos)] s₂ ∧
      s.pos < s₂.pos := by
  obtain ⟨hy, hlt, hbare⟩ := hkey
  have hyields := hy.then hvalue
  have hlt' := Nat.lt_of_lt_of_le hlt hvalue.pos_le
  refine ⟨hyields.toMoves.madeKeyed hlt' hv ?_ rfl ?_ ?_ ?_, hlt'⟩
  · rw [children_dictEntry]
    exact hyields.laid
  · intro name hname
    cases key with
    | name => exact List.mem_singleton.1 hname ▸ (hbare _ rfl).1
    | _ => cases hname
  · exact le_literalKey hy.laid fun name hname =>
      Nat.le_trans hv.pos_le_front (hbare name hname).2.1
  · cases key with
    | name name =>
      obtain ⟨-, hstart, hstop⟩ := hbare name rfl
      have hspans := make_spans (.dictEntry (.name name) value) (.upTo (s.front doc) s₂.pos)
      have hle := hspans.le_stop
      rw [Span.stop_upTo (Nat.le_of_lt (hyields.toMoves.front_lt hlt'))] at hle
      have hstop' := Nat.le_trans hstop (Nat.le_trans hvalue.pos_le hle)
      exact ⟨Nat.le_trans hspans.start_le hstart, hstop'⟩
    | _ => exact trivial

/-- A value after a token, if the token is there.  Keys in the value stand behind the token. -/
theorem afterEaten?_runs {kind : TokenKind} {p : Parser Node} (hv : Valid doc s)
    (hkind : kind ≠ .eof) (hp : ∀ s₁, Bumped doc s s₁ → Runs doc (Fails doc s₁) p s₁ fun v s₂ =>
      Yields doc .final s₁ [v] s₂) :
    Runs doc (Fails doc s) (afterEaten? kind p) s fun v? s' => Yields doc .final s v?.toList s' ∧
      ∀ v, v? = some v → ∀ k ∈ v.form.keys, s.pos < k.span.start := by
  unfold afterEaten?
  refine ((eat_runs hv hkind).stepIn (.refl s)).bind fun eaten s₁ h₁ => ?_
  cases eaten with
  | true =>
    obtain ⟨-, h₁⟩ := h₁
    refine .map (((hp s₁ h₁).inside h₁.toMoves).imp fun v s₂ h₂ => ⟨h₂.after h₁.toMoves, ?_⟩)
    rintro _ ⟨⟩ k hk
    exact Nat.lt_of_lt_of_le (h₁.pos_lt hv) (h₂.laid.keys v List.mem_cons_self k hk)
  | false =>
    obtain ⟨-, rfl⟩ := h₁
    exact .pure ⟨(Moves.refl hv).yields, nofun⟩

theorem dictRound_runs {entries : Array Node} (hg : g.Obeys doc d) (hd : s.nesting.depth = d)
    (h : Parts doc s entries.toList s₁.charge) :
    Runs doc (Strays doc s) (dictRound g entries) s₁
      (Goes (fun entries s₂ => Parts doc s entries.toList s₂.charge) (Parts doc s) s₁) := by
  unfold dictRound
  refine .look (atListEnd_looks _) fun atEnd hend => ?_
  split
  · exact .pure h.uncharge
  · rename_i hne
    rw [Bool.not_eq_true] at hne
    subst hne
    refine (countRound_runs h).bind fun _ s₂ h₂ => ?_
    subst h₂
    have hd₁ := h.depth.trans hd
    have hk : (s₁.charge.ahead doc).kind ≠ .eof := ne_eof_of_atListEnd (s := s₁) hend
    rw [runs_startOffset]
    refine ((dictKey?_runs hg h.valid hd₁).along h.toDrifts).bind fun key? s₂ h₂ => ?_
    cases key? with
    | none =>
      obtain rfl : s₂ = s₁.charge := h₂
      refine ((forceAdvance_runs h.valid hk).stepOn h.toKeeps).bind fun v s₂ h₂ => ?_
      obtain ⟨rfl, h₂⟩ := h₂
      have hlt := h₂.pos_lt h.valid
      exact .pure ⟨h.again_push (h₂.error h.valid) hlt, hlt⟩
    | some key =>
      have hy₂ := h₂.1
      refine ((afterEaten?_runs hy₂.valid (by decide) fun s₃ h₃ => (hg.expression 0 h₃.valid
        (h₃.depth.trans (hy₂.depth.trans hd₁))).imp fun v s₄ h₄ => h₄.1).along
        (h.toDrifts.trans hy₂.toDrifts)).bind fun value s₃ ⟨h₃, _⟩ => ?_
      obtain ⟨hentry, hlt₃⟩ := entry_yields h.valid h₂ h₃
      rw [runs_spanFrom]
      refine ((eat_runs h₃.valid (by decide)).stepOn (h.toKeeps.trans hentry.toKeeps)).bind
        fun eaten s₄ h₄ => ?_
      have hm₄ := h₄.moves h₃.valid
      have hlt₄ := Nat.lt_of_lt_of_le hlt₃ hm₄.pos_le
      split
      · exact .pure ⟨h.again_push (hentry.step hm₄) hlt₄, hlt₄⟩
      · exact .pure (h.push (hentry.step hm₄).parts)

theorem dictLiteral_runs (he : Enters doc d enter) (hv : Valid doc s) (hd : s.nesting.depth = d)
    (hk : (s.ahead doc).kind ≠ .eof) :
    Runs doc (Fails doc s) (dictLiteral enter) s fun v s' =>
      Yields doc .final s [v] s' ∧ s.pos < s'.pos := by
  refine bracketed_yields he hv hd hk (by decide) (fun _ => rfl) (fun _ => rfl)
    fun g s₁ hg hv₁ hd₁ => ?_
  refine (Runs.repeatRounds (fun entries s₂ => Parts doc s₁.charge entries.toList s₂.charge)
    (fun _ _ h => h.valid.le_size) (.nil hv₁) fun entries s₂ h =>
    dictRound_runs (s := s₁.charge) hg hd₁ h).imp fun entries s₂ h => ?_
  exact ⟨h.toDrifts, h.laid⟩


/-! ### Arguments -/

/-- Two fields hold some of the nodes, which were read one after the other.  What the second one
holds is not empty, so that nothing read after it starts where it does. -/
structure Filed (xs ys nodes : List Node) : Prop where
  mem : ∀ c ∈ xs ++ ys, c ∈ nodes
  fits : (xs ++ ys).Pairwise Fits
  wide : ∀ c ∈ ys, c.start < c.stop

section

variable {xs ys zs nodes : List Node} {v : Node}

theorem Filed.nil : Filed [] [] [] := ⟨nofun, .nil, nofun⟩

/-- The node that was read last is put behind the first field. -/
theorem Filed.insert (h : Filed xs ys nodes) (hv : ∀ x ∈ nodes, Before x v) :
    Filed (xs ++ [v]) ys (nodes ++ [v]) where
  mem := fun c hc => by
    simp only [List.append_assoc, List.mem_append, List.mem_singleton] at hc ⊢
    rcases hc with hc | rfl | hc
    · exact .inl (h.mem c (List.mem_append_left _ hc))
    · exact .inr rfl
    · exact .inl (h.mem c (List.mem_append_right _ hc))
  fits := by
    obtain ⟨hxs, hys, hbetween⟩ := List.pairwise_append.1 h.fits
    rw [List.append_assoc, List.singleton_append]
    refine List.pairwise_append.2 ⟨hxs, List.pairwise_cons.2 ⟨fun y hy => ?_, hys⟩, ?_⟩
    · rcases hv y (h.mem y (List.mem_append_right _ hy)) with hle | hlate | hearly
      · exact .inr (.inl ⟨hle, Nat.lt_of_lt_of_le (h.wide y hy) hle⟩)
      · exact .inr (.inr (.inl hlate))
      · exact .inr (.inr (.inr hearly))
    · intro x hx y hy
      rcases List.mem_cons.1 hy with rfl | hy
      · exact (hv x (h.mem x (List.mem_append_left _ hx))).fits
      · exact hbetween x hx y hy
  wide := h.wide

/-- The node that was read last is put behind the second field. -/
theorem Filed.push (h : Filed xs ys nodes) (hv : ∀ x ∈ nodes, Before x v)
    (hwide : v.start < v.stop) : Filed xs (ys ++ [v]) (nodes ++ [v]) where
  mem := fun c hc => by
    simp only [← List.append_assoc, List.mem_append, List.mem_singleton] at hc ⊢
    exact hc.imp_left fun hc => h.mem c (List.mem_append.2 hc)
  fits := by
    rw [← List.append_assoc]
    refine List.pairwise_append.2 ⟨h.fits, List.pairwise_singleton _ _, fun x hx y hy => ?_⟩
    rw [List.mem_singleton.1 hy]
    exact (hv x (h.mem x hx)).fits
  wide := fun c hc => by
    rcases List.mem_append.1 hc with hc | hc
    · exact h.wide c hc
    · rw [List.mem_singleton.1 hc]
      exact hwide

end

/-- A node over a token is not empty. -/
theorem start_lt_stop_make {f : Form Node} {start stop : Nat} (h : start < stop) :
    (Node.make f (.upTo start stop)).start < (Node.make f (.upTo start stop)).stop := by
  have hspans := make_spans f (.upTo start stop)
  have h1 := hspans.start_le
  have h2 := hspans.le_stop
  rw [Span.stop_upTo (Nat.le_of_lt h)] at h2
  exact Nat.lt_of_le_of_lt h1 (Nat.lt_of_lt_of_le h h2)

theorem namedArg_runs (hg : g.Obeys doc d) (hv : Valid doc s) (hd : s.nesting.depth = d)
    (hk : (s.ahead doc).kind = .ident) (hk' : (s.second doc).kind = .equal) :
    Runs doc (Fails doc s) (namedArg g) s fun v s' =>
      Yields doc .final s [v] s' ∧ s.pos < s'.pos ∧ v.start < v.stop := by
  unfold namedArg
  rw [runs_startOffset]
  refine ((bump_runs hv (by rw [hk]; decide)).stepIn (.refl s)).bind fun t s₁ h₁ => ?_
  obtain ⟨rfl, h₁⟩ := h₁
  have hahead : (s₁.ahead doc).kind = .equal := by
    rw [h₁.ahead_eq (by rw [hk]; decide), hk']
  refine ((discard_bump_runs h₁.valid (by rw [hahead]; decide)).stepIn h₁.toKeeps).bind
    fun _ s₂ h₂ => ?_
  have hm₂ := h₁.toMoves.trans h₂.toMoves
  refine ((hg.expression 0 h₂.valid (hm₂.depth.trans hd)).inside hm₂).bind fun v s₃ h₃ => ?_
  rw [runs_tokenText, runs_spanFrom]
  have hy₃ := h₃.1.after h₂.toMoves
  have hlt : s.pos < s₃.pos := Nat.lt_of_lt_of_le (h₁.pos_lt hv) hy₃.pos_le
  have hfront : s.front doc < s₃.pos := Nat.lt_of_lt_of_le h₁.front_lt hy₃.pos_le
  refine .pure ⟨(h₁.made hv hy₃ rfl ?_).1, hlt, start_lt_stop_make hfront⟩
  simpa [Form.names] using hv.ahead.cut

/-- The arguments were read in the order of the nodes. -/
def Arguments.Sorted (args : Arguments) (nodes : List Node) : Prop :=
  Filed args.positional.toList args.named.toList nodes

/-- One more argument is read and put into its field. -/
theorem argument_runs {args : Arguments} {xs : List Node} (hg : g.Obeys doc d)
    (hd : s₁.nesting.depth = d) (h : Parts doc s xs s₁) (hargs : args.Sorted xs)
    (hk : (s₁.ahead doc).kind ≠ .eof) :
    Runs doc (Strays doc s) (argument g args) s₁ fun args' s' => s₁.pos < s'.pos ∧
      ∃ v, Yields doc .final s₁ [v] s' ∧ args'.Sorted (xs ++ [v]) := by
  have hbefore : ∀ {v s'}, Yields doc .final s₁ [v] s' → ∀ x ∈ xs, Before x v := by
    intro v s' hy x hx
    exact Row.before h.laid hy.laid (Nat.le_refl _) hy.firm x hx v (List.mem_singleton.2 rfl)
  have hpositional : ∀ {v s'}, Yields doc .final s₁ [v] s' →
      Arguments.Sorted { args with positional := args.positional.push v } (xs ++ [v]) := by
    intro v s' hy
    unfold Arguments.Sorted
    rw [Array.toList_push]
    exact hargs.insert (hbefore hy)
  unfold argument
  rw [runs_currentKind, runs_peek]
  split
  · rename_i hat
    rw [Bool.and_eq_true, beq_iff_eq, beq_iff_eq] at hat
    refine ((namedArg_runs hg h.valid hd hat.1 hat.2).along h.toDrifts).bind fun v s₂ h₂ => ?_
    obtain ⟨hy, hlt, hwide⟩ := h₂
    refine .pure ⟨hlt, v, hy, ?_⟩
    unfold Arguments.Sorted
    rw [Array.toList_push]
    exact hargs.push (hbefore hy) hwide
  · rw [runs_atExprStart]
    split
    · rename_i hopens
      refine ((hg.expression 0 h.valid hd).along h.toDrifts).bind fun v s₂ h₂ => ?_
      exact .pure ⟨h₂.2 hopens, v, h₂.1, hpositional h₂.1⟩
    · refine ((forceAdvance_runs h.valid hk).stepOn h.toKeeps).bind fun v s₂ h₂ => ?_
      obtain ⟨rfl, h₂⟩ := h₂
      have hy := h₂.error (e := .final) h.valid
      exact .pure ⟨h₂.pos_lt h.valid, _, hy, hpositional hy⟩

/-- The arguments so far, with the next round paid for. -/
def Arguing (doc : Document) (s : State) (args : Arguments) (s' : State) : Prop :=
  ∃ xs, Parts doc s xs s'.charge ∧ args.Sorted xs

theorem argRound_runs {args : Arguments} (hg : g.Obeys doc d) (hd : s.nesting.depth = d)
    (h : Arguing doc s args s₁) :
    Runs doc (Strays doc s) (argRound g args) s₁ (Goes (Arguing doc s)
      (fun args s' => ∃ xs, Parts doc s xs s' ∧ args.Sorted xs) s₁) := by
  obtain ⟨xs, hparts, hargs⟩ := h
  unfold argRound
  refine (countRound_runs hparts).bind fun _ s₂ h₂ => ?_
  subst h₂
  rw [runs_position, runs_currentKind]
  refine .look (atListEnd_looks _) fun atEnd hend => ?_
  split
  · exact .pure ⟨xs, hparts, hargs⟩
  · rename_i hne
    rw [Bool.not_eq_true] at hne
    subst hne
    have hk := ne_eof_of_atListEnd hend
    split
    · refine ((discard_bump_runs hparts.valid hk).stepOn hparts.toKeeps).bind fun _ s₂ h₂ => ?_
      refine .pure ⟨⟨xs, ?_, hargs⟩, h₂.pos_lt hparts.valid⟩
      exact hparts.drift (h₂.charge hparts.valid).toDrifts
    · refine (argument_runs hg (hparts.depth.trans hd) hparts hargs hk).bind
        fun args' s₂ h₂ => ?_
      obtain ⟨hlt, v, hy, hargs'⟩ := h₂
      rw [runs_position, if_neg (by simpa using Nat.ne_of_gt hlt)]
      exact .pure ⟨⟨xs ++ [v], hparts.again hy hlt, hargs'⟩, hlt⟩

theorem argList_runs (he : Enters doc d enter) (hv : Valid doc s) (hd : s.nesting.depth = d)
    (hk : (s.ahead doc).kind ≠ .eof) :
    Runs doc (Fails doc s) (argList enter) s fun v s' =>
      Yields doc .final s [v] s' ∧ s.pos < s'.pos ∧ v.start < v.stop := by
  refine (bracketed_runs (R := fun args xs => Arguments.Sorted args xs) he hv hd hk (by decide)
    fun g s₁ hg hv₁ hd₁ => ?_).imp fun v s' h => ?_
  · refine (Runs.repeatRounds (Arguing doc s₁.charge) (fun _ _ ⟨_, h, _⟩ => h.valid.le_size)
      ⟨[], .nil hv₁, (by exact Filed.nil)⟩ fun args s₂ h => argRound_runs (s := s₁.charge) hg hd₁ h).imp
      fun args s₂ h => ?_
    obtain ⟨xs, hparts, hargs⟩ := h
    exact ⟨hparts.toDrifts, xs, hparts.laid, hargs⟩
  · obtain ⟨hm, hlt, args, xs, rfl, hl, hargs⟩ := h
    have hfront := hm.front_lt hlt
    refine ⟨⟨hm, ?_, by rw [List.forall_mem_singleton]; exact id⟩, hlt, start_lt_stop_make hfront⟩
    refine Row.assemble (f := .argList args.positional.toList args.named.toList) hl hargs.mem
      (cut_upTo hv.front_boundary hm.valid.boundary) nofun nofun trivial rfl hargs.fits
      (by simp [Form.beside]) nofun
      (.inl hv.pos_le_front) (.inl (Nat.le_of_eq (Span.stop_upTo (Nat.le_of_lt hfront)))) ?_
    exact fun c hc heq hpart _ => startsEarly_of_leading hc heq hpart


/-! ### Names and the choice of an operand -/

theorem nameOperand_runs (he : Enters doc d enter) (hv : Valid doc s) (hd : s.nesting.depth = d)
    (hk : (s.ahead doc).kind ≠ .eof) :
    Runs doc (Fails doc s) (nameOperand enter) s fun v s' =>
      Yields doc .final s [v] s' ∧ s.pos < s'.pos := by
  unfold nameOperand
  rw [runs_current, runs_tokenText]
  split
  · exact unary_runs he hv hd hk
  · refine ((discard_bump_runs hv hk).stepIn (.refl s)).bind fun _ s₁ h₁ => ?_
    refine .pure ⟨h₁.leaf hv ?_ ?_ ?_, h₁.pos_lt hv⟩
    · split <;> rfl
    · split <;> rfl
    · split <;> simp [Form.names]

theorem operand_runs (he : Enters doc d enter) (hv : Valid doc s) (hd : s.nesting.depth = d) :
    Runs doc (Fails doc s) (operand enter) s (Valued doc s) := by
  have hsure : ∀ {p : Parser Node}, Runs doc (Fails doc s) p s (fun v s' =>
      Yields doc .final s [v] s' ∧ s.pos < s'.pos) → Runs doc (Fails doc s) p s (Valued doc s) :=
    fun h => h.imp fun _ _ h => ⟨h.1, fun _ => h.2⟩
  unfold operand
  rw [runs_currentKind]
  split
  · rename_i hk
    exact hsure (intLiteral_runs hv (by rw [hk]; decide))
  · rename_i hk
    exact hsure (floatLiteral_runs hv (by rw [hk]; decide))
  · rename_i hk
    exact hsure (nameOperand_runs he hv hd (by rw [hk]; decide))
  · rename_i hk
    exact hsure (parenOrTuple_runs he hv hd (by rw [hk]; decide))
  · rename_i hk
    exact hsure (listLiteral_runs he hv hd (by rw [hk]; decide))
  · rename_i hk
    exact hsure (dictLiteral_runs he hv hd (by rw [hk]; decide))
  · rename_i hk
    exact hsure (regexLiteral_runs hv (by rw [hk]; decide))
  · rename_i hk
    exact hsure (unary_runs he hv hd (by rw [hk]; decide))
  · rename_i hk
    exact hsure (unary_runs he hv hd (by rw [hk]; decide))
  · rename_i hk
    exact hsure (unary_runs he hv hd (by rw [hk]; decide))
  · rename_i hk
    exact hsure (unary_runs he hv hd (by rw [hk]; decide))
  · rename_i hk
    exact hsure (unary_runs he hv hd (by rw [hk]; decide))
  · split
    · rename_i hquote
      exact hsure (stringLiteral_runs he hv hd hquote)
    · rename_i hquote
      refine (substitution?_runs he hv hd).bind fun node? s₁ h₁ => ?_
      cases node? with
      | some v => exact .pure ⟨h₁.1, fun _ => h₁.2⟩
      | none =>
        obtain ⟨rfl, hnone⟩ := h₁
        refine (missing_runs hv).imp fun v s₂ h₂ => ?_
        obtain ⟨rfl, h₂⟩ := h₂
        refine ⟨h₂.missing hv, fun hopens => ?_⟩
        exfalso
        unfold State.opens State.closes at hopens
        unfold startsOperand at hopens
        unfold opensSubstitution at hnone
        split at hopens <;> simp_all

/-! ## Operators -/

/-- A node in brackets behind a token. -/
theorem closedNode_runs {p : Parser Node} {close : TokenKind} {what : String}
    (hb : Bumped doc s s₁) (hv : Valid doc s) (hclose : close ≠ .eof)
    (h : Runs doc (Fails doc s₁.skipping) p s₁.skipping fun v s₂ =>
      Yields doc .final s₁.skipping [v] s₂) :
    Runs doc (Fails doc s) (closedBy close what p) s₁ fun v s' =>
      Yields doc .final s [v] s' ∧ s.pos < s'.pos := by
  have hlt := hb.pos_lt hv
  refine (Runs.begun (closedBy_runs (R := fun v xs => xs = [v] ∧ ¬ v.IsBody) hclose ?_)
    hb.toMoves hlt).imp fun v s' h' => ?_
  · refine (h.imp_fail fun _ _ => Fails.strays).imp fun v s₂ hy => ?_
    exact ⟨hy.toDrifts, [v], hy.laid, rfl, hy.firm v (List.mem_singleton.2 rfl)⟩
  · obtain ⟨hd, _, hl, rfl, hfirm⟩ := h'
    refine ⟨⟨hb.toMoves.drift hlt hd, hl.after hb.toDrifts, ?_⟩, Nat.lt_of_lt_of_le hlt hd.pos_le⟩
    rw [List.forall_mem_singleton]
    exact hfirm

theorem subscriptIndex_runs (he : Enters doc d enter) (hv : Valid doc s)
    (hd : s.nesting.depth = d) :
    Runs doc (Fails doc s) (subscriptIndex enter) s fun v s' => Yields doc .final s [v] s' := by
  unfold subscriptIndex
  rw [runs_startOffset]
  refine (expression_runs he hv hd).bind fun index s₁ h₁ => ?_
  refine ((eat_runs h₁.1.valid (by decide)).stepIn h₁.1.toKeeps).bind fun eaten s₂ h₂ => ?_
  cases eaten with
  | false =>
    obtain ⟨-, rfl⟩ := h₂
    exact .pure h₁.1
  | true =>
    obtain ⟨-, h₂⟩ := h₂
    have hy₂ := h₁.1.step h₂.toMoves
    rw [if_neg (by simp), runs_atExprStart]
    split
    · exact .pure hy₂
    · refine ((expression_runs he hy₂.valid (hy₂.depth.trans hd)).inside hy₂.toMoves).bind
        fun last s₃ h₃ => ?_
      rw [runs_spanFrom]
      have hy₃ := hy₂.then h₃.1
      have hlt : s.pos < s₃.pos := by
        have h1 := h₁.1.pos_le
        have h2 := h₂.pos_lt h₁.1.valid
        have h3 := h₃.1.pos_le
        omega
      exact .pure (hy₃.toMoves.made hlt hv hy₃.laid rfl (by simp [Form.names]))

/-- The parts of an operator that was folded around a node: they are laid from where the node
starts, and the operator consumed something. -/
def Folded (doc : Document) (s s₁ : State) (f : Form Node) (s' : State) : Prop :=
  Yields doc .final s f.children s' ∧ s₁.pos < s'.pos ∧ f.isPlain = true ∧
    ∀ name ∈ f.names, Cut doc.text name.span

theorem comparisonChain_runs {first : Node} (he : Enters doc d enter) (hd : s.nesting.depth = d)
    (hy : Yields doc .final s [first] s₁) (hat : AtComparison doc s₁) :
    Runs doc (Fails doc s) (comparisonChain enter first) s₁ (Folded doc s s₁) := by
  refine Runs.repeatRounds (fun chain s₂ => Yields doc .final s chain.2.toList s₂ ∧
    (s₂ = s₁ ∨ s₁.pos < s₂.pos)) (fun _ _ h => h.1.valid.le_size) ⟨hy, .inl rfl⟩
    fun (ops, operands) s₂ h₂ => ?_
  obtain ⟨hy₂, hpos⟩ := h₂
  refine ((eatComparison?_runs hy₂.valid).stepIn hy₂.toKeeps).bind fun op? s₃ h₃ => ?_
  obtain ⟨hm₃, hlt₃, hsome⟩ := h₃
  cases op? with
  | some op =>
    have hy₃ := hy₂.step hm₃
    have hlt := hlt₃ rfl
    refine ((expression_runs he hy₃.valid (hy₃.depth.trans hd)).inside hy₃.toMoves).bind
      fun v s₄ h₄ => ?_
    have hle := h₄.1.pos_le
    refine .pure ⟨⟨hy₃.push h₄.1, .inr ?_⟩, by omega⟩
    rcases hpos with rfl | hpos <;> omega
  | none =>
    rcases hpos with rfl | hpos
    · exact absurd (hsome hat) (by simp)
    · refine .pure ⟨hy₂.step hm₃, Nat.lt_of_lt_of_le hpos hm₃.pos_le, rfl, by simp [Form.names]⟩

theorem elseOperand_runs (he : Enters doc d enter) (hv : Valid doc s) (hd : s.nesting.depth = d) :
    Runs doc (Fails doc s) (elseOperand enter) s fun v s' => Yields doc .final s [v] s' := by
  unfold elseOperand
  refine ((eatKeyword_runs hv).stepIn (.refl s)).bind fun eaten s₁ h₁ => ?_
  have hm₁ := h₁.moves hv
  split
  · refine ((expression_runs he hm₁.valid (hm₁.depth.trans hd)).inside hm₁).imp fun v s₂ h₂ => ?_
    exact h₂.1.after hm₁
  · refine (missing_runs hm₁.valid).imp fun v s₂ h₂ => ?_
    obtain ⟨rfl, h₂⟩ := h₂
    exact (h₂.missing hm₁.valid).after hm₁

theorem foldOperator_runs {op : Infix} {lhs : Node} (he : Enters doc d enter)
    (hd : s.nesting.depth = d) (hy : Yields doc .final s [lhs] s₁)
    (hk : (s₁.ahead doc).kind ≠ .eof) (hat : op = .compare → AtComparison doc s₁) :
    Runs doc (Fails doc s) (foldOperator enter op lhs) s₁ (Folded doc s s₁) := by
  have hd₁ := hy.depth.trans hd
  -- Two of the operators have one operand more behind their token.
  have hright : ∀ {f : Node → Form Node} {power : Nat}, (∀ v, (f v).children = [lhs, v]) →
      (∀ v, (f v).isPlain = true) → (∀ v, (f v).names = []) →
      Runs doc (Fails doc s) (do discard bump; return f (← expression enter power)) s₁
        (Folded doc s s₁) := by
    intro f power hchildren hplain hnames
    refine ((discard_bump_runs hy.valid hk).stepIn hy.toKeeps).bind fun _ s₂ h₂ => ?_
    have hy₂ := hy.step h₂.toMoves
    refine ((expression_runs he hy₂.valid (hy₂.depth.trans hd)).inside hy₂.toMoves).bind
      fun v s₃ h₃ => ?_
    refine .pure ⟨?_, Nat.lt_of_lt_of_le (h₂.pos_lt hy.valid) h₃.1.pos_le, hplain v, ?_⟩
    · rw [hchildren]
      exact hy₂.then h₃.1
    · simp [hnames]
  unfold foldOperator
  split
  · refine ((argList_runs he hy.valid hd₁ hk).inside hy.toMoves).bind fun v s₂ h₂ => ?_
    exact .pure ⟨hy.then h₂.1, h₂.2.1, rfl, by simp [Form.names]⟩
  · refine ((discard_bump_runs hy.valid hk).stepIn hy.toKeeps).bind fun _ s₂ h₂ => ?_
    refine ((closedNode_runs h₂ hy.valid (by decide) ?_).inside hy.toMoves).bind fun v s₃ h₃ => ?_
    · exact subscriptIndex_runs (s := s₂.skipping) he (h₂.valid.nest _) (h₂.depth.trans hd₁)
    · exact .pure ⟨hy.then h₃.1, h₃.2, rfl, by simp [Form.names]⟩
  · refine ((discard_bump_runs hy.valid hk).stepIn hy.toKeeps).bind fun _ s₂ h₂ => ?_
    have hy₂ := hy.step h₂.toMoves
    refine ((identName_runs hy₂.valid).stepIn hy₂.toKeeps).bind fun name s₃ h₃ => ?_
    obtain ⟨hcut, hm₃, -⟩ := h₃
    refine .pure ⟨hy₂.step hm₃, Nat.lt_of_lt_of_le (h₂.pos_lt hy.valid) hm₃.pos_le, rfl, ?_⟩
    simpa [Form.names] using hcut
  · exact hright (fun _ => rfl) (fun _ => rfl) fun _ => rfl
  · exact comparisonChain_runs he hd hy (hat rfl)
  · refine ((discard_bump_runs hy.valid hk).stepIn hy.toKeeps).bind fun _ s₂ h₂ => ?_
    have hy₂ := hy.step h₂.toMoves
    refine ((expression_runs he hy₂.valid (hy₂.depth.trans hd)).inside hy₂.toMoves).bind
      fun condition s₃ h₃ => ?_
    have hy₃ := hy₂.then h₃.1
    refine ((elseOperand_runs he hy₃.valid (hy₃.depth.trans hd)).inside hy₃.toMoves).bind
      fun last s₄ h₄ => ?_
    refine .pure ⟨hy₃.then h₄, ?_, rfl, by simp [Form.names]⟩
    exact Nat.lt_of_lt_of_le (h₂.pos_lt hy.valid) (Nat.le_trans h₃.1.pos_le h₄.pos_le)
  · exact hright (fun _ => rfl) (fun _ => rfl) fun _ => rfl

/-- Every round folds an operator around the one node that was read from `s` on. -/
theorem operatorRound_runs {power folds : Nat} {lhs : Node} (he : Enters doc d enter)
    (hv : Valid doc s) (hd : s.nesting.depth = d) (h : Valued doc s lhs s₁) :
    Runs doc (Fails doc s) (operatorRound enter power (s.front doc) lhs folds) s₁
      (Goes (fun r => Valued doc s r.1) (fun r => Valued doc s r.1) s₁) := by
  unfold operatorRound
  refine infixOp?_runs.bind fun op? s₂ h₂ => ?_
  obtain ⟨rfl, hop⟩ := h₂
  split
  · exact .pure h
  · rename_i op
    obtain ⟨hk, hat⟩ := hop op rfl
    split
    · exact .pure h
    · refine ((fold_runs h.1.valid).inside h.1.toMoves).bind fun _ s₃ h₃ => ?_
      subst h₃
      have hy₃ := h.1.step (h.1.valid.refold (· + 1))
      refine (foldOperator_runs he hd hy₃ hk fun heq => (hat heq).congr rfl rfl).bind
        fun f s₄ h₄ => ?_
      obtain ⟨hy₄, hlt, hplain, hnames⟩ := h₄
      have hlt₄ : s.pos < s₄.pos := Nat.lt_of_le_of_lt hy₃.pos_le hlt
      rw [runs_spanFrom]
      exact .pure ⟨⟨hy₄.toMoves.made hlt₄ hv hy₄.laid hplain hnames, fun _ => hlt₄⟩, hlt⟩

theorem operators_runs {power : Nat} (he : Enters doc d enter) (hv : Valid doc s)
    (hd : s.nesting.depth + 1 = d) :
    Runs doc (Fails doc s) (operators enter power) s.deeper (Valued doc s) := by
  have hv' : Valid doc s.deeper := hv.nest _
  unfold operators
  rw [runs_startOffset]
  refine Runs.imp_fail (operand_runs he hv' hd |>.bind fun first s₁ h₁ => ?_)
    fun _ _ => Fails.leave
  refine Runs.bind (R := fun r => Valued doc s.deeper r.1) ?_ fun (v, folds) s₂ h₂ => ?_
  · exact .repeatRounds (fun r => Valued doc s.deeper r.1) (fun _ _ h => h.1.valid.le_size) h₁
      fun (lhs, folds) s₂ h => operatorRound_runs he hv' hd h
  · rw [runs_releaseFolds, runs_ascend]
    exact .pure ⟨(h₂.1.step (h₂.1.valid.refold (· - folds))).leave, h₂.2⟩

theorem exprOrTuple_runs (he : Enters doc d enter) (hv : Valid doc s) (hd : s.nesting.depth = d) :
    Runs doc (Fails doc s) (exprOrTuple enter) s (Valued doc s) := by
  unfold exprOrTuple
  rw [runs_startOffset]
  refine (expression_runs he hv hd).bind fun first s₁ h₁ => ?_
  rw [runs_atKind]
  split
  · exact .pure h₁
  · rename_i hcomma
    have hcomma : (s₁.ahead doc).kind = .comma := by simpa using hcomma
    refine (moreItems_runs he hd h₁.1).bind fun items s₂ h₂ => ?_
    have hlt : s.pos < s₂.pos := Nat.lt_of_le_of_lt h₁.1.pos_le (h₂.2 hcomma)
    rw [runs_spanFrom]
    exact .pure ⟨h₂.1.toMoves.made hlt hv h₂.1.laid rfl (by simp [Form.names]), fun _ => hlt⟩

theorem place_runs (he : Enters doc d enter) (hv : Valid doc s) (hd : s.nesting.depth = d) :
    Runs doc (Fails doc s) (place enter) s (Valued doc s) := expression_runs he hv hd

theorem parenExpr_runs (hg : g.Obeys doc d) (hv : Valid doc s) (hd : s.nesting.depth = d)
    (hk : (s.ahead doc).kind ≠ .eof) :
    Runs doc (Fails doc s) (parenExpr g) s fun v s' =>
      Yields doc .final s [v] s' ∧ s.pos < s'.pos := by
  unfold parenExpr
  refine ((discard_bump_runs hv hk).stepIn (.refl s)).bind fun _ s₁ h₁ => ?_
  refine closedNode_runs h₁ hv (by decide) ?_
  exact (hg.expression (s := s₁.skipping) 0 (h₁.valid.nest _) (h₁.depth.trans hd)).imp
    fun _ _ h => h.1

end

end ShellAnalysis.Parse
