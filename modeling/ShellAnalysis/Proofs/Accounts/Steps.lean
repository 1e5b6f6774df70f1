import ShellAnalysis.Proofs.Accounts.Rules

/-!
# Accounts of single steps

Reading a token goes past the token ahead (`bump_answers`), and a token that is
expected was read or is reported as missing (`expect_answers`).  An error node is
made only together with a report (`missing_gathers`, `forceAdvance_gathers`), and
so is a name that is missing (`identName_picks`).
-/

namespace ShellAnalysis.Parse

open Text Node

/-! ## Reports are kept -/

/-- However the parser ends, no report is taken back. -/
class Grows {α : Type} (p : Parser α) : Prop where
  grows : ∀ doc s, Runs doc (fun _ s' => s.errors ≤ s'.errors) p s fun _ s' => s.errors ≤ s'.errors

section

variable {α β : Type} {p q : Parser α} {f : α → Parser β}

instance Grows.of_looks [h : Looking p] : Grows p where
  grows doc s := by
    obtain ⟨a, ha⟩ := h.looks doc s
    simpa only [Runs, ha] using Nat.le_refl s.errors

instance Grows.pure (a : α) : Grows (Pure.pure a : Parser α) := .of_looks

instance Grows.bind [hp : Grows p] [k : ∀ a, Grows (f a)] : Grows (p >>= f) where
  grows doc s := (hp.grows doc s).bind fun a s₁ h₁ =>
    (((k a).grows doc s₁).imp fun _ _ => Nat.le_trans h₁).imp_fail fun _ _ => Nat.le_trans h₁

instance Grows.ite {c : Prop} [Decidable c] [y : Grows p] [n : Grows q] :
    Grows (if c then p else q) := by
  split
  · exact y
  · exact n

end

instance (i : Nat) : Grows (setPosition i) := ⟨fun _ _ => Nat.le_refl _⟩

instance {α : Type} (error : LimitError) : Grows (stopWith error : Parser α) :=
  ⟨fun _ _ => Nat.le_refl _⟩

theorem errors_push (s : State) (d : Diagnostic) :
    ({ s with diagnostics := s.diagnostics.push d } : State).errors =
      s.errors + if d.isError then 1 else 0 := by
  show (s.diagnostics.push d).toList.countP _ = _
  rw [Array.toList_push, List.countP_append, List.countP_singleton]
  rfl

instance (d : Diagnostic) : Grows (report d) where
  grows _ s := by
    show s.errors ≤ _
    rw [errors_push]
    exact Nat.le_add_right _ _

instance : Grows countToken := by
  have : Grows (modify fun s : State => { s with tokens := s.tokens + 1 } : Parser Unit) :=
    ⟨fun _ _ => Nat.le_refl _⟩
  unfold countToken
  infer_instance

instance {α : Type} (a? : Option α) : Grows (orFault a?) := by
  cases a? with
  | none => exact ⟨fun _ _ => Nat.le_refl _⟩
  | some a => exact Grows.pure a

instance (span : Span) : Grows (pieceOf span) := by
  unfold pieceOf
  infer_instance

instance (body : Heredoc.Body) : Grows (leaveBody body) := by
  unfold leaveBody skipLineBreak positionInText
  split <;> infer_instance

instance (h : Heredoc) : Grows (readBody h) := by
  have : ∀ node : Node, Grows (holdBody node) := by
    intro node
    have : Grows (modify fun s : State => { s with bodies := s.bodies ++ [node] } : Parser Unit) :=
      ⟨fun _ _ => Nat.le_refl _⟩
    unfold holdBody
    infer_instance
  unfold readBody reportUnclosed
  refine Grows.bind (k := fun _ => Grows.bind (k := fun start => ?_))
  infer_instance

instance (hs : List Heredoc) : Grows (readBodies hs) := by
  induction hs with
  | nil => exact Grows.pure ()
  | cons h hs ih =>
    unfold readBodies
    infer_instance

instance : Grows readPending := by
  have : Grows (modify fun s : State => { s with pending := [] } : Parser Unit) :=
    ⟨fun _ _ => Nat.le_refl _⟩
  unfold readPending
  infer_instance

instance : Grows bump := by
  unfold bump
  infer_instance

section

variable {α : Type} {doc : Document} {s : State} {p : Parser α}

/-- A parser that takes no report back explains that no nodes were read. -/
theorem Turns.explains [hg : Grows p] {fail : Stopped → State → Prop} {P : α → Prop}
    {Q : α → State → Prop} (hp : Gives doc p s P) (h : Runs doc fail p s Q) (ht : s.Tidy) :
    Answers doc s p s fun a s' => Explains s [] s' ∧ P a ∧ Q a s' := by
  have hp := hp ht
  have hg := hg.grows doc s
  unfold Runs at h hp hg
  unfold Answers Runs
  split at hp
  · rename_i heq
    simp only [heq] at h hg ⊢
    obtain ⟨hrests, hnesting, ha⟩ := hp
    exact ⟨⟨hrests, congrArg Nesting.newlineSkip hnesting, by rwa [errorsIn_nil, Nat.zero_add]⟩,
      ha, h⟩
  · rename_i heq
    simp only [heq] at h hg ⊢
    exact ⟨hp, hg⟩

end

/-! ## Silent parsers -/

section

variable {α β σ : Type} {p q : Parser α} {f : α → Parser β}

instance Silent.of_looks [h : Looking p] : Silent p where
  silent doc s ht := by
    obtain ⟨a, ha⟩ := h.looks doc s
    unfold Answers Runs
    rw [ha]
    exact .refl ht

instance Silent.pure (a : α) : Silent (Pure.pure a : Parser α) := .of_looks

instance Silent.bind [hp : Silent p] [k : ∀ a, Silent (f a)] : Silent (p >>= f) where
  silent doc _ ht := (Accounts.refl ht).step fun a _ h₁ =>
    h₁.last ((k a).silent doc _ h₁.tidy) fun _ _ h => h₁.trans h

instance Silent.map {g : α → β} [hp : Silent p] : Silent (g <$> p) :=
  ⟨fun doc s => .map (hp.silent doc s)⟩

instance Silent.discard [Silent p] : Silent (discard p) :=
  inferInstanceAs (Silent ((fun _ => ()) <$> p))

instance Silent.ite {c : Prop} [Decidable c] [y : Silent p] [n : Silent q] :
    Silent (if c then p else q) := by
  split
  · exact y
  · exact n

instance Silent.repeatRounds {init : σ} {round : σ → Parser (Round σ α)}
    [k : ∀ state, Silent (round state)] : Silent (repeatRounds init round) where
  silent doc s ht := by
    refine Answers.loop (fun _ => []) (.refl ht) fun state s₁ h₁ => ?_
    refine (((k state).silent doc s₁ h₁.tidy).imp_fail fun _ _ => h₁.upholds.trans).imp
      fun r s₂ h₂ => ?_
    cases r <;> exact h₁.trans h₂

instance Silent.whileHolds {condition : Parser Bool} {action : Parser Unit} [Silent condition]
    [Silent action] : Silent (whileHolds condition action) := by
  unfold Parse.whileHolds
  infer_instance

end

instance {α : Type} (error : LimitError) : Silent (stopWith error : Parser α) :=
  ⟨fun _ _ ht => ⟨ht.rests, Nat.le_refl _⟩⟩

/-- The value that was there. -/
theorem orFault_answers {α : Type} {doc : Document} {s : State} (a? : Option α) (ht : s.Tidy) :
    Answers doc s (orFault a?) s fun a s' => a? = some a ∧ s' = s := by
  cases a? with
  | none => exact ⟨ht.rests, Nat.le_refl _⟩
  | some a => exact .pure ⟨rfl, rfl⟩

/-- What is counted does not matter. -/
theorem silent_modify (change : State → State)
    (hsame : ∀ s, ∃ tokens iterations depth chain, change s = { s with
      tokens, iterations, nesting := { s.nesting with depth, chain } }) :
    Silent (modify change : Parser Unit) where
  silent doc s ht := by
    obtain ⟨tokens, iterations, depth, chain, heq⟩ := hsame s
    show Accounts doc s [] (change s)
    rw [heq]
    exact {
      statements := rfl
      tidy := ht
      skip := rfl
      explained := Nat.le_of_eq (Nat.zero_add _)
      drift := fun q => ⟨⟨q.neat.boundary, q.neat.pending, q.neat.bodies⟩, Nat.le_refl _, nofun⟩
      leap := fun _ => .inl rfl }

instance : Silent countIteration := by
  have := silent_modify (fun s => { s with iterations := s.iterations + 1 })
    fun _ => ⟨_, _, _, _, rfl⟩
  unfold countIteration
  infer_instance

instance : Silent descend := by
  have : Silent (modifyNesting fun n => { n with depth := n.depth + 1 }) :=
    silent_modify _ fun _ => ⟨_, _, _, _, rfl⟩
  unfold descend
  infer_instance

instance : Silent ascend := silent_modify _ fun _ => ⟨_, _, _, _, rfl⟩

instance : Silent fold := by
  have : Silent (modifyNesting fun n => { n with chain := n.chain + 1 }) :=
    silent_modify _ fun _ => ⟨_, _, _, _, rfl⟩
  unfold fold
  infer_instance

instance (folds : Nat) : Silent (releaseFolds folds) :=
  silent_modify _ fun _ => ⟨_, _, _, _, rfl⟩

/-! ## Reporting -/

section

variable {doc : Document} {s : State}

theorem report_answers (d : Diagnostic) (ht : s.Tidy) :
    Answers doc s (report d) s fun _ s' => Accounts doc s [] s' ∧ s'.pos = s.pos ∧
      s'.errors = s.errors + if d.isError then 1 else 0 := by
  refine ⟨?_, rfl, errors_push s d⟩
  exact {
    statements := rfl
    tidy := ht
    skip := rfl
    explained := by
      rw [errors_push, errorsIn_nil, Nat.zero_add]
      exact Nat.le_add_right _ _
    drift := fun q => ⟨⟨q.neat.boundary, q.neat.pending, q.neat.bodies⟩, Nat.le_refl _, nofun⟩
    leap := fun _ => .inl rfl }

instance (d : Diagnostic) : Silent (report d) :=
  ⟨fun _ _ ht => (report_answers d ht).imp fun _ _ h => h.1⟩

theorem reportExpected_answers (what : String) (ht : s.Tidy) :
    Answers doc s (reportExpected what) s fun _ s' => Accounts doc s [] s' ∧ s'.pos = s.pos ∧
      s'.errors = s.errors + 1 := by
  refine runs_current.2 ?_
  exact .look (foundText_looks _) fun _ _ => report_answers _ ht

instance (what : String) : Silent (reportExpected what) :=
  ⟨fun _ _ ht => (reportExpected_answers what ht).imp fun _ _ h => h.1⟩

theorem require_answers (found : Bool) (what : String) (ht : s.Tidy) :
    Answers doc s (require found what) s fun _ s' => Accounts doc s [] s' ∧ s'.pos = s.pos := by
  unfold require
  split
  · exact (reportExpected_answers what ht).imp fun _ _ h => ⟨h.1, h.2.1⟩
  · exact .pure ⟨.refl ht, rfl⟩

instance (found : Bool) (what : String) : Silent (require found what) :=
  ⟨fun _ _ ht => (require_answers found what ht).imp fun _ _ h => h.1⟩

/-- Something that is missing was reported. -/
theorem missing_gathers (what : String) : Gathers doc (missing what) s fun v => [v] := by
  intro ht
  refine (reportExpected_answers what ht).bind fun _ s₁ ⟨h₁, _, hmore⟩ => ?_
  refine runs_position.2 (.pure (Explains.accounts { h₁ with explained := ?_ } ?_))
  · rw [errorsIn_cons, errors_error, errorsIn_nil]
    omega
  · omega

/-! ## One token -/

theorem bump_quiet : Runs doc (fun _ _ => True) bump s fun _ s' =>
    Neat doc s → Neat doc s' ∧ s'.pos = (s.ahead doc).span.stop := by
  have hcount : Runs doc (fun _ _ => True) countToken s fun _ s₁ =>
      s₁ = { s with tokens := s.tokens + 1 } := by
    show Runs doc _ (if doc.limits.tokens < s.tokens + 1 then _ else _) _ _
    split
    · trivial
    · rfl
  refine hcount.bind ?_
  rintro _ _ rfl
  show Runs doc _ (if (s.ahead doc).kind == .newline then _ else _) _ _
  have hboundary : Neat doc s → Boundary doc.text (s.ahead doc).span.stop :=
    fun hn => (significant_spec hn.boundary.le_size).cut.2
  split
  · by_cases hpending : s.pending = []
    · show Runs doc _ (readBodies s.pending >>= _) _ _
      rw [hpending]
      exact fun hn => ⟨⟨hboundary hn, rfl, hn.bodies⟩, rfl⟩
    · unfold Runs
      split
      · exact fun hn => absurd hn.pending hpending
      · trivial
  · exact fun hn => ⟨⟨hboundary hn, hn.pending, hn.bodies⟩, rfl⟩

/-- The token that is consumed is the one ahead, and the position is where it ends. -/
theorem bump_answers (ht : s.Tidy) : Answers doc s bump s fun t s' =>
    t = s.ahead doc ∧ Consumes doc s s' ∧
      (Quiet doc s s' → s'.pos = (s.ahead doc).span.stop) := by
  refine (bump_gives.explains bump_quiet ht).imp fun t s' ⟨hexplains, ht, hquiet⟩ => ?_
  have hspan : (s.ahead doc).span.start ≤ (s.ahead doc).span.stop := Span.start_le_stop _
  have hpast : Quiet doc s s' → s.front doc ≤ s'.pos := fun q => (hquiet q.neat).2 ▸ hspan
  refine ⟨ht, ?_, fun q => (hquiet q.neat).2⟩
  exact {
    toExplains := hexplains
    drift := fun q => ⟨(hquiet q.neat).1, Nat.le_trans q.neat.pos_le_front (hpast q), nofun⟩
    leap := fun q => .inr (hpast q)
    past := hpast }

instance : Silent bump := ⟨fun _ _ ht => (bump_answers ht).imp fun _ _ h => h.2.1.toAccounts⟩

theorem discard_bump_stops (ht : s.Tidy) : Answers doc s (discard bump) s fun _ s' =>
    Consumes doc s s' ∧ (Quiet doc s s' → s'.pos = (s.ahead doc).span.stop) :=
  .discard ((bump_answers ht).imp fun _ _ h => h.2)

theorem discard_bump_answers (ht : s.Tidy) :
    Answers doc s (discard bump) s fun _ s' => Consumes doc s s' :=
  (discard_bump_stops ht).imp fun _ _ h => h.1

instance (count : Nat) : Silent (skipTokens count) := by
  induction count with
  | zero => exact Silent.pure ()
  | succ count ih =>
    unfold skipTokens
    infer_instance

instance (kind : TokenKind) : Silent (eat kind) := by
  unfold eat
  infer_instance

instance (word : String) : Silent (eatKeyword word) := by
  unfold eatKeyword
  infer_instance

/-- A token that was eaten was passed. -/
theorem eat_answers (kind : TokenKind) (ht : s.Tidy) : Answers doc s (eat kind) s fun b s' =>
    Accounts doc s [] s' ∧ (b = true → Consumes doc s s') := by
  refine runs_atKind.2 ?_
  split
  · exact (discard_bump_answers ht).bind fun _ s' h => .pure ⟨h.toAccounts, fun _ => h⟩
  · exact .pure ⟨.refl ht, nofun⟩

/-- The token is passed, or reported as missing. -/
theorem expect_answers (kind : TokenKind) (what : String) (ht : s.Tidy) :
    Answers doc s (expect kind what) s fun _ s' => Consumes doc s s' := by
  refine (eat_answers kind ht).bind fun b s₁ ⟨h₁, hpast⟩ => ?_
  cases b with
  | true => exact .pure (hpast rfl)
  | false =>
    refine ((reportExpected_answers what h₁.tidy).imp_fail fun _ _ => h₁.upholds.trans).imp
      fun _ s₂ ⟨h₂, _, hmore⟩ => { toAccounts := h₁.trans h₂, past := fun q => ?_ }
    have herrors := q.errors
    have hle := h₁.errors_le
    omega

instance (kind : TokenKind) (what : String) : Silent (expect kind what) := by
  unfold expect
  infer_instance

instance (word : String) : Silent (expectKeyword word) := by
  unfold expectKeyword
  infer_instance

instance : Silent skipNewlines := by
  unfold skipNewlines
  infer_instance

/-- A token that is passed over was reported. -/
theorem forceAdvance_gathers (what : String) : Gathers doc (forceAdvance what) s fun v => [v] := by
  intro ht
  refine (reportExpected_answers what ht).bind fun _ s₁ ⟨h₁, _, hmore⟩ => ?_
  refine h₁.bind (bump_answers h₁.tidy) fun t s₂ ⟨_, h₂, _⟩ => ?_
  have hle := h₂.errors_le
  refine .pure (Explains.accounts { (h₁.trans h₂.toAccounts) with explained := ?_ } ?_)
  · rw [errorsIn_cons, errors_error, errorsIn_nil]
    omega
  · omega

/-! ## Names -/

/-- The text of a token that is consumed, as a name. -/
theorem bump_picks : Picks doc bump s fun t => [⟨t.text doc.text, t.span⟩] :=
  fun ht => (bump_answers ht).imp fun _ _ ⟨heq, h, hpos⟩ => h.mention hpos (congrArg Token.span heq)

/-- A name is the token that was consumed, or is reported as missing. -/
theorem identName_picks (what : String) : Picks doc (identName what) s fun name => [name] := by
  refine fun ht => runs_current.2 ?_
  split
  · exact (discard_bump_stops ht).bind fun _ s₁ ⟨h₁, hpos⟩ =>
      runs_tokenText.2 (.pure (h₁.mention hpos rfl))
  · refine (reportExpected_answers what ht).bind fun _ s₁ ⟨h₁, _, hmore⟩ => ?_
    exact runs_position.2 (.pure (h₁.loud (by omega)))

theorem identName?_picks : Picks doc identName? s Option.toList := by
  refine fun ht => runs_current.2 ?_
  split
  · exact (discard_bump_stops ht).bind fun _ s₁ ⟨h₁, hpos⟩ =>
      runs_tokenText.2 (.pure (h₁.mention hpos rfl))
  · exact .pure (Accounts.refl ht).nameless

end

end ShellAnalysis.Parse
