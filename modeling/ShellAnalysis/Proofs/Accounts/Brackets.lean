import ShellAnalysis.Proofs.Accounts.Steps
import ShellAnalysis.Proofs.Levels

/-!
# Accounts of brackets

What surrounds the position does not matter for where nodes lie, so it can be
changed and changed back (`Answers.within`).  A level further in is used through
its productions, each of which gives an account of what it reads
(`Grammar.Honest`).

    Frames doc p s     `p` started in `s` reads a node that reaches from the token ahead to
                         the position

Every construct that ends in a token of its own is of that kind.
-/

namespace ShellAnalysis.Parse

open Text Node

/-! ## Changing the nesting -/

/-- Where newlines are blanks, the token ahead starts no earlier. -/
theorem significantAt_start_le {text : String} {skip : Bool} {i : Nat} (h : i ≤ size text) :
    (significantAt text false i).span.start ≤ (significantAt text skip i).span.start := by
  unfold significantAt
  generalize size text + 1 - i = fuel
  induction fuel generalizing i with
  | zero => exact Nat.le_refl _
  | succ fuel ih =>
    have ht := Lexer.tokenAt_spec h
    unfold significantFrom
    simp only [Bool.false_and, Bool.or_false]
    by_cases hcomment : ((Lexer.tokenAt text i).kind == .comment) = true
    · simp only [hcomment, Bool.true_or, if_true]
      exact ih ht.cut.stop_le
    · rw [if_neg hcomment]
      split
      · exact Nat.le_trans (Span.start_le_stop _) (significantFrom_spec ht.cut.stop_le).le
      · exact Nat.le_refl _

section

variable {doc : Document} {s s₁ : State} {xs : List Node} {n n' : Nesting}

theorem Quiet.renest (q : Quiet doc s { s₁ with nesting := n' }) :
    Quiet doc { s with nesting := n } s₁ :=
  ⟨q.lacks, ⟨q.neat.boundary, q.neat.pending, q.neat.bodies⟩, q.errors⟩

theorem Drift.renest {hi hi' : Nat} (h : Drift doc { s with nesting := n } xs s₁ hi)
    (hle : hi ≤ hi') : Drift doc s xs { s₁ with nesting := n' } hi' where
  neat := ⟨h.neat.boundary, h.neat.pending, h.neat.bodies⟩
  le := h.le
  lies := fun x hx => (h.lies x hx).mono (Nat.le_refl _) hle

theorem Explains.renest (h : Explains { s with nesting := n } xs s₁)
    (hskip : n'.newlineSkip = s.nesting.newlineSkip) :
    Explains s xs { s₁ with nesting := n' } :=
  ⟨⟨h.statements, h.tidy⟩, hskip, h.explained⟩

theorem Encloses.renest (h : Encloses doc { s with nesting := n } xs s₁)
    (hskip : n'.newlineSkip = s.nesting.newlineSkip) :
    Encloses doc s xs { s₁ with nesting := n' } where
  toExplains := h.toExplains.renest hskip
  drift q := (h.drift q.renest).renest (Nat.le_refl _)

theorem Collects.renest (h : Collects doc { s with nesting := n } xs s₁)
    (hskip : n'.newlineSkip = s.nesting.newlineSkip)
    (hfront : s₁.pos ≤ size doc.text →
      s₁.front doc ≤ ({ s₁ with nesting := n' } : State).front doc) :
    Collects doc s xs { s₁ with nesting := n' } where
  toExplains := h.toExplains.renest hskip
  drift q := (h.drift q.renest).renest (hfront (h.drift q.renest).neat.boundary.le_size)

end

section

variable {α β : Type} {doc : Document} {s s₀ : State} {xs : List Node} {p : Parser α}
  {f : Grammar → Parser β} {enter : Parser Grammar} {nodes : α → List Node}
  {R Q : α → State → Prop}

/-- However a parser ends in a changed nesting, its reports are kept. -/
theorem Answers.within {change : Nesting → Nesting} {back : Nesting → Option Nesting}
    (hp : Answers doc (s.nest change) p (s.nest change) R)
    (hR : ∀ a s₁, R a s₁ → Upholds (s.nest change) s₁ ∧
      ∀ n, back s₁.nesting = some n → Q a { s₁ with nesting := n }) :
    Answers doc s (within change back p) s Q := by
  have hback : ∀ {s₁ : State} (n : Nesting), Upholds (s.nest change) s₁ →
      Upholds s { s₁ with nesting := n } :=
    fun n h => ⟨⟨h.statements, h.tidy⟩, h.errors_le⟩
  unfold Answers Runs at hp ⊢
  unfold Parse.within
  cases hrun : p doc (s.nest change) with
  | ok a s₁ =>
    rw [hrun] at hp
    rw [State.nest] at hrun
    obtain ⟨hupholds, hQ⟩ := hR a s₁ hp
    rw [hrun]
    simp only
    cases hn : back s₁.nesting with
    | none => exact hback s₁.nesting hupholds
    | some n => exact hQ n hn
  | error e s₁ =>
    rw [hrun] at hp
    rw [State.nest] at hrun
    rw [hrun]
    simp only
    cases back s₁.nesting with
    | none => exact hback s₁.nesting hp
    | some n => exact hback n hp

/-- What is read inside brackets is read. -/
theorem Answers.skippingNewlines (hp : Answers doc s.skipping p s.skipping R)
    (hR : ∀ a s₁, R a s₁ → Upholds s.skipping s₁ ∧
      s₁.nesting.newlineSkip = s.nesting.newlineSkip + 1 ∧
      ∀ n : Nesting, n.newlineSkip = s.nesting.newlineSkip → Q a { s₁ with nesting := n }) :
    Answers doc s (skippingNewlines p) s Q := by
  refine .within hp fun a s₁ h => ?_
  obtain ⟨hupholds, hskip, hQ⟩ := hR a s₁ h
  refine ⟨hupholds, fun n hn => hQ n ?_⟩
  rw [hskip] at hn
  exact Option.some.inj hn ▸ rfl

theorem Answers.withNewlines (hp : Answers doc s.keeping p s.keeping R)
    (hR : ∀ a s₁, R a s₁ → Upholds s.keeping s₁ ∧
      ∀ n : Nesting, n.newlineSkip = s.nesting.newlineSkip → Q a { s₁ with nesting := n }) :
    Answers doc s (withNewlines p) s Q := by
  have hwithin : Answers doc s (Parse.within (fun n => { n with newlineSkip := 0 })
      (fun n => some { n with newlineSkip := s.nesting.newlineSkip }) p) s Q :=
    .within hp fun a s₁ h =>
      ⟨(hR a s₁ h).1, fun n hn => (hR a s₁ h).2 n (Option.some.inj hn ▸ rfl)⟩
  exact hwithin

/-- What is read where newlines count ends before the token ahead where they do not. -/
theorem withNewlines_answers (hp : ∀ s', Gathers doc p s' nodes) (ht : s.Tidy) :
    Answers doc s (withNewlines p) s fun a s' => Collects doc s (nodes a) s' := by
  refine .withNewlines (hp s.keeping ht) fun a s₁ h =>
    ⟨h.upholds, fun n hn => h.toCollects.renest hn fun hsize => ?_⟩
  have hskip : s₁.nesting.newlineSkip = 0 := h.skip
  unfold State.front State.ahead
  rw [hskip]
  exact significantAt_start_le hsize

theorem insideBackticks_answers (hp : Answers doc s.ticked p s.ticked fun a s' =>
    Collects doc s.ticked (nodes a) s') :
    Answers doc s (insideBackticks p) s fun a s' => Collects doc s (nodes a) s' := by
  refine .within hp fun a s₁ h => ⟨h.upholds, fun n hn => ?_⟩
  obtain ⟨depth, -, rfl⟩ := Option.map_eq_some_iff.1 hn
  exact h.renest h.skip fun _ => Nat.le_refl _

/-- What stands in brackets ends at the token that closes them or before. -/
theorem closedBy_answers {close : TokenKind} {what : String} (hp : ∀ s', Gathers doc p s' nodes)
    (ht : s.Tidy) :
    Answers doc s (closedBy close what p) s fun a s' => Encloses doc s (nodes a) s' := by
  refine .skippingNewlines (R := fun a s' => Encloses doc s.skipping (nodes a) s') ?_
    fun a s₁ h => ⟨h.upholds, h.skip, fun n hn => h.renest hn⟩
  refine (hp s.skipping ht).bind fun a s₁ h₁ => ?_
  exact h₁.bind (expect_answers close what h₁.tidy) fun _ s₂ h₂ => .pure (h₁.close h₂)

end

/-! ## Levels -/

/-- The productions of a level account for what they read.  A string is read where one opens. -/
structure Grammar.Honest (doc : Document) (g : Grammar) : Prop where
  statements : ∀ stops stopAfterBlock s, Gathers doc (g.statements stops stopAfterBlock) s id
  expression : ∀ power s, Gathers doc (g.expression power) s fun v => [v]
  operators : ∀ power s, Gathers doc (g.operators power) s fun v => [v]
  word : ∀ s, Gathers doc g.word s fun v => [v]
  stringLiteral : ∀ s, (s.ahead doc).kind.isQuote = true →
    Gathers doc g.stringLiteral s fun v => [v]
  block : ∀ s, Gathers doc g.block s fun v => [v]

/-- The way to a level that accounts for what it reads. -/
def Deepens (doc : Document) (enter : Parser Grammar) : Prop :=
  ∀ s, s.Tidy → Answers doc s enter s fun g s' => Accounts doc s [] s' ∧ g.Honest doc

section

variable {α β : Type} {doc : Document} {s s₀ : State} {xs : List Node} {enter : Parser Grammar}

theorem Accounts.deeper {f : Grammar → Parser β} {Q : β → State → Prop} (h : Accounts doc s₀ xs s)
    (he : Deepens doc enter)
    (hf : ∀ inner s', Accounts doc s₀ xs s' → inner.Honest doc → Answers doc s₀ (f inner) s' Q) :
    Answers doc s₀ (enter >>= f) s Q :=
  h.bind (he s h.tidy) fun inner s' ⟨ha, hinner⟩ =>
    hf inner s' (h.then ha) hinner

/-- The parser reads one node, from the token ahead up to the position. -/
def Frames (doc : Document) (p : Parser Node) (s : State) : Prop :=
  s.Tidy → Answers doc s p s fun v s' => Exactly doc s v s'

theorem Frames.gathers {p : Parser Node} (h : Frames doc p s) :
    Gathers doc p s fun v => [v] :=
  fun ht => (h ht).imp fun _ _ h => h.toAccounts

/-- A construct in brackets over what its content reads. -/
theorem bracketed_frames {close : TokenKind} {what : String} {content : Grammar → Parser α}
    {form : α → Form Node} (he : Deepens doc enter)
    (hcontent : ∀ inner s', inner.Honest doc →
      Gathers doc (content inner) s' fun a => (form a).children)
    (hform : ∀ a, (form a).isOrdinary = true) :
    Frames doc (bracketed enter close what content form) s := by
  intro ht
  refine runs_startOffset.2 ?_
  refine (discard_bump_answers ht).bind fun _ s₁ h₁ => ?_
  refine h₁.bind (he s₁ h₁.tidy) fun inner s₂ ⟨h₂, hinner⟩ => ?_
  have hopen := h₁.then h₂
  refine hopen.bind (closedBy_answers (hcontent inner · hinner) hopen.tidy) fun a s₃ h₃ => ?_
  refine (hopen.append h₃.toExplains).bind (Silent.silent doc s₃ h₃.tidy) fun _ s₄ h₄ => ?_
  exact runs_spanFrom.2 (.pure (hopen.make (h₃.then h₄) (hform a)))

/-! ## Consuming up to an offset -/

/-- Everything up to the offset was consumed. -/
structure Jumps (doc : Document) (s : State) (i : Nat) (s' : State) : Prop
    extends Explains s [] s' where
  pos : s'.pos = i
  neat : Neat doc s → Boundary doc.text i → Neat doc s'

instance (i : Nat) : Grows (advanceTo i) := by
  unfold advanceTo
  infer_instance

theorem advanceTo_answers (i : Nat) (ht : s.Tidy) :
    Answers doc s (advanceTo i) s fun _ s' => Jumps doc s i s' := by
  have hruns : Runs doc (fun _ _ => True) (advanceTo i) s fun _ s' =>
      s'.pos = i ∧ (Neat doc s → Boundary doc.text i → Neat doc s') := by
    refine Runs.bind (R := fun _ s₁ => s₁ = { s with tokens := s.tokens + 1 }) ?_ ?_
    · show Runs doc _ (if doc.limits.tokens < s.tokens + 1 then _ else _) _ _
      split
      · trivial
      · rfl
    · rintro _ _ rfl
      exact ⟨rfl, fun hn hi => ⟨hi, hn.pending, hn.bodies⟩⟩
  refine (Turns.explains (Tame.tame doc s) hruns ht).imp fun _ s' ⟨h, _, hpos, hneat⟩ => ?_
  exact ⟨h, hpos, hneat⟩

/-- The way goes on up to an offset further on. -/
theorem Encloses.jump {i : Nat} {s₁ s₂ : State} (h : Encloses doc s xs s₁) (h' : Jumps doc s₁ i s₂)
    (hi : Quiet doc s s₁ → Boundary doc.text i ∧ s₁.pos ≤ i) : Encloses doc s xs s₂ where
  toExplains := by
    have := h.toExplains.append h'.toExplains
    rwa [List.append_nil] at this
  drift q := by
    have q₁ := q.first h.errors_le h'.errors_le
    obtain ⟨hboundary, hle⟩ := hi q₁
    have hd := h.drift q₁
    have hle : s₁.pos ≤ s₂.pos := h'.pos ▸ hle
    exact hd.until (h'.neat hd.neat hboundary) hle hle

end

end ShellAnalysis.Parse
