import ShellAnalysis.Proofs.Layout

/-!
# Levels of the grammar

Brackets change what surrounds the position and change it back
(`within_runs`), and every construct that nests goes one level deeper and comes
back (`Yields.leave`).

`Grammar.Obeys doc d g` is what the productions of one level promise when they
are run at depth `d`; `Enters doc d enter` says that `enter` goes from depth
`d` to such a level or stops at the nesting limit.  Every production is proved
to keep its promise from `Enters` alone.
-/

namespace ShellAnalysis.Parse

open Text Node

/-! ## Changing the nesting -/

/-- The state in a changed nesting. -/
def State.nest (s : State) (change : Nesting → Nesting) : State :=
  { s with nesting := change s.nesting }

/-- One construct deeper. -/
def State.deeper (s : State) : State := s.nest fun n => { n with depth := n.depth + 1 }

/-- One construct less deep. -/
def State.shallower (s : State) : State := s.nest fun n => { n with depth := n.depth - 1 }

/-- Inside brackets, where newlines are blanks. -/
def State.skipping (s : State) : State := s.nest fun n => { n with newlineSkip := n.newlineSkip + 1 }

/-- Where newlines are tokens. -/
def State.keeping (s : State) : State := s.nest fun n => { n with newlineSkip := 0 }

/-- Inside backticks. -/
def State.ticked (s : State) : State :=
  s.nest fun n => { n with backtickDepth := n.backtickDepth + 1 }

section

variable {doc : Document} {s s' : State} {e : Edge} {xs : List Node}

theorem Valid.nest (h : Valid doc s) (change : Nesting → Nesting) : Valid doc (s.nest change) :=
  h.congr rfl rfl rfl rfl rfl rfl

theorem keeps_deeper (s : State) : Keeps s s.deeper := ⟨rfl, rfl, rfl⟩

/-- A construct that was entered is left. -/
theorem Drifts.leave (h : Drifts doc s.deeper s') : Drifts doc s s'.shallower where
  skip := h.skip
  backticks := h.backticks
  statements := h.statements
  valid := h.valid.nest _
  depth := congrArg (· - 1) h.depth
  pos_le := h.pos_le
  fresh := h.fresh
  debt_le := h.debt_le

theorem Moves.leave (h : Moves doc s.deeper s') : Moves doc s s'.shallower :=
  { h.toDrifts.leave with
    leap := h.leap
    past := h.past
    paid := h.paid }

theorem Yields.leave (h : Yields doc e s.deeper xs s') : Yields doc e s xs s'.shallower where
  toMoves := h.toMoves.leave
  laid := by
    cases e with
    | final => exact h.laid
    | ahead => exact h.laid
  firm := h.firm

/-- The same for work on the way. -/
theorem Strays.leave {e : Stopped} (h : Strays doc s.deeper e s') : Strays doc s e s' := by
  cases e with
  | limit error =>
    obtain ⟨hspoils, hlocal⟩ := h
    refine ⟨{ hspoils with toKeeps := ⟨hspoils.skip, hspoils.backticks, hspoils.statements⟩ },
      fun hl => ?_⟩
    exact (hlocal hl).leave.renest
  | fault => exact h

/-- A limit met one level deeper is one met here. -/
theorem Fails.leave {e : Stopped} (h : Fails doc s.deeper e s') : Fails doc s e s' := by
  cases e with
  | limit error =>
    obtain ⟨hspoils, hlocal⟩ := h
    refine ⟨{ hspoils with toKeeps := ⟨hspoils.skip, hspoils.backticks, hspoils.statements⟩ },
      fun hl => ?_⟩
    exact (hlocal hl).leave.renest
  | fault => exact h

theorem runs_ascend {β : Type} {fail : Stopped → State → Prop} {f : Unit → Parser β}
    {Q : β → State → Prop} :
    Runs doc fail (ascend >>= f) s Q ↔ Runs doc fail (f ()) s.shallower Q := Iff.rfl

theorem runs_releaseFolds {β : Type} {fail : Stopped → State → Prop} {folds : Nat}
    {f : Unit → Parser β} {Q : β → State → Prop} :
    Runs doc fail (releaseFolds folds >>= f) s Q ↔
      Runs doc fail (f ()) (s.nest fun n => { n with chain := n.chain - folds }) Q := Iff.rfl

/-! ## Limits on a construct -/

/-- The operators folded into the open expressions do not matter. -/
theorem Valid.refold (h : Valid doc s) (change : Nat → Nat) :
    Moves doc s (s.nest fun n => { n with chain := change n.chain }) :=
  .still (h.nest _) ⟨rfl, rfl, rfl⟩ rfl rfl (fun _ hb => hb) (Int.le_refl _)

/-- A construct that is given up where it would begin. -/
theorem Valid.fails {error : LimitError} {change : Nesting → Nesting} (h : Valid doc s)
    (hlocal : error.isLocal = true) (hk : Keeps s (s.nest change)) :
    Fails doc s (.limit error) (s.nest change) := by
  have htokens := h.tokens
  have hdebt := h.debt
  have hle := h.le_size
  unfold State.debt at hdebt
  refine ⟨{ hk with
    tokens_le := show s.tokens ≤ _ by omega
    iterations_le := show s.iterations ≤ _ by omega
    diagnostics := h.diagnostics
    exceeds := ?_ }, fun _ => Moves.refl h⟩
  cases error with
  | nesting | chain => trivial
  | _ => cases hlocal

theorem fold_runs (hv : Valid doc s) :
    Runs doc (Fails doc s) fold s fun _ s' =>
      s' = s.nest fun n => { n with chain := n.chain + 1 } := by
  by_cases hlimit : doc.limits.chain < s.nesting.chain + 1
  · have heq : fold doc s = .error (.limit (.chain doc.limits.chain))
        (s.nest fun n => { n with chain := n.chain + 1 }) := by
      show (if doc.limits.chain < s.nesting.chain + 1 then _ else _ : Parser Unit) doc _ = _
      rw [if_pos hlimit]
      rfl
    unfold Runs
    rw [heq]
    exact hv.fails rfl ⟨rfl, rfl, rfl⟩
  · have heq : fold doc s = .ok () (s.nest fun n => { n with chain := n.chain + 1 }) := by
      show (if doc.limits.chain < s.nesting.chain + 1 then _ else _ : Parser Unit) doc _ = _
      rw [if_neg hlimit]
      rfl
    unfold Runs
    rw [heq]

/-! ## Brackets -/

/-- A parser runs in a nesting that can be left again.  What is known of it there is counted from
`s₁`, which is `s` up to its counters. -/
theorem within_runs {α : Type} {p : Parser α} {enter : Nesting → Nesting}
    {leave : Nesting → Option Nesting} {s₁ : State} {R : α → State → Prop}
    (hdepth : (enter s₁.nesting).depth = s₁.nesting.depth)
    (hleave : ∀ s₂, Keeps (s₁.nest enter) s₂ → ∃ n, leave s₂.nesting = some n ∧
      enter n = s₂.nesting ∧ n.newlineSkip = s₁.nesting.newlineSkip ∧
      n.backtickDepth = s₁.nesting.backtickDepth ∧ n.depth = s₂.nesting.depth)
    (h : Runs doc (Strays doc (s₁.nest enter)) p (s.nest enter) fun a s₂ =>
      Drifts doc (s₁.nest enter) s₂ ∧ R a s₂) :
    Runs doc (Strays doc s₁) (within enter leave p) s fun a s' =>
      Drifts doc s₁ s' ∧ R a (s'.nest enter) := by
  have hback : ∀ s₂ n, Drifts doc (s₁.nest enter) s₂ →
      n.newlineSkip = s₁.nesting.newlineSkip → n.backtickDepth = s₁.nesting.backtickDepth →
      n.depth = s₂.nesting.depth → Drifts doc s₁ { s₂ with nesting := n } := by
    intro s₂ n hd hskip hback hn
    exact {
      skip := hskip
      backticks := hback
      statements := hd.statements
      valid := hd.valid.congr rfl rfl rfl rfl rfl rfl
      depth := hn.trans (hd.depth.trans hdepth)
      pos_le := hd.pos_le
      fresh := hd.fresh
      debt_le := hd.debt_le }
  change Runs doc _ p { s with nesting := enter s.nesting } _ at h
  unfold Runs at h ⊢
  unfold within
  cases hp : p doc { s with nesting := enter s.nesting } with
  | ok a s₂ =>
    rw [hp] at h
    obtain ⟨n, hn, heq, hskip, hticks, hn'⟩ := hleave s₂ h.1.toKeeps
    simp only [hn]
    refine ⟨hback s₂ n h.1 hskip hticks hn', ?_⟩
    rw [show ({ s₂ with nesting := n } : State).nest enter = s₂ by unfold State.nest; rw [heq]]
    exact h.2
  | error e s₂ =>
    rw [hp] at h
    cases e with
    | fault => exact h.elim
    | limit error =>
      obtain ⟨hspoils, hlocal⟩ := h
      obtain ⟨n, hn, heq, hskip, hticks, hn'⟩ := hleave s₂ hspoils.toKeeps
      simp only [hn]
      refine ⟨{ hspoils with toKeeps := ⟨hskip, hticks, hspoils.statements⟩ }, fun hl => ?_⟩
      exact (hback _ s₁.nesting (hlocal hl) rfl rfl hdepth.symm).renest

section

variable {α : Type} {p : Parser α} {s₁ : State} {R : α → State → Prop}

theorem skippingNewlines_runs
    (h : Runs doc (Strays doc s₁.skipping) p s.skipping fun a s₂ =>
      Drifts doc s₁.skipping s₂ ∧ R a s₂) :
    Runs doc (Strays doc s₁) (skippingNewlines p) s fun a s' =>
      Drifts doc s₁ s' ∧ R a s'.skipping := by
  refine within_runs rfl ?_ h
  intro s₂ hk
  have hskip : s₂.nesting.newlineSkip = s₁.nesting.newlineSkip + 1 := hk.skip
  refine ⟨{ s₂.nesting with newlineSkip := s₁.nesting.newlineSkip }, ?_, ?_, rfl, hk.backticks, rfl⟩
  · rw [hskip]
    rfl
  · rw [← hskip]

theorem insideBackticks_runs
    (h : Runs doc (Strays doc s₁.ticked) p s.ticked fun a s₂ =>
      Drifts doc s₁.ticked s₂ ∧ R a s₂) :
    Runs doc (Strays doc s₁) (insideBackticks p) s fun a s' =>
      Drifts doc s₁ s' ∧ R a s'.ticked := by
  refine within_runs rfl ?_ h
  intro s₂ hk
  have hticks : s₂.nesting.backtickDepth = s₁.nesting.backtickDepth + 1 := hk.backticks
  refine ⟨{ s₂.nesting with backtickDepth := s₁.nesting.backtickDepth }, ?_, ?_, hk.skip, rfl, rfl⟩
  · rw [hticks]
    rfl
  · rw [← hticks]

theorem withNewlines_runs (hskip : s.nesting.newlineSkip = s₁.nesting.newlineSkip)
    (h : Runs doc (Strays doc s₁.keeping) p s.keeping fun a s₂ =>
      Drifts doc s₁.keeping s₂ ∧ R a s₂) :
    Runs doc (Strays doc s₁) (withNewlines p) s fun a s' =>
      Drifts doc s₁ s' ∧ R a s'.keeping := by
  unfold withNewlines
  rw [runs_get]
  refine within_runs rfl ?_ h
  intro s₂ hk
  have hzero : s₂.nesting.newlineSkip = 0 := hk.skip
  refine ⟨{ s₂.nesting with newlineSkip := s.nesting.newlineSkip }, rfl, ?_, hskip, hk.backticks, rfl⟩
  rw [← hzero]

end

end

/-! ## What a level promises -/

/-- The statements of a list that was read, one round beyond what is paid for. -/
structure Listed (doc : Document) (stops : List StopAt) (stopAfterBlock : Bool) (s : State)
    (xs : List Node) (s' : State) : Prop extends Passes doc s.charge s' where
  laid : Laid doc .ahead s xs s'
  /-- The block argument of the last statement can be put behind the rest. -/
  tail : ∀ xs' k, takeLastBlock? xs = some (some (xs', k)) →
    Laid doc .ahead s (xs' ++ [k]) s' ∧ ¬ k.IsBody
  ends : stopAfterBlock = false →
    (s'.ahead doc).kind = .eof ∨ atStop stops doc s' = .ok true s'

/-- A backtick is ahead that closes the substitution around it. -/
def State.closes (doc : Document) (s : State) : Bool :=
  (s.ahead doc).kind == .backtick && decide (0 < s.nesting.backtickDepth)

/-- The token ahead starts an expression. -/
def State.opens (doc : Document) (s : State) : Bool :=
  !s.closes doc && startsOperand (s.ahead doc).kind

/-- What the productions of a level at depth `d` do. -/
structure Grammar.Obeys (doc : Document) (d : Nat) (g : Grammar) : Prop where
  statements : ∀ {s} stops stopAfterBlock, Valid doc s.charge → s.nesting.depth = d →
    Runs doc (Aborts doc s) (g.statements stops stopAfterBlock) s
      (Listed doc stops stopAfterBlock s)
  expression : ∀ {s} power, Valid doc s → s.nesting.depth = d →
    Runs doc (Fails doc s) (g.expression power) s fun v s' =>
      Yields doc .final s [v] s' ∧ (s.opens doc = true → s.pos < s'.pos)
  operators : ∀ {s} power, Valid doc s → s.nesting.depth + 1 = d →
    Runs doc (Fails doc s) (g.operators power) s.deeper fun v s' =>
      Yields doc .final s [v] s' ∧ (s.opens doc = true → s.pos < s'.pos)
  word : ∀ {s}, Valid doc s → s.nesting.depth = d → atWord doc s = .ok true s →
    Runs doc (Fails doc s) g.word s fun v s' => Yields doc .final s [v] s' ∧ s.pos < s'.pos
  stringLiteral : ∀ {s}, Valid doc s → s.nesting.depth = d → (s.ahead doc).kind.isQuote = true →
    Runs doc (Fails doc s) g.stringLiteral s fun v s' =>
      Yields doc .final s [v] s' ∧ s.pos < s'.pos
  block : ∀ {s}, Valid doc s → s.nesting.depth = d → (s.ahead doc).kind = .braceOpen →
    Runs doc (Fails doc s) g.block s fun v s' => Yields doc .final s [v] s' ∧ s.pos < s'.pos

/-- A list that only one kind of token ends, ends there or at the end of the text. -/
theorem Listed.ends_at {doc : Document} {s s₁ : State} {stop : StopAt} {kind : TokenKind}
    {xs : List Node} (h : Listed doc [stop] false s xs s₁) (hstop : stop.holds = atKind kind) :
    (s₁.ahead doc).kind = .eof ∨ (s₁.ahead doc).kind = kind := by
  refine (h.ends rfl).imp_right fun hat => ?_
  have hrun : Runs doc (fun _ _ => False) (atStop [stop]) s₁ fun b _ =>
      b = true → (s₁.ahead doc).kind = kind := by
    unfold atStop
    rw [List.anyM, hstop, runs_atKind]
    split
    · rename_i heq
      exact fun _ => beq_iff_eq.1 heq
    · exact fun h => by cases h
  exact hrun.of_ok hat rfl

/-- The token that ends a list closes it, and so does the end of the text. -/
theorem Laid.close {doc : Document} {s s₁ : State} {kind : TokenKind} {what : String}
    {xs : List Node} (h : Laid doc .ahead s xs s₁) (hv : Valid doc s₁)
    (hends : (s₁.ahead doc).kind = .eof ∨ (s₁.ahead doc).kind = kind)
    (hkind : kind ≠ .eof) :
    Runs doc (Aborts doc s₁) (expect kind what) s₁ fun _ s' =>
      Moves doc s₁ s' ∧ Laid doc .final s xs s' := by
  refine (expect_runs hv hkind).imp fun _ s' h' => ?_
  rcases h' with ⟨-, h'⟩ | ⟨hne, h'⟩
  · exact ⟨h'.toMoves, h.final_of_lt h'.pos_le h'.front_lt⟩
  · refine ⟨h'.moves, Laid.until_drift ?_ h'.moves.toDrifts⟩
    exact h.final_of_eof hv (hends.resolve_right hne)

/-- The way from depth `d` to the next level. -/
def Enters (doc : Document) (d : Nat) (enter : Parser Grammar) : Prop :=
  ∀ {s}, Valid doc s → s.nesting.depth = d →
    Runs doc (Fails doc s) enter s fun g s' => g.Obeys doc (d + 1) ∧ s' = s.deeper

end ShellAnalysis.Parse
