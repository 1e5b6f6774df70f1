import ShellAnalysis.Proofs.HeredocPlace
import ShellAnalysis.Proofs.Run

/-!
# How the state moves

`Valid doc s` is the invariant of every state: the position is a character
boundary, the counters are paid for by the bytes consumed, diagnostics lie in
the text, and the heredoc bodies that wait stand one after the other before the
position.

Three relations say how a state changes, each stronger than the one before.

    Drifts   any work: the position does not go back, bodies that are new were
             read from where the position was, and the rounds made are paid for
    Passes   work on tokens: nothing is consumed, or at least the token ahead
    Moves    a construct: if it consumes anything it leaves two rounds over

    tokens + pending ≤ pos          so no more tokens than bytes
    debt = iterations - 3 * pos     stays at 2 or less
-/

namespace ShellAnalysis

open Text

/-! ## Diagnostics -/

/-- A report that the tokens or the rounds of the whole document ran out. -/
def Diagnostic.IsBudget (d : Diagnostic) : Prop :=
  ∃ k span, d = .limit (.tokens k) span ∨ d = .limit (.iterations k) span

/-- A report that the parser itself failed. -/
def Diagnostic.IsFault (d : Diagnostic) : Prop := ∃ span, d = .fault span

/-- A diagnostic at a place in the text, and neither about the limits on the whole document nor about
the parser itself. -/
structure Diagnostic.Fair (text : String) (d : Diagnostic) : Prop where
  cut : Cut text d.span
  not_budget : ¬ d.IsBudget
  not_fault : ¬ d.IsFault

namespace Diagnostic

variable {text : String}

theorem not_isBudget_of_code {d : Diagnostic} {code : String} (hd : d.code = code)
    (hcode : code ≠ "E0004") : ¬ d.IsBudget := by
  rintro ⟨k, span, rfl | rfl⟩ <;> exact hcode hd.symm

theorem not_isFault_of_code {d : Diagnostic} {code : String} (hd : d.code = code)
    (hcode : code ≠ "E0005") : ¬ d.IsFault := by
  rintro ⟨span, rfl⟩
  exact hcode hd.symm

/-- The code of a diagnostic tells that it is neither of the two. -/
theorem fair_of_code {d : Diagnostic} {code : String} (h : Cut text d.span) (hd : d.code = code)
    (hbudget : code ≠ "E0004") (hfault : code ≠ "E0005") : d.Fair text :=
  ⟨h, not_isBudget_of_code hd hbudget, not_isFault_of_code hd hfault⟩

theorem fair_syntaxError {message : String} {span : Span} (h : Cut text span) :
    Fair text (.syntaxError message span) :=
  fair_of_code h (show _ = "E0001" from rfl) (by decide) (by decide)

theorem fair_unexpected {found expected : String} {span : Span} (h : Cut text span) :
    Fair text (.unexpected found expected span) := fair_syntaxError h

theorem fair_lexical {error : LexicalError} {span : Span} (h : Cut text span) :
    Fair text (.lexical error span) := by
  cases error with
  | delimiterTooLong => exact fair_of_code h (show _ = "E0003" from rfl) (by decide) (by decide)
  | _ => exact fair_of_code h (show _ = "E0002" from rfl) (by decide) (by decide)

theorem fair_detachedHeredoc {span : Span} (h : Cut text span) :
    Fair text (.detachedHeredoc span) :=
  fair_of_code h (show _ = "W0001" from rfl) (by decide) (by decide)

/-- A limit that was exceeded is no fault. -/
theorem not_isFault_limit {error : LimitError} {span : Span} : ¬ (limit error span).IsFault :=
  not_isFault_of_code (show _ = "E0004" from rfl) (by decide)

/-- The first letter of the message about a limit. -/
def initial : LimitError → Char
  | .tokens _ => 't'
  | .iterations _ => 'i'
  | .nesting _ => 'n'
  | .chain _ => 'o'

theorem head?_message (error : LimitError) :
    error.message.toList.head? = some (initial error) := by
  have hhead : ∀ (lead rest : String) (c : Char), lead.toList.head? = some c →
      (lead ++ rest).toList.head? = some c := by
    intro lead rest c hc
    rw [String.toList_append, List.head?_append, hc]
    rfl
  cases error with
  | tokens k => exact hhead _ _ _ (hhead "token limit of " _ 't' (by decide +kernel))
  | iterations k => exact hhead _ _ _ (hhead "iteration limit of " _ 'i' (by decide +kernel))
  | nesting k => exact hhead _ _ _ (hhead "nesting depth limit of " _ 'n' (by decide +kernel))
  | chain k => exact hhead _ _ _ (hhead "operator chain limit of " _ 'o' (by decide +kernel))

/-- The limits on one construct have messages of their own. -/
theorem fair_limit {error : LimitError} {span : Span} (h : Cut text span)
    (hlocal : error.isLocal = true) : Fair text (.limit error span) := by
  refine ⟨h, ?_, not_isFault_limit⟩
  have hinitial : ∀ error' : LimitError, error.message = error'.message →
      initial error = initial error' := by
    intro error' heq
    have hhead := head?_message error
    rw [heq, head?_message] at hhead
    exact (Option.some.inj hhead).symm
  rintro ⟨k, span', heq | heq⟩
  · have := hinitial (.tokens k) (congrArg Diagnostic.message heq)
    cases error with
    | nesting | chain => simp [initial] at this
    | _ => cases hlocal
  · have := hinitial (.iterations k) (congrArg Diagnostic.message heq)
    cases error with
    | nesting | chain => simp [initial] at this
    | _ => cases hlocal

end Diagnostic

namespace Parse

/-! ## Views of a state -/

/-- The token to be consumed next. -/
def State.ahead (doc : Document) (s : State) : Token :=
  significantAt doc.text (0 < s.nesting.newlineSkip) s.pos

/-- Where the token to be consumed next starts. -/
def State.front (doc : Document) (s : State) : Nat := (s.ahead doc).span.start

/-- The rounds made beyond three for each byte consumed. -/
def State.debt (s : State) : Int := s.iterations - 3 * s.pos

/-- A heredoc body that was read and ends at `hi` or before. -/
structure HeldBody (text : String) (hi : Nat) (b : Node) : Prop where
  isBody : b.IsBody
  sound : b.Sound text
  lt : b.start < b.stop
  le : b.stop ≤ hi

/-- The invariant of every state. -/
structure Valid (doc : Document) (s : State) : Prop where
  boundary : Boundary doc.text s.pos
  tokens : s.tokens + s.pending.length ≤ s.pos
  debt : s.debt ≤ 2
  diagnostics : ∀ d ∈ s.diagnostics.toList, d.Fair doc.text
  bodies : ∀ b ∈ s.bodies, HeldBody doc.text s.pos b
  inOrder : s.bodies.Pairwise fun b b' => b.stop ≤ b'.start

/-- The state with one more round counted. -/
def State.charge (s : State) : State := { s with iterations := s.iterations + 1 }

/-- What surrounds the position for the tokens ahead, and the open list, are the same. -/
structure Keeps (s s' : State) : Prop where
  skip : s'.nesting.newlineSkip = s.nesting.newlineSkip
  backticks : s'.nesting.backtickDepth = s.nesting.backtickDepth
  statements : s'.statements = s.statements

/-- The state goes on without going back. -/
structure Drifts (doc : Document) (s s' : State) : Prop extends Keeps s s' where
  valid : Valid doc s'
  depth : s'.nesting.depth = s.nesting.depth
  pos_le : s.pos ≤ s'.pos
  fresh : ∀ b ∈ s'.bodies, b ∈ s.bodies ∨ s.pos ≤ b.start
  debt_le : s'.debt ≤ s.debt

/-- The test on the position that the loops of the parser make. -/
theorem Drifts.pos_lt_of_not_beq {doc : Document} {s s' : State} (h : Drifts doc s s')
    (hmoved : ¬ (s'.pos == s.pos) = true) : s.pos < s'.pos :=
  Nat.lt_of_le_of_ne h.pos_le fun heq => hmoved (beq_iff_eq.2 heq.symm)

/-- The state goes past the token ahead, or not at all. -/
structure Passes (doc : Document) (s s' : State) : Prop extends Drifts doc s s' where
  leap : s'.pos = s.pos ∨ s.front doc < s'.pos
  past : ∀ b ∈ s'.bodies, b ∈ s.bodies ∨ s.front doc < b.start

/-- The state goes on by a construct. -/
structure Moves (doc : Document) (s s' : State) : Prop extends Passes doc s s' where
  paid : s.pos < s'.pos → s'.debt + 2 ≤ s.debt

section

variable {doc : Document} {s s₁ s₂ s' : State}

theorem Valid.le_size (h : Valid doc s) : s.pos ≤ size doc.text := h.boundary.le_size

theorem Valid.ahead (h : Valid doc s) : (s.ahead doc).ReadFrom doc.text s.pos :=
  significant_spec h.le_size

theorem Valid.pos_le_front (h : Valid doc s) : s.pos ≤ s.front doc := h.ahead.le

theorem Valid.front_lt_stop (h : Valid doc s) (hk : (s.ahead doc).kind ≠ .eof) :
    s.front doc < (s.ahead doc).span.stop := h.ahead.lt hk

theorem Valid.front_boundary (h : Valid doc s) : Boundary doc.text (s.front doc) := h.ahead.cut.1

/-- A state that differs only in what the invariant does not look at. -/
theorem Valid.congr (h : Valid doc s) (hpos : s'.pos = s.pos) (htokens : s'.tokens = s.tokens)
    (hiter : s'.iterations = s.iterations) (hpending : s'.pending = s.pending)
    (hbodies : s'.bodies = s.bodies) (hdiag : s'.diagnostics = s.diagnostics) : Valid doc s' where
  boundary := hpos ▸ h.boundary
  tokens := by rw [htokens, hpending, hpos]; exact h.tokens
  debt := by
    unfold State.debt
    rw [hiter, hpos]
    exact h.debt
  diagnostics := hdiag ▸ h.diagnostics
  bodies := by rw [hbodies, hpos]; exact h.bodies
  inOrder := hbodies ▸ h.inOrder

/-- A diagnostic more. -/
theorem Valid.report {d : Diagnostic} (h : Valid doc s) (hd : d.Fair doc.text) :
    Valid doc { s with diagnostics := s.diagnostics.push d } :=
  { h with
    diagnostics := by
      intro d' hd'
      rw [Array.toList_push] at hd'
      rcases List.mem_append.1 hd' with hd' | hd'
      · exact h.diagnostics d' hd'
      · rw [List.mem_singleton.1 hd']
        exact hd }

theorem ahead_congr (hpos : s'.pos = s.pos)
    (hskip : s'.nesting.newlineSkip = s.nesting.newlineSkip) : s'.ahead doc = s.ahead doc := by
  unfold State.ahead
  rw [hpos, hskip]

theorem front_congr (hpos : s'.pos = s.pos)
    (hskip : s'.nesting.newlineSkip = s.nesting.newlineSkip) : s'.front doc = s.front doc := by
  unfold State.front
  rw [ahead_congr hpos hskip]

/-! ## Putting moves together -/

theorem Keeps.refl (s : State) : Keeps s s := ⟨rfl, rfl, rfl⟩

theorem Keeps.trans (h : Keeps s s₁) (h' : Keeps s₁ s₂) : Keeps s s₂ :=
  ⟨h'.skip.trans h.skip, h'.backticks.trans h.backticks, h'.statements.trans h.statements⟩

theorem Drifts.trans (h : Drifts doc s s₁) (h' : Drifts doc s₁ s₂) : Drifts doc s s₂ where
  toKeeps := h.toKeeps.trans h'.toKeeps
  valid := h'.valid
  depth := h'.depth.trans h.depth
  pos_le := Nat.le_trans h.pos_le h'.pos_le
  fresh := fun b hb => by
    rcases h'.fresh b hb with hb | hb
    · exact h.fresh b hb
    · exact .inr (Nat.le_trans h.pos_le hb)
  debt_le := Int.le_trans h'.debt_le h.debt_le

theorem Moves.refl (h : Valid doc s) : Moves doc s s where
  toKeeps := .refl s
  valid := h
  depth := rfl
  pos_le := Nat.le_refl _
  fresh := fun _ => .inl
  leap := .inl rfl
  past := fun _ => .inl
  debt_le := Int.le_refl _
  paid := fun hlt => absurd hlt (Nat.lt_irrefl _)

/-- Nothing is consumed and no body is read. -/
theorem Moves.still (hv : Valid doc s') (hk : Keeps s s')
    (hdepth : s'.nesting.depth = s.nesting.depth) (hpos : s'.pos = s.pos)
    (hbodies : ∀ b ∈ s'.bodies, b ∈ s.bodies) (hdebt : s'.debt ≤ s.debt) : Moves doc s s' where
  toKeeps := hk
  valid := hv
  depth := hdepth
  pos_le := Nat.le_of_eq hpos.symm
  fresh := fun b hb => .inl (hbodies b hb)
  leap := .inl hpos
  past := fun b hb => .inl (hbodies b hb)
  debt_le := hdebt
  paid := fun hlt => by omega

theorem Passes.front_lt (h : Passes doc s s₁) (hlt : s.pos < s₁.pos) : s.front doc < s₁.pos := by
  rcases h.leap with heq | hfront
  · omega
  · exact hfront

theorem Passes.front_le (h : Passes doc s s₁) : s.front doc ≤ s₁.front doc := by
  rcases h.leap with heq | hfront
  · exact Nat.le_of_eq (front_congr heq h.skip).symm
  · exact Nat.le_trans (Nat.le_of_lt hfront) h.valid.pos_le_front

theorem Passes.trans (h : Passes doc s s₁) (h' : Passes doc s₁ s₂) : Passes doc s s₂ where
  toDrifts := h.toDrifts.trans h'.toDrifts
  leap := by
    rcases h.leap with heq | hlt
    · have hfront : s₁.front doc = s.front doc := front_congr heq h.skip
      rcases h'.leap with heq' | hlt'
      · exact .inl (heq'.trans heq)
      · exact .inr (hfront ▸ hlt')
    · exact .inr (Nat.lt_of_lt_of_le hlt h'.pos_le)
  past := fun b hb => by
    rcases h'.past b hb with hb | hb
    · exact h.past b hb
    · exact .inr (Nat.lt_of_le_of_lt h.front_le hb)

theorem Moves.trans (h : Moves doc s s₁) (h' : Moves doc s₁ s₂) : Moves doc s s₂ where
  toPasses := h.toPasses.trans h'.toPasses
  paid := fun hlt => by
    have h1 := h.debt_le
    have h2 := h'.debt_le
    rcases Nat.lt_or_ge s.pos s₁.pos with hlt₁ | hge
    · have := h.paid hlt₁
      omega
    · have := h'.paid (by omega)
      omega

/-- After a token was consumed, any work completes a move. -/
theorem Moves.drift (h : Moves doc s s₁) (hlt : s.pos < s₁.pos) (h' : Drifts doc s₁ s₂) :
    Moves doc s s₂ where
  toDrifts := h.toDrifts.trans h'
  leap := .inr (Nat.lt_of_lt_of_le (h.front_lt hlt) h'.pos_le)
  past := fun b hb => by
    rcases h'.fresh b hb with hb | hb
    · exact h.past b hb
    · exact .inr (Nat.lt_of_lt_of_le (h.front_lt hlt) hb)
  paid := fun _ => by
    have h1 := h.paid hlt
    have h2 := h'.debt_le
    omega

/-! ### Rounds -/

theorem debt_charge (s : State) : s.charge.debt = s.debt + 1 := by
  unfold State.debt State.charge
  simp only
  omega

theorem Valid.charge (h : Valid doc s) (hdebt : s.debt ≤ 1) : Valid doc s.charge :=
  { h with debt := by rw [debt_charge]; omega }

/-- A round that is paid for need not be made. -/
theorem Valid.uncharge (h : Valid doc s) : Drifts doc s.charge s where
  skip := rfl
  backticks := rfl
  statements := rfl
  valid := h
  depth := rfl
  pos_le := Nat.le_refl _
  fresh := fun _ => .inl
  debt_le := by rw [debt_charge]; omega

/-- One of the rounds that a construct leaves over is made. -/
theorem Moves.charge (h : Moves doc s s') (hv : Valid doc s) (hlt : s.pos < s'.pos) :
    Passes doc s s'.charge := by
  have h1 := h.paid hlt
  have h2 := hv.debt
  exact { h with
    valid := h.valid.charge (by omega)
    debt_le := by rw [debt_charge]; omega }

/-! ## Stopping -/

/-- A limit on the whole document is exceeded when it is reported. -/
def Exceeds (doc : Document) (s : State) : LimitError → Prop
  | .tokens k => k = doc.limits.tokens ∧ k < s.tokens
  | .iterations k => k = doc.limits.iterations ∧ k < s.iterations
  | .nesting _ | .chain _ => True

/-- What holds whenever a limit stops a parser. -/
structure Spoils (doc : Document) (s : State) (error : LimitError) (s' : State) : Prop
    extends Keeps s s' where
  tokens_le : s'.tokens ≤ size doc.text
  iterations_le : s'.iterations ≤ 3 * (size doc.text + 1)
  diagnostics : ∀ d ∈ s'.diagnostics.toList, d.Fair doc.text
  exceeds : Exceeds doc s' error

/-- A limit on the whole document stops the parser. -/
def Aborts (doc : Document) (s : State) : Stopped → State → Prop
  | .limit error, s' => error.isLocal = false ∧ Spoils doc s error s'
  | .fault, _ => False

/-- The state in the nesting of another one. -/
def State.renest (s s₀ : State) : State := { s with nesting := s₀.nesting }

/-- A limit stops the parser; one on a construct leaves a state from which the list can go on in the
nesting it had. -/
def Fails (doc : Document) (s : State) : Stopped → State → Prop
  | .limit error, s' => Spoils doc s error s' ∧ (error.isLocal = true → Moves doc s (s'.renest s))
  | .fault, _ => False

theorem Drifts.renest (h : Drifts doc s s') : Drifts doc s (s'.renest s) :=
  { h with
    skip := rfl
    backticks := rfl
    depth := rfl
    valid := h.valid.congr rfl rfl rfl rfl rfl rfl }

theorem Moves.renest (h : Moves doc s s') : Moves doc s (s'.renest s) :=
  { h.toDrifts.renest with
    leap := h.leap
    past := h.past
    paid := h.paid }

/-- The same, but the way there need not have been one of tokens. -/
def Strays (doc : Document) (s : State) : Stopped → State → Prop
  | .limit error, s' => Spoils doc s error s' ∧ (error.isLocal = true → Drifts doc s (s'.renest s))
  | .fault, _ => False

theorem Aborts.rebase {e : Stopped} (hk : Keeps s s₁) (h : Aborts doc s₁ e s') :
    Aborts doc s e s' := by
  cases e with
  | limit error =>
    obtain ⟨hglobal, hspoils⟩ := h
    exact ⟨hglobal, { hspoils with toKeeps := hk.trans hspoils.toKeeps }⟩
  | fault => exact h

theorem Aborts.fails {e : Stopped} (h : Aborts doc s e s') : Fails doc s e s' := by
  cases e with
  | limit error =>
    obtain ⟨hglobal, hspoils⟩ := h
    exact ⟨hspoils, fun hlocal => by rw [hglobal] at hlocal; cases hlocal⟩
  | fault => exact h

theorem Fails.rebase {e : Stopped} (hm : Moves doc s s₁) (h : Fails doc s₁ e s') :
    Fails doc s e s' := by
  cases e with
  | limit error =>
    obtain ⟨hspoils, hlocal⟩ := h
    exact ⟨{ hspoils with toKeeps := hm.toKeeps.trans hspoils.toKeeps },
      fun h => (hm.trans (hlocal h)).renest⟩
  | fault => exact h

theorem Fails.strays {e : Stopped} (h : Fails doc s e s') : Strays doc s e s' := by
  cases e with
  | limit error => exact ⟨h.1, fun hlocal => (h.2 hlocal).toDrifts⟩
  | fault => exact h

theorem Strays.rebase {e : Stopped} (hd : Drifts doc s s₁) (h : Strays doc s₁ e s') :
    Strays doc s e s' := by
  cases e with
  | limit error =>
    obtain ⟨hspoils, hlocal⟩ := h
    exact ⟨{ hspoils with toKeeps := hd.toKeeps.trans hspoils.toKeeps },
      fun h => (hd.trans (hlocal h)).renest⟩
  | fault => exact h

theorem Strays.fails {e : Stopped} (hm : Moves doc s s₁) (hlt : s.pos < s₁.pos)
    (h : Strays doc s₁ e s') : Fails doc s e s' := by
  cases e with
  | limit error =>
    obtain ⟨hspoils, hlocal⟩ := h
    exact ⟨{ hspoils with toKeeps := hm.toKeeps.trans hspoils.toKeeps },
      fun h => (hm.drift hlt (hlocal h)).renest⟩
  | fault => exact h

end

section

variable {α : Type} {doc : Document} {p : Parser α} {s s₁ s' : State} {Q : α → State → Prop}

/-- A construct inside another one that began at `s`. -/
theorem Runs.inside (h : Runs doc (Fails doc s₁) p s' Q) (hm : Moves doc s s₁) :
    Runs doc (Fails doc s) p s' Q := h.imp_fail fun _ _ => .rebase hm

/-- A step inside a construct that began at `s`. -/
theorem Runs.stepIn (h : Runs doc (Aborts doc s₁) p s₁ Q) (hk : Keeps s s₁) :
    Runs doc (Fails doc s) p s₁ Q := h.imp_fail fun _ _ hf => (hf.rebase hk).fails

/-- A step on the way from `s`. -/
theorem Runs.stepOn (h : Runs doc (Aborts doc s₁) p s₁ Q) (hk : Keeps s s₁) :
    Runs doc (Strays doc s) p s₁ Q := h.imp_fail fun _ _ hf => (hf.rebase hk).fails.strays

/-- A construct on the way from `s`. -/
theorem Runs.along (h : Runs doc (Fails doc s₁) p s' Q) (hd : Drifts doc s s₁) :
    Runs doc (Strays doc s) p s' Q := h.imp_fail fun _ _ hf => hf.strays.rebase hd

/-- After the first token of a construct its limits are those on the way from there. -/
theorem Runs.begun (h : Runs doc (Strays doc s₁) p s' Q) (hm : Moves doc s s₁)
    (hlt : s.pos < s₁.pos) : Runs doc (Fails doc s) p s' Q :=
  h.imp_fail fun _ _ => Strays.fails hm hlt

end

end Parse

end ShellAnalysis
