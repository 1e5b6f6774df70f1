import ShellAnalysis.Proofs.Progress

/-!
# Steps of a parser

One lemma for each primitive: what it leaves behind and what it takes to run
it.  Looking at the state is replaced by what is seen (`runs_current` and the
lemmas beside it).  Consuming a token needs one that is not the end of the text
(`bump_runs`); every other primitive that consumes is made from it or from
`advanceTo_runs`.
-/

namespace ShellAnalysis.Parse

open Text

/-! ## Looking -/

section

variable {β : Type} {doc : Document} {fail : Stopped → State → Prop} {s : State}
  {Q : β → State → Prop}

theorem runs_source {f : String → Parser β} :
    Runs doc fail (source >>= f) s Q ↔ Runs doc fail (f doc.text) s Q := Iff.rfl

theorem runs_get {f : State → Parser β} :
    Runs doc fail (get >>= f) s Q ↔ Runs doc fail (f s) s Q := Iff.rfl

theorem runs_position {f : Nat → Parser β} :
    Runs doc fail (position >>= f) s Q ↔ Runs doc fail (f s.pos) s Q := Iff.rfl

theorem runs_orFault {α : Type} {a : α} {f : α → Parser β} :
    Runs doc fail (orFault (some a) >>= f) s Q ↔ Runs doc fail (f a) s Q := Iff.rfl

theorem runs_between {start stop : Nat} (h : start ≤ stop) {f : Span → Parser β} :
    Runs doc fail (orFault (Span.between? start stop) >>= f) s Q ↔
      Runs doc fail (f (.upTo start stop)) s Q := by
  rw [Span.between?_of_le h]
  exact Iff.rfl

theorem runs_positionInText (h : s.pos ≤ size doc.text) {f : Nat → Parser β} :
    Runs doc fail (positionInText >>= f) s Q ↔ Runs doc fail (f s.pos) s Q := by
  show Runs doc fail ((do return (← orFault (Span.between? s.pos (size doc.text))).start) >>= f) s Q ↔ _
  rw [Span.between?_of_le h]
  exact Iff.rfl

theorem runs_current {f : Token → Parser β} :
    Runs doc fail (current >>= f) s Q ↔ Runs doc fail (f (s.ahead doc)) s Q := Iff.rfl

theorem runs_currentKind {f : TokenKind → Parser β} :
    Runs doc fail (currentKind >>= f) s Q ↔ Runs doc fail (f (s.ahead doc).kind) s Q := Iff.rfl

theorem runs_atKind {kind : TokenKind} {f : Bool → Parser β} :
    Runs doc fail (atKind kind >>= f) s Q ↔
      Runs doc fail (f ((s.ahead doc).kind == kind)) s Q := Iff.rfl

theorem runs_startOffset {f : Nat → Parser β} :
    Runs doc fail (startOffset >>= f) s Q ↔ Runs doc fail (f (s.front doc)) s Q := Iff.rfl

theorem runs_spanFrom {start : Nat} {f : Span → Parser β} :
    Runs doc fail (spanFrom start >>= f) s Q ↔ Runs doc fail (f (.upTo start s.pos)) s Q := Iff.rfl

theorem runs_tokenText {t : Token} {f : String → Parser β} :
    Runs doc fail (tokenText t >>= f) s Q ↔ Runs doc fail (f (t.text doc.text)) s Q := Iff.rfl

theorem runs_adjacent {f : Bool → Parser β} :
    Runs doc fail (adjacent >>= f) s Q ↔ Runs doc fail (f (s.front doc == s.pos)) s Q := Iff.rfl

/-- The token after the one ahead. -/
def State.second (doc : Document) (s : State) : Token :=
  significantAt doc.text (0 < s.nesting.newlineSkip) (s.ahead doc).span.stop

theorem runs_peek {f : Token → Parser β} :
    Runs doc fail (peek >>= f) s Q ↔ Runs doc fail (f (s.second doc)) s Q := Iff.rfl

/-- The token glued to another one. -/
def gluedToken? (text : String) (t : Token) : Option Token :=
  let next := Lexer.tokenAt text t.span.stop
  if next.span.start == t.span.stop then some next else none

theorem runs_gluedTo {t : Token} {f : Option Token → Parser β} :
    Runs doc fail (gluedTo t >>= f) s Q ↔ Runs doc fail (f (gluedToken? doc.text t)) s Q := Iff.rfl

theorem gluedAfter_looks (t : Token) : Looks (gluedAfter t) := fun _ _ => ⟨_, rfl⟩

theorem foundText_looks (t : Token) : Looks (foundText t) := by
  unfold foundText
  split <;> exact fun _ _ => ⟨_, rfl⟩

theorem atKind_looks (kind : TokenKind) : Looks (atKind kind) := fun _ _ => ⟨_, rfl⟩

theorem atKind_true {kind : TokenKind} (h : atKind kind doc s = .ok true s) :
    (s.ahead doc).kind = kind := by
  have h : EStateM.Result.ok ((s.ahead doc).kind == kind) s = (.ok true s : EStateM.Result Stopped _ _) := h
  simpa using h

theorem atKind_false {kind : TokenKind} (h : atKind kind doc s = .ok false s) :
    (s.ahead doc).kind ≠ kind := by
  have h : EStateM.Result.ok ((s.ahead doc).kind == kind) s = (.ok false s : EStateM.Result Stopped _ _) := h
  simpa using h

theorem atKeyword_looks (word : String) : Looks (atKeyword word) := fun _ _ => ⟨_, rfl⟩

instance : Looking source := ⟨fun _ _ => ⟨_, rfl⟩⟩
instance : Looking position := ⟨fun _ _ => ⟨_, rfl⟩⟩
instance : Looking current := ⟨fun _ _ => ⟨_, rfl⟩⟩
instance : Looking currentKind := ⟨fun _ _ => ⟨_, rfl⟩⟩
instance : Looking startOffset := ⟨fun _ _ => ⟨_, rfl⟩⟩
instance : Looking peek := ⟨fun _ _ => ⟨_, rfl⟩⟩
instance : Looking adjacent := ⟨fun _ _ => ⟨_, rfl⟩⟩
instance : Looking (get : Parser State) := ⟨fun _ _ => ⟨_, rfl⟩⟩
instance : Looking (read : Parser Document) := ⟨fun _ _ => ⟨_, rfl⟩⟩
instance (kind : TokenKind) : Looking (atKind kind) := ⟨atKind_looks kind⟩
instance (word : String) : Looking (atKeyword word) := ⟨atKeyword_looks word⟩
instance (t : Token) : Looking (gluedAfter t) := ⟨gluedAfter_looks t⟩
instance (t : Token) : Looking (tokenText t) := ⟨fun _ _ => ⟨_, rfl⟩⟩
instance (t : Token) : Looking (foundText t) := ⟨foundText_looks t⟩
instance (start : Nat) : Looking (spanFrom start) := ⟨fun _ _ => ⟨_, rfl⟩⟩

/-- A keyword is a name. -/
theorem atKeyword_true {word : String} (h : atKeyword word doc s = .ok true s) :
    (s.ahead doc).kind = .ident := by
  have h : EStateM.Result.ok ((s.ahead doc).isWord doc.text word && _) s =
    (.ok true s : EStateM.Result Stopped _ _) := h
  simp only [EStateM.Result.ok.injEq, Bool.and_eq_true, Token.isWord, beq_iff_eq] at h
  exact h.1.1.1

end

/-! ## Standing still -/

/-- Nothing is consumed; at most there is one more diagnostic. -/
structure Still (doc : Document) (s s' : State) : Prop where
  valid : Valid doc s'
  pos : s'.pos = s.pos
  nesting : s'.nesting = s.nesting
  bodies : s'.bodies = s.bodies
  statements : s'.statements = s.statements
  iterations : s'.iterations = s.iterations
  tokens : s'.tokens = s.tokens
  pending : s'.pending = s.pending

section

variable {doc : Document} {s s₁ s₂ s' : State}

theorem Still.refl (h : Valid doc s) : Still doc s s := ⟨h, rfl, rfl, rfl, rfl, rfl, rfl, rfl⟩

theorem Still.ahead (h : Still doc s s') : s'.ahead doc = s.ahead doc :=
  ahead_congr h.pos (by rw [h.nesting])

theorem Still.front (h : Still doc s s') : s'.front doc = s.front doc :=
  front_congr h.pos (by rw [h.nesting])

theorem Still.debt (h : Still doc s s') : s'.debt = s.debt := by
  unfold State.debt
  rw [h.pos, h.iterations]

theorem Still.keeps (h : Still doc s s') : Keeps s s' :=
  ⟨by rw [h.nesting], by rw [h.nesting], h.statements⟩

theorem Still.moves (h : Still doc s s') : Moves doc s s' :=
  .still h.valid h.keeps (by rw [h.nesting]) h.pos (fun _ hb => h.bodies ▸ hb)
    (Int.le_of_eq h.debt)

end

section

variable {doc : Document} {fail : Stopped → State → Prop} {s : State}

theorem report_runs {d : Diagnostic} (hv : Valid doc s) (hd : d.Fair doc.text) :
    Runs doc fail (report d) s fun _ s' => Still doc s s' :=
  (⟨hv.report hd, rfl, rfl, rfl, rfl, rfl, rfl, rfl⟩ : Still doc s _)

theorem reportExpected_runs {what : String} (hv : Valid doc s) :
    Runs doc fail (reportExpected what) s fun _ s' => Still doc s s' := by
  unfold reportExpected
  rw [runs_current]
  exact .look (foundText_looks _) fun found _ => report_runs hv (Diagnostic.fair_unexpected hv.ahead.cut)

theorem require_runs {found : Bool} {what : String} (hv : Valid doc s) :
    Runs doc fail (require found what) s fun _ s' => Still doc s s' := by
  unfold require
  split
  · exact reportExpected_runs hv
  · exact Still.refl hv

theorem missing_runs {what : String} (hv : Valid doc s) :
    Runs doc fail (missing what) s fun v s' => v = .error (.empty s.pos) ∧ Still doc s s' := by
  unfold missing
  refine (reportExpected_runs hv).bind fun _ s₁ h₁ => ?_
  rw [runs_position, h₁.pos]
  exact ⟨rfl, h₁⟩

/-! ## Counting -/

theorem countToken_runs (hv : Valid doc s) (hpay : s.tokens + 1 ≤ size doc.text) :
    Runs doc (Aborts doc s) countToken s fun _ s' => s' = { s with tokens := s.tokens + 1 } := by
  have hiter : s.iterations ≤ 3 * (size doc.text + 1) := by
    have h1 := hv.debt
    have h2 := hv.le_size
    unfold State.debt at h1
    omega
  by_cases hlimit : doc.limits.tokens < s.tokens + 1
  · have heq : countToken doc s =
        .error (.limit (.tokens doc.limits.tokens)) { s with tokens := s.tokens + 1 } := by
      show (if doc.limits.tokens < s.tokens + 1 then _ else _ : Parser Unit) doc _ = _
      rw [if_pos hlimit]
      rfl
    unfold Runs
    rw [heq]
    exact ⟨rfl, ⟨rfl, rfl, rfl⟩, hpay, hiter, hv.diagnostics, rfl, hlimit⟩
  · have heq : countToken doc s = .ok () { s with tokens := s.tokens + 1 } := by
      show (if doc.limits.tokens < s.tokens + 1 then _ else _ : Parser Unit) doc _ = _
      rw [if_neg hlimit]
      rfl
    unfold Runs
    rw [heq]

theorem countIteration_runs (hv : Valid doc s) :
    Runs doc (Aborts doc s) countIteration s fun _ s' => s' = s.charge := by
  have hiter : s.iterations + 1 ≤ 3 * (size doc.text + 1) := by
    have h1 := hv.debt
    have h2 := hv.le_size
    unfold State.debt at h1
    omega
  have htokens : s.tokens ≤ size doc.text := by
    have h1 := hv.tokens
    have h2 := hv.le_size
    omega
  by_cases hlimit : doc.limits.iterations < s.iterations + 1
  · have heq : countIteration doc s = .error (.limit (.iterations doc.limits.iterations))
        { s with iterations := s.iterations + 1 } := by
      show (if doc.limits.iterations < s.iterations + 1 then _ else _ : Parser Unit) doc _ = _
      rw [if_pos hlimit]
      rfl
    unfold Runs
    rw [heq]
    exact ⟨rfl, ⟨rfl, rfl, rfl⟩, htokens, hiter, hv.diagnostics, rfl, hlimit⟩
  · have heq : countIteration doc s = .ok () s.charge := by
      show (if doc.limits.iterations < s.iterations + 1 then _ else _ : Parser Unit) doc _ = _
      rw [if_neg hlimit]
      rfl
    unfold Runs
    rw [heq]

end

/-! ## Consuming -/

/-- The state after consuming up to an offset. -/
structure Advanced (doc : Document) (s : State) (i : Nat) (s' : State) : Prop
    extends Drifts doc s s' where
  pos : s'.pos = i
  bodies : s'.bodies = s.bodies
  pending : s'.pending = s.pending
  tokens : s'.tokens = s.tokens + 1

section

variable {doc : Document} {s s' : State} {i : Nat}

/-- Consuming one token that was paid for. -/
theorem Valid.advance (hv : Valid doc s) (hi : Boundary doc.text i) (hle : s.pos ≤ i)
    (hpay : s.tokens + s.pending.length + 1 ≤ i) :
    Advanced doc s i { s with tokens := s.tokens + 1, pos := i } := by
  have hdebt : ({ s with tokens := s.tokens + 1, pos := i } : State).debt ≤ s.debt := by
    simp only [State.debt]
    omega
  exact {
    skip := rfl
    backticks := rfl
    statements := rfl
    valid := {
      boundary := hi
      tokens := by simp only; omega
      debt := Int.le_trans hdebt hv.debt
      diagnostics := hv.diagnostics
      bodies := fun b hb => { hv.bodies b hb with le := Nat.le_trans (hv.bodies b hb).le hle }
      inOrder := hv.inOrder }
    depth := rfl
    pos_le := hle
    fresh := fun _ => .inl
    debt_le := hdebt
    pos := rfl
    bodies := rfl
    pending := rfl
    tokens := rfl }

theorem advanceTo_runs (hv : Valid doc s) (hi : Boundary doc.text i) (hle : s.pos ≤ i)
    (hpay : s.tokens + s.pending.length + 1 ≤ i) :
    Runs doc (Aborts doc s) (advanceTo i) s fun _ s' => Advanced doc s i s' := by
  refine (countToken_runs hv ?_).bind fun _ s₁ hs₁ => ?_
  · have := hi.le_size
    omega
  · subst hs₁
    exact hv.advance hi hle hpay

/-! ### Heredoc bodies -/

theorem afterLineBreak_spec {text : String} (h : Boundary text i) :
    i ≤ afterLineBreak text i ∧ Boundary text (afterLineBreak text i) := by
  unfold afterLineBreak
  split
  · rename_i hbreak
    have hfeed := hasByte_iff.1 (Bool.and_eq_true_iff.1 hbreak).2
    exact ⟨Nat.le_add_right _ _, .succ hfeed (by decide)⟩
  split
  · rename_i hfeed
    exact ⟨Nat.le_succ _, .succ (hasByte_iff.1 hfeed) (by decide)⟩
  · exact ⟨Nat.le_refl _, h⟩

/-- The nodes lie end to end from one offset to another. -/
def Tiles : Nat → List Node → Nat → Prop
  | i, [], j => i = j
  | i, b :: bs, j => b.start = i ∧ Tiles b.stop bs j

theorem Tiles.append {j k : Nat} {bs cs : List Node} (h : Tiles i bs j) (h' : Tiles j cs k) :
    Tiles i (bs ++ cs) k := by
  induction bs generalizing i with
  | nil => exact (show i = j from h) ▸ h'
  | cons b bs ih => exact ⟨h.1, ih h.2⟩

/-- From an offset to the new position everything was read into new bodies. -/
def Fills (s : State) (i : Nat) (s' : State) : Prop :=
  ∃ new, s'.bodies = s.bodies ++ new ∧ Tiles i new s'.pos

theorem Fills.trans {s₁ s₂ : State} (h : Fills s i s₁) (h' : Fills s₁ s₁.pos s₂) :
    Fills s i s₂ := by
  obtain ⟨new, hbodies, htiles⟩ := h
  obtain ⟨new', hbodies', htiles'⟩ := h'
  exact ⟨new ++ new', by rw [hbodies', hbodies, List.append_assoc], htiles.append htiles'⟩

/-- The state after bodies were read with this many tokens. -/
structure Absorbed (doc : Document) (s : State) (count : Nat) (s' : State) : Prop
    extends Drifts doc s s' where
  pending : s'.pending = s.pending
  tokens : s'.tokens = s.tokens + count
  fills : Fills s s.pos s'

/-- Behind a body a boundary is left at, which does not lie before its start. -/
theorem leaveBody_runs {fail : Stopped → State → Prop} {body : Heredoc.Body}
    (h : Heredoc.ReadBody doc.text i body) :
    Runs doc fail (leaveBody body) s fun _ s' =>
      ∃ j, s' = { s with pos := j } ∧ i ≤ j ∧ Boundary doc.text j := by
  have hstart : i ≤ body.span.stop := by
    have hle := body.span.start_le_stop
    rwa [h.start] at hle
  unfold leaveBody
  split
  · rename_i line hline
    obtain ⟨hline, hstop⟩ := h.terminator line hline
    obtain ⟨hafter, hboundary⟩ := afterLineBreak_spec hstop
    have hle := Nat.le_trans hstart (Nat.le_trans (hline ▸ line.start_le_stop) hafter)
    refine Runs.bind (R := fun _ s' => s' = { s with pos := line.stop }) rfl ?_
    rintro _ _ rfl
    unfold skipLineBreak
    rw [runs_source, runs_positionInText (s := { s with pos := line.stop }) hstop.le_size]
    exact ⟨_, rfl, hle, hboundary⟩
  · exact ⟨_, rfl, hstart, h.boundary⟩

/-- One more body waits, which was just read. -/
theorem holdBody_runs {fail : Stopped → State → Prop} {b : Node} (hv : Valid doc s)
    (hbody : b.IsBody) (hsound : b.Sound doc.text) (hle : b.stop ≤ s.pos)
    (hlast : ∀ b' ∈ s.bodies, b'.stop ≤ b.start) (hi : i ≤ b.start) :
    Runs doc fail (holdBody b) s fun _ s' =>
      Valid doc s' ∧ (∀ b' ∈ s'.bodies, b' ∈ s.bodies ∨ i ≤ b'.start) ∧
        s' = { s with bodies := s'.bodies } ∧
        ∃ new, s'.bodies = s.bodies ++ new ∧ Tiles b.start new b.stop := by
  unfold holdBody
  split
  · rename_i hne
    have hlt : b.start < b.stop := by
      simp only [Span.isEmpty, Bool.not_eq_true', beq_eq_false_iff_ne] at hne
      simp only [Node.start, Node.stop, Span.stop]
      omega
    show Valid doc { s with bodies := s.bodies ++ [b] } ∧ _ ∧ _
    refine ⟨?_, ?_, rfl, [b], rfl, rfl, rfl⟩
    · exact { hv with
        bodies := fun b' hb' => by
          rcases List.mem_append.1 hb' with hb' | hb'
          · exact hv.bodies b' hb'
          · rw [List.mem_singleton.1 hb']
            exact ⟨hbody, hsound, hlt, hle⟩
        inOrder := by
          refine List.pairwise_append.2 ⟨hv.inOrder, List.pairwise_singleton _ _, ?_⟩
          intro b' hb' c hc
          rw [List.mem_singleton.1 hc]
          exact hlast b' hb' }
    · intro b' hb'
      rcases List.mem_append.1 hb' with hb' | hb'
      · exact .inl hb'
      · rw [List.mem_singleton.1 hb']
        exact .inr hi
  · rename_i hempty
    refine ⟨hv, fun _ => .inl, rfl, [], (List.append_nil _).symm, ?_⟩
    simp only [Span.isEmpty, Bool.not_eq_true', Bool.not_eq_false, beq_iff_eq] at hempty
    show b.start = b.start + b.span.length
    rw [hempty, Nat.add_zero]

theorem reportUnclosed_runs {fail : Stopped → State → Prop} {h : Heredoc} {body : Heredoc.Body}
    {span : Span} (hv : Valid doc s) (hcut : Cut doc.text span) :
    Runs doc fail (reportUnclosed h body span) s fun _ s' => Still doc s s' := by
  unfold reportUnclosed
  split
  · exact report_runs hv (Diagnostic.fair_lexical hcut)
  · exact Still.refl hv

theorem readBody_runs (h : Heredoc) (hv : Valid doc s)
    (hpay : s.tokens + s.pending.length + 1 ≤ s.pos) :
    Runs doc (Aborts doc s) (readBody h) s fun _ s' => Absorbed doc s 1 s' := by
  obtain ⟨body, hbody, hread⟩ := Heredoc.exists_body? h hv.boundary
  unfold readBody
  refine (countToken_runs hv ?_).bind fun _ s₁ hs₁ => ?_
  · have := hv.le_size
    omega
  subst hs₁
  rw [runs_position, runs_source, hbody, runs_orFault]
  refine (leaveBody_runs hread).bind fun _ s₁ h₁ => ?_
  obtain ⟨stop, rfl, hle, hboundary⟩ := h₁
  have hadvanced := hv.advance hboundary hle (Nat.le_trans hpay hle)
  have hcut := cut_upTo hv.boundary hboundary
  rw [runs_spanFrom]
  refine (reportUnclosed_runs hadvanced.valid hcut).bind fun _ s₂ h₂ => ?_
  have hdrifts := hadvanced.toDrifts.trans h₂.moves.toDrifts
  refine (holdBody_runs (i := s.pos) h₂.valid ?_ ?_ ?_ ?_ (Nat.le_refl _)).imp fun _ s₃ h₃ => ?_
  · exact trivial
  · exact Node.sound_leaf hcut rfl (by simp [Form.names]) trivial
  · exact Nat.le_of_eq ((Span.stop_upTo hle).trans h₂.pos.symm)
  · intro b hb
    rw [h₂.bodies] at hb
    exact (hv.bodies b hb).le
  · obtain ⟨hv₃, hfresh, heq, new, hnew, htiles⟩ := h₃
    have hstop : (Span.upTo s.pos stop).stop = s₂.pos := by
      rw [h₂.pos, Span.stop_upTo hle]
    rw [heq]
    exact {
      skip := hdrifts.skip
      backticks := hdrifts.backticks
      statements := hdrifts.statements
      valid := heq ▸ hv₃
      depth := hdrifts.depth
      pos_le := hdrifts.pos_le
      fresh := fun b hb => (hfresh b hb).elim (hdrifts.fresh b) .inr
      debt_le := hdrifts.debt_le
      pending := h₂.pending
      tokens := h₂.tokens
      fills := ⟨new, by rw [hnew, h₂.bodies], hstop ▸ htiles⟩ }

theorem readBodies_runs (hs : List Heredoc) (hv : Valid doc s)
    (hpay : s.tokens + s.pending.length + hs.length ≤ s.pos) :
    Runs doc (Aborts doc s) (readBodies hs) s fun _ s' => Absorbed doc s hs.length s' := by
  induction hs generalizing s with
  | nil =>
    have hfills : Fills s s.pos s := ⟨[], (List.append_nil _).symm, rfl⟩
    exact (⟨(Moves.refl hv).toDrifts, rfl, rfl, hfills⟩ : Absorbed doc s 0 s)
  | cons h hs ih =>
    rw [List.length_cons] at hpay
    refine (readBody_runs h hv (by omega)).bind fun _ s₁ h₁ => ?_
    have hpos := h₁.pos_le
    have htokens := h₁.tokens
    refine ((ih h₁.valid ?_).imp fun _ s₂ h₂ => ?_).imp_fail fun _ _ => .rebase h₁.toKeeps
    · rw [h₁.pending]
      omega
    · exact {
        toDrifts := h₁.toDrifts.trans h₂.toDrifts
        pending := h₂.pending.trans h₁.pending
        tokens := by rw [h₂.tokens, htokens, List.length_cons]; omega
        fills := h₁.fills.trans h₂.fills }

theorem readPending_runs (hv : Valid doc s) :
    Runs doc (Aborts doc s) readPending s fun _ s' => Drifts doc s s' ∧ Fills s s.pos s' := by
  have hv' : Valid doc { s with pending := [] } :=
    { hv with tokens := by have := hv.tokens; simp only [List.length_nil]; omega }
  have hdrifts : Drifts doc s { s with pending := [] } :=
    ⟨⟨rfl, rfl, rfl⟩, hv', rfl, Nat.le_refl _, fun _ => .inl, Int.le_refl _⟩
  refine ((readBodies_runs s.pending hv' ?_).imp fun _ s' h => ?_).imp_fail
    fun _ _ => .rebase hdrifts.toKeeps
  · simpa using hv.tokens
  · exact ⟨hdrifts.trans h.toDrifts, h.fills⟩

/-! ### One token -/

/-- The token ahead was consumed. -/
structure Bumped (doc : Document) (s s' : State) : Prop extends Moves doc s s' where
  front_lt : s.front doc < s'.pos
  stop_le : (s.ahead doc).span.stop ≤ s'.pos
  debt_lt : s'.debt + 3 ≤ s.debt
  fills : Fills s (s.ahead doc).span.stop s'
  /-- No bodies are read, unless the token is a newline. -/
  advanced : (s.ahead doc).kind ≠ .newline → Advanced doc s (s.ahead doc).span.stop s'

theorem Bumped.pos_lt (h : Bumped doc s s') (hv : Valid doc s) : s.pos < s'.pos :=
  Nat.lt_of_le_of_lt hv.pos_le_front h.front_lt

theorem bump_runs (hv : Valid doc s) (hk : (s.ahead doc).kind ≠ .eof) :
    Runs doc (Aborts doc s) bump s fun t s' => t = s.ahead doc ∧ Bumped doc s s' := by
  have hahead := hv.ahead
  have hfront := hv.pos_le_front
  have hlt := hv.front_lt_stop hk
  have htokens := hv.tokens
  have hadvanced := hv.advance hahead.cut.2 (by omega)
    (show s.tokens + s.pending.length + 1 ≤ _ by omega)
  have hdebt : ({ s with tokens := s.tokens + 1, pos := (s.ahead doc).span.stop } : State).debt + 3
      ≤ s.debt := by
    simp only [State.debt]
    omega
  -- Whatever is read after the token starts behind it.
  have hbumped : ∀ s',
      Drifts doc { s with tokens := s.tokens + 1, pos := (s.ahead doc).span.stop } s' →
      s'.debt + 3 ≤ s.debt → Fills s (s.ahead doc).span.stop s' →
      ((s.ahead doc).kind ≠ .newline → Advanced doc s (s.ahead doc).span.stop s') →
      Bumped doc s s' := by
    intro s' hdrifts hdebt hfills hadv
    have hpos : (s.ahead doc).span.stop ≤ s'.pos := hdrifts.pos_le
    refine {
      toDrifts := hadvanced.toDrifts.trans hdrifts
      leap := .inr (by omega)
      past := fun b hb => ?_
      paid := fun _ => by omega
      front_lt := by omega
      stop_le := hpos
      debt_lt := hdebt
      fills := hfills
      advanced := hadv }
    rcases hdrifts.fresh b hb with hb | hb
    · exact .inl hb
    · exact .inr (Nat.lt_of_lt_of_le hlt hb)
  unfold bump
  refine (countToken_runs hv ?_).bind fun _ s₁ hs₁ => ?_
  · have := hahead.cut.stop_le
    omega
  subst hs₁
  rw [runs_current]
  show Runs doc (Aborts doc s) (if (s.ahead doc).kind == .newline then _ else _)
    { s with tokens := s.tokens + 1, pos := (s.ahead doc).span.stop } _
  split
  · rename_i hnewline
    refine ((readPending_runs hadvanced.valid).imp_fail fun _ _ => .rebase hadvanced.toKeeps).bind
      fun _ s' h => ?_
    obtain ⟨h, hfills⟩ := h
    refine ⟨rfl, hbumped s' h (by have := h.debt_le; omega) hfills fun hne => ?_⟩
    exact absurd (beq_iff_eq.1 hnewline) hne
  · refine ⟨rfl, hbumped _ (Moves.refl hadvanced.valid).toDrifts hdebt ?_ fun _ => hadvanced⟩
    exact ⟨[], (List.append_nil _).symm, rfl⟩

/-- A token pays for itself and for one round. -/
theorem Bumped.charge (h : Bumped doc s s') (hv : Valid doc s) : Moves doc s s'.charge := by
  have h1 := h.debt_lt
  have h2 := hv.debt
  exact { h with
    valid := h.valid.charge (by omega)
    debt_le := by rw [debt_charge]; omega
    paid := fun _ => by rw [debt_charge]; omega }

theorem discard_bump_runs (hv : Valid doc s) (hk : (s.ahead doc).kind ≠ .eof) :
    Runs doc (Aborts doc s) (discard bump) s fun _ s' => Bumped doc s s' :=
  .discard ((bump_runs hv hk).imp fun _ _ h => h.2)

/-- A diagnostic before the token makes no difference. -/
theorem Bumped.after_still {s₁ : State} (h : Still doc s s₁) (h' : Bumped doc s₁ s') :
    Bumped doc s s' where
  toMoves := h.moves.trans h'.toMoves
  front_lt := h.front ▸ h'.front_lt
  stop_le := h.ahead ▸ h'.stop_le
  debt_lt := h.debt ▸ h'.debt_lt
  fills := by
    obtain ⟨new, hbodies, htiles⟩ := h'.fills
    exact ⟨new, by rw [hbodies, h.bodies], h.ahead ▸ htiles⟩
  advanced := fun hne => by
    rw [← h.ahead] at hne ⊢
    have hadv := h'.advanced hne
    exact {
      toDrifts := h.moves.toDrifts.trans hadv.toDrifts
      pos := hadv.pos
      bodies := hadv.bodies.trans h.bodies
      pending := hadv.pending.trans h.pending
      tokens := by rw [hadv.tokens, h.tokens] }

/-- A token of the kind was consumed, or there is none. -/
def Eaten (doc : Document) (kind : TokenKind) (s : State) : Bool → State → Prop
  | true, s' => (s.ahead doc).kind = kind ∧ Bumped doc s s'
  | false, s' => (s.ahead doc).kind ≠ kind ∧ s' = s

theorem Eaten.moves {kind : TokenKind} {b : Bool} (hv : Valid doc s) (h : Eaten doc kind s b s') :
    Moves doc s s' := by
  cases b with
  | true => exact h.2.toMoves
  | false =>
    obtain ⟨-, rfl⟩ := h
    exact .refl hv

theorem eat_runs {kind : TokenKind} (hv : Valid doc s) (hkind : kind ≠ .eof) :
    Runs doc (Aborts doc s) (eat kind) s (Eaten doc kind s) := by
  unfold eat
  rw [runs_atKind]
  split
  · rename_i hat
    have hat := beq_iff_eq.1 hat
    exact (discard_bump_runs hv (hat ▸ hkind)).bind fun _ s' h => ⟨hat, h⟩
  · rename_i hat
    exact ⟨fun heq => hat (beq_iff_eq.2 heq), rfl⟩

/-- A keyword was consumed, or there is none. -/
def EatenWord (doc : Document) (s : State) : Bool → State → Prop
  | true, s' => (s.ahead doc).kind = .ident ∧ Bumped doc s s'
  | false, s' => s' = s

theorem EatenWord.moves {b : Bool} (hv : Valid doc s) (h : EatenWord doc s b s') :
    Moves doc s s' := by
  cases b with
  | true => exact h.2.toMoves
  | false =>
    obtain rfl : s' = s := h
    exact .refl hv

theorem eatKeyword_runs {word : String} (hv : Valid doc s) :
    Runs doc (Aborts doc s) (eatKeyword word) s (EatenWord doc s) := by
  unfold eatKeyword
  refine .look (atKeyword_looks word) fun b hb => ?_
  cases b with
  | true =>
    rw [if_pos rfl]
    have hkind := atKeyword_true hb
    exact (discard_bump_runs hv (by rw [hkind]; decide)).bind fun _ s' h => ⟨hkind, h⟩
  | false =>
    rw [if_neg (by simp)]
    exact (rfl : s = s)

theorem expect_runs {kind : TokenKind} {what : String} (hv : Valid doc s)
    (hkind : kind ≠ .eof) :
    Runs doc (Aborts doc s) (expect kind what) s fun _ s' =>
      (s.ahead doc).kind = kind ∧ Bumped doc s s' ∨
        (s.ahead doc).kind ≠ kind ∧ Still doc s s' := by
  unfold expect
  refine (eat_runs hv hkind).bind fun b s₁ h => ?_
  cases b with
  | true => exact .inl h
  | false =>
    obtain ⟨hne, rfl⟩ := h
    exact (require_runs hv).imp fun _ s₂ h => .inr ⟨hne, h⟩

/-- Whether the token is there or not. -/
theorem expect_moves {kind : TokenKind} {what : String} (hv : Valid doc s)
    (hkind : kind ≠ .eof) :
    Runs doc (Aborts doc s) (expect kind what) s fun _ s' => Moves doc s s' := by
  refine (expect_runs hv hkind).imp fun _ s' h => ?_
  rcases h with ⟨-, h⟩ | ⟨-, h⟩
  · exact h.toMoves
  · exact h.moves

theorem expectKeyword_moves {word : String} (hv : Valid doc s) :
    Runs doc (Aborts doc s) (expectKeyword word) s fun _ s' => Moves doc s s' := by
  unfold expectKeyword
  refine (eatKeyword_runs hv).bind fun b s₁ h => ?_
  cases b with
  | true => exact h.2.toMoves
  | false =>
    obtain rfl : s₁ = s := h
    exact (require_runs hv).imp fun _ s₂ h => h.moves

theorem forceAdvance_runs {what : String} (hv : Valid doc s) (hk : (s.ahead doc).kind ≠ .eof) :
    Runs doc (Aborts doc s) (forceAdvance what) s fun v s' =>
      v = .error (s.ahead doc).span ∧ Bumped doc s s' := by
  unfold forceAdvance
  refine (reportExpected_runs hv).bind fun _ s₁ h₁ => ?_
  refine ((bump_runs h₁.valid (by rwa [h₁.ahead])).imp_fail fun _ _ => .rebase h₁.keeps).bind
    fun t s₂ h₂ => ?_
  obtain ⟨rfl, hbumped⟩ := h₂
  rw [h₁.ahead]
  exact ⟨rfl, hbumped.after_still h₁⟩

/-- Tokens are consumed for as long as a condition holds that excludes the end of the text. -/
theorem bumpWhile_runs {condition : Parser Bool} (hlook : Looks condition)
    (hcondition : ∀ s, condition doc s = .ok true s → (s.ahead doc).kind ≠ .eof)
    (hv : Valid doc s) :
    Runs doc (Aborts doc s) (whileHolds condition (discard bump)) s fun _ s' =>
      Moves doc s s' ∧ condition doc s' = .ok false s' := by
  refine Runs.whileHolds (Moves doc s) (fun _ h => h.valid.le_size) hlook (.refl hv) ?_
  intro s₁ h₁ hat
  refine ((discard_bump_runs h₁.valid (hcondition s₁ hat)).imp fun _ s₂ h₂ => ?_).imp_fail
    fun _ _ => .rebase h₁.toKeeps
  exact ⟨h₁.trans h₂.toMoves, h₂.pos_lt h₁.valid⟩

theorem skipNewlines_runs (hv : Valid doc s) :
    Runs doc (Aborts doc s) skipNewlines s fun _ s' => Moves doc s s' := by
  refine (bumpWhile_runs (atKind_looks .newline) ?_ hv).imp fun _ _ h => h.1
  intro s hat heof
  rw [atKind_true hat] at heof
  cases heof

theorem identName_runs {what : String} (hv : Valid doc s) :
    Runs doc (Aborts doc s) (identName what) s fun name s' =>
      Cut doc.text name.span ∧ Moves doc s s' ∧
        ((s.ahead doc).kind = .ident ∨ name.text.isEmpty = false → s.pos < s'.pos) ∧
        name.span.stop ≤ s'.pos := by
  unfold identName
  rw [runs_current]
  split
  · rename_i hat
    have hat := beq_iff_eq.1 hat
    refine (discard_bump_runs hv (by rw [hat]; decide)).bind fun _ s' h => ?_
    exact ⟨hv.ahead.cut, h.toMoves, fun _ => h.pos_lt hv, h.stop_le⟩
  · rename_i hat
    refine (reportExpected_runs hv).bind fun _ s' h => ?_
    rw [runs_position, h.pos]
    refine ⟨cut_empty hv.boundary, h.moves, ?_, Nat.le_of_eq h.pos.symm⟩
    rintro (hident | hne)
    · exact absurd (beq_iff_eq.2 hident) hat
    · cases hne

theorem identName?_runs (hv : Valid doc s) :
    Runs doc (Aborts doc s) identName? s fun name? s' =>
      (∀ name ∈ name?, Cut doc.text name.span) ∧ Moves doc s s' := by
  unfold identName?
  rw [runs_current]
  split
  · rename_i hat
    have hat := beq_iff_eq.1 hat
    refine (discard_bump_runs hv (by rw [hat]; decide)).bind fun _ s' h => ?_
    refine ⟨?_, h.toMoves⟩
    rintro _ ⟨⟩
    exact hv.ahead.cut
  · exact ⟨by simp, .refl hv⟩

theorem pieceOf_runs {fail : Stopped → State → Prop} {span : Span} (h : Cut doc.text span) :
    Runs doc fail (pieceOf span) s fun _ s' => s' = s := by
  unfold pieceOf
  rw [runs_source, h.slice?]
  exact (rfl : s = s)

end

end ShellAnalysis.Parse
