import ShellAnalysis.Proofs.Expressions
import ShellAnalysis.Proofs.Placement

/-!
# Simple commands

The parts of a command lie in five fields.  Assignments and words are read in
the order of the fields, redirects and typed arguments anywhere between them, so
a draft is `Filed` like the arguments of a call.  The block comes last.

A command that reads nothing is the one node that lies ahead of the position: it
is put at the start of the token ahead.
-/

namespace ShellAnalysis.Parse

open Text Node

/-! ## Redirects -/

section

variable {doc : Document} {s s₁ s₂ : State} {d : Nat} {enter : Parser Grammar}

theorem atRedirect_looks : Looks atRedirect := by
  refine .bind (fun _ _ => ⟨_, rfl⟩) fun t => ?_
  split
  · exact .pure _
  split
  · exact .pure _
  · exact .bind (fun _ _ => ⟨_, rfl⟩) fun _ => .pure _

instance : Looking atRedirect := ⟨atRedirect_looks⟩

theorem isRedirect_ne {kind : TokenKind} (h : kind.isRedirect = true) :
    kind ≠ .eof ∧ kind ≠ .newline ∧ kind ≠ .comment ∧ kind ≠ .int := by
  refine ⟨?_, ?_, ?_, ?_⟩ <;> rintro rfl <;> cases h

/-- A redirect starts with its operator or with a number glued to it. -/
theorem atRedirect_true (h : atRedirect doc s = .ok true s) :
    (s.ahead doc).kind.isRedirect = true ∨ (s.ahead doc).kind = .int ∧
      ∃ next, gluedToken? doc.text (s.ahead doc) = some next ∧ next.kind.isRedirect = true := by
  have hrun : Runs doc (fun _ _ => False) atRedirect s fun b _ => b = true →
      (s.ahead doc).kind.isRedirect = true ∨ (s.ahead doc).kind = .int ∧
        ∃ next, gluedToken? doc.text (s.ahead doc) = some next ∧ next.kind.isRedirect = true := by
    unfold atRedirect
    rw [runs_current]
    split
    · rename_i hop
      exact .pure fun _ => .inl hop
    split
    · exact .pure nofun
    · rename_i hint
      have hint : (s.ahead doc).kind = .int := by simpa using hint
      rw [runs_gluedTo]
      split
      · rename_i next hnext
        exact .pure fun hop => .inr ⟨hint, next, hnext, hop⟩
      · exact .pure nofun
  exact hrun.of_ok h rfl

/-- Behind a token comes the one glued to it. -/
theorem Bumped.ahead_glued {next : Token} (h : Bumped doc s s₁)
    (hk : (s.ahead doc).kind ≠ .newline) (hglued : gluedToken? doc.text (s.ahead doc) = some next)
    (hc : next.kind ≠ .comment) (hn : next.kind ≠ .newline) : s₁.ahead doc = next := by
  have hpos := (h.advanced hk).pos
  unfold gluedToken? at hglued
  simp only at hglued
  split at hglued
  · obtain rfl := Option.some.inj hglued
    unfold State.ahead
    rw [hpos]
    exact significantAt_eq (hpos ▸ h.valid.le_size) hc hn
  · cases hglued

theorem redirectDescriptor_runs (hv : Valid doc s) (hat : atRedirect doc s = .ok true s) :
    Runs doc (Aborts doc s) redirectDescriptor s fun _ s' =>
      Moves doc s s' ∧ (s'.ahead doc).kind.isRedirect = true := by
  unfold redirectDescriptor
  rw [runs_atKind]
  split
  · rename_i hint
    have hint := beq_iff_eq.1 hint
    refine (bump_runs hv (by rw [hint]; decide)).bind fun t s₁ h₁ => ?_
    obtain ⟨rfl, h₁⟩ := h₁
    rw [runs_tokenText]
    refine .pure ⟨h₁.toMoves, ?_⟩
    rcases atRedirect_true hat with hop | ⟨-, next, hnext, hop⟩
    · exact absurd hint (isRedirect_ne hop).2.2.2
    · obtain ⟨-, hn, hc, -⟩ := isRedirect_ne hop
      rw [h₁.ahead_glued (by rw [hint]; decide) hnext hc hn]
      exact hop
  · rename_i hint
    refine .pure ⟨.refl hv, ?_⟩
    rcases atRedirect_true hat with hop | ⟨hat, -⟩
    · exact hop
    · exact absurd (beq_iff_eq.2 hat) hint

/-- A heredoc that waits for its body was paid for by the second byte of its operator. -/
theorem announce_runs {fail : Stopped → State → Prop} {piece : Scanned} {heredoc : Heredoc}
    (hv : Valid doc s) (hcut : Cut doc.text piece.span)
    (hpay : s.tokens + s.pending.length + 1 ≤ s.pos) :
    Runs doc fail (announce piece heredoc) s fun _ s' => Drifts doc s s' ∧ s'.pos = s.pos := by
  unfold announce
  split
  · refine (report_runs hv (Diagnostic.fair_lexical hcut)).bind fun _ s₁ h₁ => ?_
    exact .pure ⟨h₁.moves.toDrifts, h₁.pos⟩
  · have hv' : Valid doc { s with pending := s.pending ++ [heredoc] } :=
      { hv with
        tokens := by
          simp only [List.length_append, List.length_singleton]
          omega }
    exact (⟨⟨⟨rfl, rfl, rfl⟩, hv', rfl, Nat.le_refl _, fun _ => .inl, Int.le_refl _⟩, rfl⟩ :
      Drifts doc s { s with pending := s.pending ++ [heredoc] } ∧ _)

/-- A node whose parts lie behind its operator. -/
def Redirected (doc : Document) (start : Nat) (s : State) (v : Node) (s' : State) : Prop :=
  ∃ fd op target, v = .make (.redirect fd op target) (.upTo start s'.pos) ∧
    Parts doc s target.toList s'

theorem heredocRedirect_runs {start : Nat} {fd : Option Nat} (hv : Valid doc s)
    (h : Bumped doc s s₁) (hk : (s.ahead doc).kind = .lessLess) :
    Runs doc (Aborts doc s₁) (heredocRedirect start fd) s₁ (Redirected doc start s₁) := by
  have hadv := h.advanced (by rw [hk]; decide)
  have hpay : s₁.tokens + s₁.pending.length + 1 ≤ s₁.pos := by
    have h1 := hv.tokens
    have h2 : s.pos ≤ (s.ahead doc).span.start := hv.pos_le_front
    have h3 := hv.ahead.wide (by rw [hk]; rfl)
    rw [hadv.tokens, hadv.pending, hadv.pos]
    omega
  obtain ⟨found, heredoc, hfound⟩ := Heredoc.exists_heredocStart? .idle h.valid.boundary
  unfold heredocRedirect
  rw [runs_source, runs_position, hfound, runs_orFault]
  cases found with
  | none =>
    refine (reportExpected_runs h.valid).bind fun _ s₂ h₂ => ?_
    rw [runs_spanFrom]
    exact .pure ⟨fd, _, none, rfl, (Parts.nil h.valid).drift h₂.moves.toDrifts⟩
  | some piece =>
    obtain ⟨stop, hspan, hlt, hstop⟩ := Heredoc.heredocStart?_spec hfound
    have hcut : Cut doc.text piece.span := hspan ▸ cut_upTo h.valid.boundary hstop
    have hpiece : piece.span.stop = stop := by
      rw [hspan]
      exact Span.stop_upTo (Nat.le_of_lt hlt)
    refine (pieceOf_runs hcut).bind fun _ s₁' hs₁ => ?_
    subst hs₁
    refine (announce_runs h.valid hcut hpay).bind fun quoted s₂ h₂ => ?_
    obtain ⟨hd₂, hpos₂⟩ := h₂
    rw [hpiece]
    refine ((advance_runs hd₂.valid hstop (hpos₂ ▸ hlt)).imp_fail fun _ _ =>
      .rebase hd₂.toKeeps).bind fun _ s₃ h₃ => ?_
    rw [runs_spanFrom]
    refine .pure ⟨fd, _, _, rfl, hd₂.trans h₃.toDrifts, ?_, ?_⟩
    · refine Row.make (f := .heredocDelimiter piece.text quoted) .nil rfl hcut (by simp [Form.names])
        (.inl ?_) (.inl ?_)
      · rw [hspan]
        exact Nat.le_refl _
      · exact Nat.le_of_eq (hpiece.trans h₃.pos.symm)
    · rw [Option.toList_some, List.forall_mem_singleton]
      exact id

theorem redirectTarget_runs (he : Enters doc d enter) (hv : Valid doc s)
    (hd : s.nesting.depth = d) :
    Runs doc (Fails doc s) (redirectTarget enter) s fun target s' =>
      Yields doc .final s target.toList s' := by
  unfold redirectTarget
  refine .look atWord_looks fun b hb => ?_
  split
  · rename_i heq
    subst heq
    exact .map ((word_runs he hv hd hb).imp fun _ _ h => h.1)
  · refine (reportExpected_runs hv).bind fun _ s₁ h₁ => ?_
    exact .pure h₁.moves.yields

theorem redirect_runs (he : Enters doc d enter) (hv : Valid doc s) (hd : s.nesting.depth = d)
    (hat : atRedirect doc s = .ok true s) :
    Runs doc (Fails doc s) (redirect enter) s fun v s' =>
      Yields doc .final s [v] s' ∧ s.pos < s'.pos ∧ v.start < v.stop := by
  unfold redirect
  rw [runs_startOffset]
  refine ((redirectDescriptor_runs hv hat).stepIn (.refl s)).bind fun fd s₁ h₁ => ?_
  obtain ⟨hm₁, hop⟩ := h₁
  refine ((bump_runs hm₁.valid (isRedirect_ne hop).1).stepIn hm₁.toKeeps).bind fun t s₂ h₂ => ?_
  obtain ⟨rfl, h₂⟩ := h₂
  have hm₂ := hm₁.trans h₂.toMoves
  have hlt : s.pos < s₂.pos := Nat.lt_of_le_of_lt hm₁.pos_le (h₂.pos_lt hm₁.valid)
  refine Runs.imp (R := Redirected doc (s.front doc) s₂) ?_ fun v s' h => ?_
  · split
    · rename_i hk
      exact (heredocRedirect_runs hm₁.valid h₂ (beq_iff_eq.1 hk)).stepIn hm₂.toKeeps
    · refine ((redirectTarget_runs he h₂.valid (hm₂.depth.trans hd)).inside hm₂).bind
        fun target s₃ h₃ => ?_
      rw [runs_spanFrom]
      exact .pure ⟨fd, _, target, rfl, h₃.parts⟩
  · obtain ⟨fd, op, target, rfl, hparts⟩ := h
    have hm := hm₂.drift hlt hparts.toDrifts
    have hlt' : s.pos < s'.pos := Nat.lt_of_lt_of_le hlt hparts.pos_le
    exact ⟨hm.made (f := .redirect fd op target) hlt' hv (hparts.laid.after hm₂.toDrifts) rfl
      (by simp [Form.names]), hlt', start_lt_stop_make (hm.front_lt hlt')⟩

/-! ## Assignments -/

theorem atAssignment_looks : Looks atAssignment := by
  refine .bind (fun _ _ => ⟨_, rfl⟩) fun t => ?_
  split
  · exact .pure _
  · exact .bind (fun _ _ => ⟨_, rfl⟩) fun _ => .pure _

instance : Looking atAssignment := ⟨atAssignment_looks⟩

theorem atAssignment_true (h : atAssignment doc s = .ok true s) :
    (s.ahead doc).kind = .ident ∧ ∃ next, gluedToken? doc.text (s.ahead doc) = some next ∧
      (next.kind = .equal ∨ next.kind = .plusEqual) := by
  have hrun : Runs doc (fun _ _ => False) atAssignment s fun b _ => b = true →
      (s.ahead doc).kind = .ident ∧ ∃ next, gluedToken? doc.text (s.ahead doc) = some next ∧
        (next.kind = .equal ∨ next.kind = .plusEqual) := by
    unfold atAssignment
    rw [runs_current]
    split
    · exact .pure nofun
    · rename_i hident
      have hident : (s.ahead doc).kind = .ident := by simpa using hident
      rw [runs_gluedTo]
      split
      · rename_i next hnext
        refine .pure fun hop => ⟨hident, next, hnext, ?_⟩
        simpa using hop
      · exact .pure nofun
  exact hrun.of_ok h rfl

theorem arrayLiteral_runs (he : Enters doc d enter) (hv : Valid doc s) (hd : s.nesting.depth = d)
    (hk : (s.ahead doc).kind ≠ .eof) :
    Runs doc (Fails doc s) (arrayLiteral enter) s fun v s' =>
      Yields doc .final s [v] s' ∧ s.pos < s'.pos := by
  refine bracketed_yields he hv hd hk (by decide) (fun _ => rfl) (fun _ => rfl)
    fun g s₁ hg hv₁ hd₁ => ?_
  have hv₁ := hv₁.of_charge
  refine (Runs.manyWhile (fun words s₂ => Parts doc s₁.charge words s₂)
    (fun _ _ h => h.valid.le_size) atWord_looks ⟨hv₁.uncharge, .nil, by simp⟩ ?_).imp
    fun words s₂ h => ⟨h.1.toDrifts, h.1.laid⟩
  intro words s₂ h hat
  refine ((hg.word h.valid (h.depth.trans hd₁) hat).along h.toDrifts).imp fun v s₃ h₃ => ?_
  exact ⟨h.append h₃.1.parts, h₃.2⟩

theorem assignedValue_runs (he : Enters doc d enter) (hv : Valid doc s)
    (hd : s.nesting.depth = d) :
    Runs doc (Fails doc s) (assignedValue enter) s fun value s' =>
      Yields doc .final s value.toList s' := by
  unfold assignedValue
  rw [runs_adjacent]
  split
  · exact .pure (Moves.refl hv).yields
  rw [runs_atKind]
  split
  · rename_i hk
    have hk := beq_iff_eq.1 hk
    exact .map ((arrayLiteral_runs he hv hd (by rw [hk]; decide)).imp fun _ _ h => h.1)
  · refine .look atWord_looks fun b hb => ?_
    split
    · rename_i heq
      subst heq
      exact .map ((word_runs he hv hd hb).imp fun _ _ h => h.1)
    · exact .pure (Moves.refl hv).yields

theorem assignment_runs (he : Enters doc d enter) (hv : Valid doc s) (hd : s.nesting.depth = d)
    (hat : atAssignment doc s = .ok true s) :
    Runs doc (Fails doc s) (assignment enter) s fun v s' =>
      Yields doc .final s [v] s' ∧ s.pos < s'.pos := by
  obtain ⟨hident, next, hnext, hop⟩ := atAssignment_true hat
  unfold assignment
  rw [runs_startOffset]
  refine ((bump_runs hv (by rw [hident]; decide)).stepIn (.refl s)).bind fun t s₁ h₁ => ?_
  obtain ⟨rfl, h₁⟩ := h₁
  have hnext : s₁.ahead doc = next := by
    refine h₁.ahead_glued (by rw [hident]; decide) hnext ?_ ?_ <;>
      rcases hop with hop | hop <;> rw [hop] <;> decide
  have hk : (s₁.ahead doc).kind ≠ .eof := by
    rw [hnext]
    rcases hop with hop | hop <;> rw [hop] <;> decide
  refine ((bump_runs h₁.valid hk).stepIn h₁.toKeeps).bind fun op s₂ h₂ => ?_
  obtain ⟨rfl, h₂⟩ := h₂
  have hm₂ := h₁.toMoves.trans h₂.toMoves
  refine ((assignedValue_runs he h₂.valid (hm₂.depth.trans hd)).inside hm₂).bind
    fun value s₃ h₃ => ?_
  rw [runs_tokenText, runs_spanFrom]
  refine .pure (h₁.made hv (h₃.after h₂.toMoves) rfl ?_)
  simpa [Form.names] using hv.ahead.cut

/-! ## Blocks and functions -/

theorem enclosed_runs {stop : StopAt} {close : TokenKind} {what : String}
    {form : List Node → Form Node} (he : Enters doc d enter) (hv : Valid doc s)
    (hd : s.nesting.depth = d) (hk : (s.ahead doc).kind ≠ .eof) (hstop : stop.holds = atKind close)
    (hclose : close ≠ .eof) (hform : ∀ xs, (form xs).isPlain = true)
    (hclosed : ∀ xs, (form xs).isClosed = true) (hchildren : ∀ xs, (form xs).children = xs)
    (hnames : ∀ xs, (form xs).names = []) :
    Runs doc (Fails doc s) (enclosed enter stop close what form) s (Stands doc .final s) := by
  unfold enclosed
  rw [runs_startOffset]
  refine (he hv hd).bind fun g s₁ h₁ => ?_
  obtain ⟨hg, rfl⟩ := h₁
  have hv' : Valid doc s.deeper := hv.nest _
  have hk₁ := keeps_deeper s
  refine ((discard_bump_runs hv' hk).stepIn hk₁).bind fun _ s₂ h₂ => ?_
  have hcharge := h₂.charge hv'
  refine ((hg.statements [stop] false hcharge.valid
    (h₂.depth.trans (congrArg (· + 1) hd))).stepIn (hk₁.trans h₂.toKeeps)).bind
    fun xs s₃ h₃ => ?_
  have hm₃ := hcharge.drift (h₂.pos_lt hv') h₃.toDrifts
  refine ((h₃.laid.close h₃.valid (h₃.ends_at hstop) hclose).stepIn
    (hk₁.trans hm₃.toKeeps)).bind fun _ s₄ h₄ => ?_
  have hm₄ := (hm₃.trans h₄.1).leave
  have hlt : s.pos < s₄.shallower.pos :=
    Nat.lt_of_lt_of_le (h₂.pos_lt hv') (Nat.le_trans h₃.pos_le h₄.1.pos_le)
  rw [runs_ascend, runs_spanFrom]
  refine .pure (hm₄.stands hlt hv ?_ (hform xs) (hclosed xs) (by simp [hnames]))
  rw [hchildren]
  exact (h₄.2.after h₂.toDrifts : Laid doc .final s.deeper xs s₄)

theorem braceBlock_runs (he : Enters doc d enter) (hv : Valid doc s) (hd : s.nesting.depth = d)
    (hk : (s.ahead doc).kind ≠ .eof) :
    Runs doc (Fails doc s) (braceBlock enter) s (Stands doc .final s) :=
  enclosed_runs he hv hd hk rfl (by decide) (fun _ => rfl) (fun _ => rfl) (fun _ => rfl)
    fun _ => rfl

theorem subshell_runs (he : Enters doc d enter) (hv : Valid doc s) (hd : s.nesting.depth = d)
    (hk : (s.ahead doc).kind ≠ .eof) :
    Runs doc (Fails doc s) (subshell enter) s (Stands doc .final s) :=
  enclosed_runs he hv hd hk rfl (by decide) (fun _ => rfl) (fun _ => rfl) (fun _ => rfl)
    fun _ => rfl

theorem functionBody_runs (he : Enters doc d enter) (hv : Valid doc s) (hd : s.nesting.depth = d) :
    Runs doc (Fails doc s) (functionBody enter) s fun v s' => Yields doc .final s [v] s' := by
  unfold functionBody
  rw [runs_currentKind]
  split
  · rename_i hk
    exact (braceBlock_runs he hv hd (by rw [hk]; decide)).imp fun _ _ h => h.toYields
  · rename_i hk
    exact (subshell_runs he hv hd (by rw [hk]; decide)).imp fun _ _ h => h.toYields
  · refine (missing_runs hv).imp fun v s' h => ?_
    obtain ⟨rfl, h⟩ := h
    exact h.missing hv

/-- A function whose name was read before `s₁`. -/
theorem shellFunction_runs {name : Name} (he : Enters doc d enter) (hv : Valid doc s)
    (hd : s.nesting.depth = d) (hm : Moves doc s s₁) (hlt : s.pos < s₁.pos)
    (hname : Cut doc.text name.span) :
    Runs doc (Fails doc s) (shellFunction enter (s.front doc) name) s₁ (Stands doc .final s) := by
  unfold shellFunction
  refine ((skipNewlines_runs hm.valid).stepIn hm.toKeeps).bind fun _ s₂ h₂ => ?_
  have hm₂ := hm.trans h₂
  refine ((functionBody_runs he h₂.valid (hm₂.depth.trans hd)).inside hm₂).bind
    fun body s₃ h₃ => ?_
  rw [runs_spanFrom]
  have hlt₃ : s.pos < s₃.pos := Nat.lt_of_lt_of_le hlt (Nat.le_trans h₂.pos_le h₃.pos_le)
  refine .pure ((hm₂.trans h₃.toMoves).stands hlt₃ hv (h₃.laid.after hm₂.toDrifts) rfl rfl ?_)
  simpa [Form.names] using hname


/-! ## Commands -/

/-- The pieces of a command besides its block. -/
def Draft.leading (d : Draft) : List Node :=
  d.assignments.toList ++ d.words.toList ++ d.redirects.toList ++ d.typedArgs.toList

/-- The pieces of a draft were read in the order of the nodes. -/
structure Drafted (doc : Document) (s : State) (d : Draft) (nodes : List Node) (s' : State) : Prop
    extends Yields doc .final s nodes s' where
  filed : Filed (d.assignments.toList ++ d.words.toList)
    (d.redirects.toList ++ d.typedArgs.toList) nodes
  block : d.block = none
  begun : nodes = [] ∧ s'.pos = s.pos ∨ d.leading ≠ [] ∧ s.pos < s'.pos

/-- The node that was read last is put into the middle of the second field. -/
theorem Filed.insert_right {xs ys zs nodes : List Node} {v : Node} (h : Filed xs (ys ++ zs) nodes)
    (hv : ∀ x ∈ nodes, Before x v) (hwide : v.start < v.stop) :
    Filed xs (ys ++ [v] ++ zs) (nodes ++ [v]) := by
  have h' : Filed (xs ++ ys) zs nodes := by
    refine ⟨?_, ?_, fun c hc => h.wide c (List.mem_append_right _ hc)⟩
    · rw [List.append_assoc]
      exact h.mem
    · rw [List.append_assoc]
      exact h.fits
  have hinsert := h'.insert hv
  refine ⟨?_, ?_, fun c hc => ?_⟩
  · simpa only [List.append_assoc] using hinsert.mem
  · simpa only [List.append_assoc] using hinsert.fits
  · simp only [List.mem_append, List.mem_singleton] at hc
    rcases hc with (hc | rfl) | hc
    · exact h.wide c (List.mem_append_left _ hc)
    · exact hwide
    · exact h.wide c (List.mem_append_right _ hc)

variable {draft draft' : Draft} {nodes : List Node} {v k : Node}

theorem Drafted.mem (h : Drafted doc s draft nodes s₁) : ∀ c ∈ draft.leading, c ∈ nodes := by
  intro c hc
  unfold Draft.leading at hc
  rw [List.append_assoc] at hc
  exact h.filed.mem c hc

theorem Drafted.fits (h : Drafted doc s draft nodes s₁) : draft.leading.Pairwise Fits := by
  unfold Draft.leading
  rw [List.append_assoc]
  exact h.filed.fits

theorem Drafted.before (h : Drafted doc s draft nodes s₁) (hy : Yields doc .final s₁ [v] s₂) :
    ∀ x ∈ nodes, Before x v := fun x hx =>
  Row.before h.laid hy.laid (Nat.le_refl _) hy.firm x hx v (List.mem_singleton.2 rfl)

/-- One more piece was read and put into its field. -/
theorem Drafted.piece (h : Drafted doc s draft nodes s₁) (hy : Yields doc .final s₁ [v] s₂)
    (hlt : s₁.pos < s₂.pos)
    (hfiled : Filed (draft'.assignments.toList ++ draft'.words.toList)
      (draft'.redirects.toList ++ draft'.typedArgs.toList) (nodes ++ [v]))
    (hblock : draft'.block = none) (hlead : v ∈ draft'.leading) :
    Drafted doc s draft' (nodes ++ [v]) s₂ where
  toYields := h.toYields.then hy
  filed := hfiled
  block := hblock
  begun := .inr ⟨List.ne_nil_of_mem hlead, Nat.lt_of_le_of_lt h.pos_le hlt⟩

/-- All pieces of a command are read, its block included. -/
inductive Finished (doc : Document) (s : State) : Draft → State → Prop
  | plain {draft : Draft} {nodes : List Node} {s' : State} :
      Drafted doc s draft nodes s' → Finished doc s draft s'
  | block {draft : Draft} {nodes : List Node} {k : Node} {s₁ s' : State} :
      Drafted doc s draft nodes s₁ → draft.words.isEmpty = false → Stands doc .final s₁ k s' →
      Finished doc s { draft with block := some k } s'

/-- A command over pieces that were read lies where they do. -/
theorem laid_command {c : Command Node} (hy : Yields doc .final s nodes s₁) (hv : Valid doc s)
    (hlt : s.pos < s₁.pos) (hsub : ∀ x ∈ (Form.command c).children, x ∈ nodes)
    (hlined : (Form.command c).children.Pairwise Fits) (hlead : (Form.command c).leading ≠ [])
    (hblock : ∀ k, c.block = some k → ∀ x ∈ (Form.command c).leading, Before x k) :
    Laid doc .final s [.make (.command c) (.upTo (s.front doc) s₁.pos)] s₁ := by
  have hfront := Nat.le_of_lt (hy.front_lt hlt)
  refine Row.assemble hy.laid hsub (cut_upTo hv.front_boundary hy.valid.boundary)
    nofun nofun trivial rfl hlined ?_ nofun (.inl hv.pos_le_front)
    (.inl (Nat.le_of_eq (Span.stop_upTo hfront))) ?_
  · intro k hk
    obtain ⟨v', ht⟩ := trailing?_eq_some.1 hk
    exact hblock k (takeBlock?_command_cases rfl ht).1
  · intro x hx heq hearly hheld
    rcases List.mem_append.1 hx with hx | -
    · exact startsEarly_of_leading hx heq hearly
    · -- A block that starts early does not make its command start early by itself.
      by_cases hall : ∀ y ∈ (Form.command c).leading,
          (make (.command c) (.upTo (s.front doc) s₁.pos)).start < y.start
      · exact .hollow (c := c) rfl hlead hall
      · simp only [Classical.not_forall, Nat.not_lt] at hall
        obtain ⟨y, hy', hle⟩ := hall
        have hmem : y ∈ (Form.command c).children := Form.mem_children_of_mem_leading hy'
        have heq : y.start = (make (.command c) (.upTo (s.front doc) s₁.pos)).start :=
          Nat.le_antisymm hle ((make_spans _ _).start_le_part y hmem)
        refine startsEarly_of_leading (v := make _ _) hy' heq ?_
        rcases hy.laid.late y (hsub y hmem) with hlate | ⟨hearly, -⟩
        · obtain ⟨b, hb, hstart⟩ := hheld
          have h1 := (hv.bodies b hb).lt
          have h2 := (hv.bodies b hb).le
          omega
        · exact hearly

/-- A command without any pieces is put at the start of the token ahead. -/
theorem placed_bare {c : Command Node} (h : Moves doc s s₁) (hv : Valid doc s)
    (hpos : s₁.pos = s.pos) (hchildren : (Form.command c).children = []) :
    Placed doc s (.make (.command c) (.upTo (s.front doc) s₁.pos)) s₁ := by
  have hle : s₁.pos ≤ s.front doc := hpos ▸ hv.pos_le_front
  have hspan : (make (.command c) (.upTo (s.front doc) s₁.pos)).span = .empty (s.front doc) := by
    unfold make
    rw [hchildren]
    show Span.upTo (s.front doc) s₁.pos = .empty (s.front doc)
    rw [Span.upTo, Nat.sub_eq_zero_of_le hle]
    rfl
  have hstart : (make (.command c) (.upTo (s.front doc) s₁.pos)).start = s.front doc := by
    unfold start
    rw [hspan]
    rfl
  have hstop : (make (.command c) (.upTo (s.front doc) s₁.pos)).stop = s.front doc := by
    unfold stop
    rw [hspan]
    rfl
  have hblock : c.block = none := by
    have := (List.append_eq_nil_iff.1 hchildren).2
    simpa using this
  have hyields : Yields doc .ahead s [.make (.command c) (.upTo (s.front doc) s₁.pos)] s₁ := by
    refine ⟨h, .one ?_ (.inl ?_) (.inr ⟨?_, .inl ?_⟩) rfl, ?_⟩
    · refine sound_leaf ?_ hchildren (by simp [Form.names]) trivial
      rw [hspan]
      exact cut_empty hv.front_boundary
    · rw [hstart]
      exact hv.pos_le_front
    · exact .bare (c := c) rfl hchildren (by rw [hspan]; rfl)
    · rw [hstop]
      exact (front_congr hpos h.skip).symm
    · rw [List.forall_mem_singleton]
      exact id
  have hpos_le := le_stop_make (.command c) (s.front doc) s₁.pos
  refine ⟨hyields, Nat.le_of_eq hstart, hpos_le, .mk ?_ ?_, ?_⟩
  · exact hyields.settled hv (Nat.le_of_eq hstart) hpos_le rfl (by rintro _ ⟨⟩) (by rintro ⟨⟩)
  · simp [Form.spine, hblock]
  · intro v' k ht
    have hk := (takeBlock?_command_cases rfl ht).1
    rw [hblock] at hk
    cases hk

/-- A command with pieces is in place. -/
theorem placed_command {c : Command Node} (hy : Yields doc .final s nodes s₁) (hv : Valid doc s)
    (hlt : s.pos < s₁.pos) (hsub : ∀ x ∈ (Form.command c).children, x ∈ nodes)
    (hlined : (Form.command c).children.Pairwise Fits) (hlead : (Form.command c).leading ≠ [])
    (hblock : ∀ k, c.block = some k → (∀ x ∈ (Form.command c).leading, Before x k) ∧
      Laid doc .ahead s [k] s₁ ∧ ¬ k.IsBody ∧ s₁.pos ≤ k.stop ∧
      Along Form.spine (Settled doc s₁) k) :
    Placed doc s (.make (.command c) (.upTo (s.front doc) s₁.pos)) s₁ := by
  have hl := laid_command hy hv hlt hsub hlined hlead fun k hk => (hblock k hk).1
  have hyields : Yields doc .ahead s [.make (.command c) (.upTo (s.front doc) s₁.pos)] s₁ :=
    ⟨hy.toMoves, hl.ahead, by rw [List.forall_mem_singleton]; exact id⟩
  have hstart := start_le_make (.command c) (s.front doc) s₁.pos
  have hstop := le_stop_make (.command c) (s.front doc) s₁.pos
  refine ⟨hyields, hstart, hstop, .mk ?_ ?_, ?_⟩
  · exact hyields.settled hv hstart hstop rfl nofun nofun
  · intro k hk
    exact (hblock k (Option.mem_toList.1 hk)).2.2.2.2
  · intro v' k ht
    obtain ⟨hk, hs⟩ := takeBlock?_command_cases rfl ht
    obtain ⟨-, hblock, hfirm, hle, -⟩ := hblock k hk
    refine ⟨?_, hblock, hfirm, hle⟩
    refine hyields.laid.shrunk ht hs (Nat.le_trans hstart (Nat.le_of_lt (hy.front_lt hlt))) ?_
    intro x hx
    have hx : x ∈ (Form.command c).leading := by
      simpa [Form.children, Form.leading] using hx
    exact hy.laid.ahead.done x (hsub x (Form.mem_children_of_mem_leading hx))

/-- A command that was read to its end is in place. -/
theorem Finished.placed (h : Finished doc s draft s₁) (hv : Valid doc s) :
    Placed doc s (.make (.command draft.toCommand) (.upTo (s.front doc) s₁.pos)) s₁ := by
  cases h with
  | @plain _ nodes _ h =>
    have hchildren : (Form.command draft.toCommand).children = draft.leading := by
      show draft.leading ++ draft.block.toList = _
      rw [h.block, Option.toList_none, List.append_nil]
    rcases h.begun with ⟨rfl, hpos⟩ | ⟨hlead, hlt⟩
    · refine placed_bare h.toMoves hv hpos ?_
      rw [hchildren]
      exact List.eq_nil_iff_forall_not_mem.2 fun x hx => by simpa using h.mem x hx
    · have hblock : ∀ k, draft.toCommand.block ≠ some k := by
        intro k hk
        exact absurd (h.block.symm.trans hk) (by simp)
      refine placed_command h.toYields hv hlt (hchildren ▸ h.mem) (hchildren ▸ h.fits) hlead ?_
      exact fun k hk => absurd hk (hblock k)
  | @block draft nodes k s₂ _ h hwords hk =>
    have hlead : draft.leading ≠ [] := by
      intro hnil
      simp only [Draft.leading, List.append_eq_nil_iff] at hnil
      simp [Array.toList_eq_nil_iff.1 hnil.1.1.2] at hwords
    have hy := h.toYields.then hk.toYields
    have hbefore := h.before hk.toYields
    have hlt : s.pos < s₁.pos := Nat.lt_of_le_of_lt h.pos_le hk.lt
    refine placed_command hy hv hlt ?_ ?_ hlead ?_
    · show ∀ x ∈ draft.leading ++ [k], x ∈ nodes ++ [k]
      intro x hx
      exact List.mem_append.2 ((List.mem_append.1 hx).imp_left (h.mem x))
    · show (draft.leading ++ [k]).Pairwise Fits
      refine List.pairwise_append.2 ⟨h.fits, List.pairwise_singleton _ _, fun x hx y hy => ?_⟩
      rw [List.mem_singleton.1 hy]
      exact (hbefore x (h.mem x hx)).fits
    · rintro _ ⟨⟩
      refine ⟨fun x hx => hbefore x (h.mem x hx), ?_, hk.firm k (by simp), hk.le_stop, ?_⟩
      · exact hk.laid.ahead.after h.toDrifts
      · exact .mk (hk.ahead.settled h.valid) (by simp [Form.spine_of_isClosed hk.closed])


/-- One more piece of a command was read, or it is found what the command is. -/
def Pieced (doc : Document) (s s₁ : State) : CommandRound → State → Prop
  | .again draft, s' => (∃ nodes, Drafted doc s draft nodes s') ∧ s₁.pos < s'.pos
  | .finish draft, s' => Finished doc s draft s'
  | .function name, s' => s' = s₁ ∧ s.pos < s₁.pos ∧ Cut doc.text name.span ∧
      (s₁.ahead doc).kind = .parenOpen ∧ (s₁.second doc).kind = .parenClose

theorem functionName?_runs {fail : Stopped → State → Prop} (h : Drafted doc s draft nodes s₁)
    (hk : (s₁.ahead doc).kind = .parenOpen) :
    Runs doc fail (functionName? draft) s₁ fun name? s' =>
      s' = s₁ ∧ ∀ name, name? = some name → Pieced doc s s₁ (.function name) s₁ := by
  unfold functionName?
  rw [runs_peek]
  split
  · rename_i hfunction
    simp only [Bool.and_eq_true, beq_iff_eq] at hfunction
    refine .pure ⟨rfl, fun name hname => ?_⟩
    obtain ⟨init, hwords⟩ := Array.back?_eq_some_iff.1 hname
    have hmem : name ∈ draft.leading := by
      simp [Draft.leading, hwords]
    have hlt : s.pos < s₁.pos := by
      rcases h.begun with ⟨rfl, -⟩ | ⟨-, hlt⟩
      · exact absurd (h.mem name hmem) (by simp)
      · exact hlt
    exact ⟨rfl, hlt, (h.laid.sound name (h.mem name hmem)).here.cut, hk, hfunction.2⟩
  · exact .pure ⟨rfl, nofun⟩

theorem commandWord_runs (he : Enters doc d enter) (hd : s.nesting.depth = d)
    (h : Drafted doc s draft nodes s₁) :
    Runs doc (Fails doc s) (commandWord enter draft) s₁ (Pieced doc s s₁) := by
  have hd₁ := h.depth.trans hd
  unfold commandWord
  refine .look atWord_looks fun atWord? hword => ?_
  cases atWord? with
  | false => exact .pure (.plain h)
  | true =>
    refine .look atAssignment_looks fun atAssignment? hassign => ?_
    split
    · rename_i hfirst
      rw [Bool.and_eq_true] at hfirst
      obtain ⟨hempty, rfl⟩ := hfirst
      refine ((assignment_runs he h.valid hd₁ hassign).inside h.toMoves).bind fun v s₂ h₂ => ?_
      have hwords : draft.words.toList = [] := by simpa using hempty
      refine .pure ⟨⟨_, h.piece h₂.1 h₂.2 ?_ h.block (by simp [Draft.leading])⟩, h₂.2⟩
      have hfiled := h.filed.insert (h.before h₂.1)
      rw [hwords, List.append_nil] at hfiled ⊢
      rwa [Array.toList_push]
    · refine ((word_runs he h.valid hd₁ hword).inside h.toMoves).bind fun v s₂ h₂ => ?_
      refine .pure ⟨⟨_, h.piece h₂.1 h₂.2 ?_ h.block (by simp [Draft.leading])⟩, h₂.2⟩
      rw [Array.toList_push, ← List.append_assoc]
      exact h.filed.insert (h.before h₂.1)

theorem commandRound_runs (he : Enters doc d enter) (hd : s.nesting.depth = d)
    (h : Drafted doc s draft nodes s₁) :
    Runs doc (Fails doc s) (commandRound enter draft) s₁ (Pieced doc s s₁) := by
  have hd₁ := h.depth.trans hd
  unfold commandRound
  refine .look atRedirect_looks fun atRedirect? hredirect => ?_
  cases atRedirect? with
  | true =>
    refine ((redirect_runs he h.valid hd₁ hredirect).inside h.toMoves).bind fun v s₂ h₂ => ?_
    obtain ⟨hy, hlt, hwide⟩ := h₂
    refine .pure ⟨⟨_, h.piece hy hlt ?_ h.block (by simp [Draft.leading])⟩, hlt⟩
    rw [Array.toList_push]
    exact h.filed.insert_right (h.before hy) hwide
  | false =>
    rw [if_neg (by simp), runs_currentKind]
    split
    · rename_i hk
      refine (functionName?_runs h hk).bind fun name? s₂ h₂ => ?_
      obtain ⟨rfl, hname⟩ := h₂
      split
      · rename_i name
        exact .pure (hname name rfl)
      · split
        · exact .pure (.plain h)
        · rename_i hargs
          have htyped : draft.typedArgs = none := by
            simp only [Bool.or_eq_true, not_or, Bool.not_eq_true, Option.isSome_eq_false_iff,
              Option.isNone_iff_eq_none] at hargs
            exact hargs.2
          refine ((argList_runs he h.valid hd₁ (by rw [hk]; decide)).inside h.toMoves).bind
            fun v s₃ h₃ => ?_
          obtain ⟨hy, hlt, hwide⟩ := h₃
          refine .pure ⟨⟨_, h.piece hy hlt ?_ h.block (by simp [Draft.leading])⟩, hlt⟩
          have hfiled := h.filed.push (h.before hy) hwide
          rwa [htyped, Option.toList_none, List.append_nil] at hfiled
    · rename_i hk
      refine .look atBlockOpen_looks fun atBlock? _ => ?_
      split
      · split
        · exact .pure (.plain h)
        · rename_i hwords
          refine ((braceBlock_runs he h.valid hd₁ (by rw [hk]; decide)).inside h.toMoves).bind
            fun k s₂ h₂ => ?_
          exact .pure (.block h (by simpa using hwords) h₂)
      · exact commandWord_runs he hd h
    · exact commandWord_runs he hd h

theorem simpleCommand_runs (he : Enters doc d enter) (hv : Valid doc s)
    (hd : s.nesting.depth = d) :
    Runs doc (Fails doc s) (simpleCommand enter) s (Placed doc s) := by
  unfold simpleCommand
  rw [runs_startOffset]
  have hempty : Drafted doc s {} [] s :=
    ⟨(Moves.refl hv).yields, Filed.nil, rfl, .inl ⟨rfl, rfl⟩⟩
  refine Runs.repeatRounds (fun draft s₁ => ∃ nodes, Drafted doc s draft nodes s₁)
    (fun _ _ ⟨_, h⟩ => h.valid.le_size) ⟨[], hempty⟩ fun draft s₁ ⟨nodes, h⟩ => ?_
  refine (commandRound_runs he hd h).bind fun round s₂ h₂ => ?_
  cases round with
  | again draft' => exact .pure h₂
  | finish draft' =>
    rw [runs_spanFrom]
    exact .pure (h₂.placed hv)
  | function word =>
    obtain ⟨rfl, hlt, hcut, hopen, hclose⟩ := h₂
    refine (pieceOf_runs hcut).bind fun name s₃ h₃ => ?_
    subst h₃
    refine ((discard_bump_runs h.valid (by rw [hopen]; decide)).stepIn h.toKeeps).bind
      fun _ s₄ h₄ => ?_
    have hahead : (s₄.ahead doc).kind = .parenClose := by
      rw [h₄.ahead_eq (by rw [hopen]; decide), hclose]
    have hm₄ := h.toMoves.trans h₄.toMoves
    refine ((discard_bump_runs h₄.valid (by rw [hahead]; decide)).stepIn hm₄.toKeeps).bind
      fun _ s₅ h₅ => ?_
    have hm₅ := hm₄.trans h₅.toMoves
    have hlt₅ : s.pos < s₅.pos := Nat.lt_of_lt_of_le hlt (Nat.le_trans h₄.pos_le h₅.pos_le)
    refine (shellFunction_runs he hv hd hm₅ hlt₅ hcut).bind fun v s₆ h₆ => ?_
    exact .pure (h₆.ahead.placed hv)

end

end ShellAnalysis.Parse
