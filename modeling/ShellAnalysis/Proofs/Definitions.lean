import ShellAnalysis.Proofs.Commands

/-!
# Definitions, declarations and mutations

Every production here starts with a keyword and reads its parts in the order of
the fields, so each of them `Stands`.  `construct_runs` does the work for those
that count as nested, the control flow statements included.
-/

namespace ShellAnalysis.Parse

open Text Node

section

variable {doc : Document} {e : Edge} {s s₁ : State} {d : Nat} {enter : Parser Grammar} {g : Grammar}

/-! ## Names -/

theorem ne_eof_of_continuesName {kind : TokenKind} (h : continuesName kind = true) :
    kind ≠ .eof := by
  rintro rfl
  cases h

theorem nameWord_runs {what : String} (hv : Valid doc s) :
    Runs doc (Aborts doc s) (nameWord what) s fun name s' =>
      Cut doc.text name.span ∧ Moves doc s s' := by
  unfold nameWord
  rw [runs_current]
  split
  · rename_i hat
    have hk : (s.ahead doc).kind ≠ .eof := by
      rintro heof
      rw [heof] at hat
      cases hat
    refine (discard_bump_runs hv hk).bind fun _ s₁ h₁ => ?_
    refine ((bumpWhile_runs (fun _ _ => ⟨_, rfl⟩) ?_ h₁.valid).imp_fail fun _ _ =>
      .rebase h₁.toKeeps).bind fun _ s₂ h₂ => ?_
    · intro s hmore
      have hmore : (EStateM.Result.ok ((s.front doc == s.pos) && continuesName (s.ahead doc).kind) s :
        EStateM.Result Stopped _ _) = .ok true s := hmore
      simp only [EStateM.Result.ok.injEq, Bool.and_eq_true] at hmore
      exact ne_eof_of_continuesName hmore.1.2
    rw [runs_spanFrom]
    have hcut := cut_upTo hv.front_boundary h₂.1.valid.boundary
    refine (pieceOf_runs hcut).bind fun text s₃ h₃ => ?_
    subst h₃
    exact .pure ⟨hcut, h₁.toMoves.trans h₂.1⟩
  · refine (reportExpected_runs hv).bind fun _ s₁ h₁ => ?_
    rw [runs_position, h₁.pos]
    exact .pure ⟨cut_empty hv.boundary, h₁.moves⟩

/-! ## Parameters -/

theorem param_runs {group : ParamGroup} (hg : g.Obeys doc d) (hv : Valid doc s)
    (hd : s.nesting.depth = d) (hk : (s.ahead doc).kind = .ident ∨ (s.ahead doc).kind = .ellipsis) :
    Runs doc (Fails doc s) (param g group) s fun v s' =>
      Yields doc .final s [v] s' ∧ s.pos < s'.pos := by
  unfold param
  rw [runs_startOffset]
  refine ((eat_runs hv (by decide)).stepIn (.refl s)).bind fun rest s₁ h₁ => ?_
  have hm₁ := h₁.moves hv
  refine ((identName_runs hm₁.valid).stepIn hm₁.toKeeps).bind fun name s₂ h₂ => ?_
  obtain ⟨hname, hm₂, hlt₂, -⟩ := h₂
  have hm₂' := hm₁.trans hm₂
  refine ((identName?_runs hm₂.valid).stepIn hm₂'.toKeeps).bind fun type s₃ h₃ => ?_
  obtain ⟨htype, hm₃⟩ := h₃
  have hm₃' := hm₂'.trans hm₃
  have hlt : s.pos < s₃.pos := by
    have h1 := hm₁.pos_le
    have h2 := hm₂.pos_le
    have h3 := hm₃.pos_le
    cases rest with
    | true =>
      have := h₁.2.pos_lt hv
      omega
    | false =>
      obtain ⟨hne, rfl⟩ := h₁
      have := hlt₂ (.inl (hk.resolve_right hne))
      omega
  refine ((afterEaten?_runs hm₃.valid (by decide) fun s₄ h₄ => (hg.expression 0 h₄.valid
    (h₄.depth.trans (hm₃'.depth.trans hd))).imp fun v s₅ h₅ => h₅.1).inside hm₃').bind
    fun fallback s₄ ⟨h₄, _⟩ => ?_
  rw [runs_spanFrom]
  have hlt₄ := Nat.lt_of_lt_of_le hlt h₄.pos_le
  refine .pure ⟨(hm₃'.trans h₄.toMoves).made (f := .param name type fallback group rest) hlt₄ hv
    (h₄.laid.after hm₃'.toDrifts) rfl ?_, hlt₄⟩
  intro n hn
  simp only [Form.names, List.mem_cons, Option.mem_toList] at hn
  rcases hn with rfl | hn
  · exact hname
  · exact htype n hn

theorem paramRound_runs {params : Array Node} {group : ParamGroup} (hg : g.Obeys doc d)
    (hd : s.nesting.depth = d) (h : Yields doc .final s params.toList s₁) :
    Runs doc (Fails doc s) (paramRound g params group) s₁
      (Goes (fun r s₂ => Yields doc .final s r.1.toList s₂) (Yields doc .final s) s₁) := by
  have hd₁ := h.depth.trans hd
  have hpush : ∀ {v s₂} {group' : ParamGroup}, Yields doc .final s₁ [v] s₂ ∧ s₁.pos < s₂.pos →
      Goes (fun r s₂ => Yields doc .final s r.1.toList s₂) (Yields doc .final s) s₁
        (.again (params.push v, group')) s₂ := by
    intro v s₂ group' h₂
    exact ⟨h.push h₂.1, h₂.2⟩
  have hskip : ∀ {group' : ParamGroup}, (s₁.ahead doc).kind ≠ .eof → Runs doc (Fails doc s)
      (do discard bump; return .again (params, group')) s₁
      (Goes (fun r s₂ => Yields doc .final s r.1.toList s₂) (Yields doc .final s) s₁) := by
    intro group' hk
    refine ((discard_bump_runs h.valid hk).stepIn h.toKeeps).bind fun _ s₂ h₂ => ?_
    exact .pure ⟨h.step h₂.toMoves, h₂.pos_lt h.valid⟩
  unfold paramRound
  rw [runs_currentKind]
  split
  · exact .pure h
  · exact .pure h
  · rename_i hk
    exact hskip (by rw [hk]; decide)
  · rename_i hk
    exact hskip (by rw [hk]; decide)
  · rename_i hk
    refine ((param_runs hg h.valid hd₁ (.inl hk)).inside h.toMoves).bind fun v s₂ h₂ => ?_
    exact .pure (hpush h₂)
  · rename_i hk
    refine ((param_runs hg h.valid hd₁ (.inr hk)).inside h.toMoves).bind fun v s₂ h₂ => ?_
    exact .pure (hpush h₂)
  · rename_i heof _ _ _ _
    refine ((forceAdvance_runs h.valid heof).stepIn h.toKeeps).bind fun v s₂ h₂ => ?_
    obtain ⟨rfl, h₂⟩ := h₂
    exact .pure (hpush ⟨h₂.error h.valid, h₂.pos_lt h.valid⟩)

theorem paramList_runs {group : ParamGroup} (hg : g.Obeys doc d) (hv : Valid doc s)
    (hd : s.nesting.depth = d) (hk : (s.ahead doc).kind ≠ .eof) :
    Runs doc (Fails doc s) (paramList g group) s (Yields doc .final s) := by
  unfold paramList
  refine ((discard_bump_runs hv hk).stepIn (.refl s)).bind fun _ s₁ h₁ => ?_
  have hlt := h₁.pos_lt hv
  refine (Runs.begun (closedBy_runs (R := fun params xs => xs = params ∧ ∀ x ∈ xs, ¬ x.IsBody)
    (by decide) ?_) h₁.toMoves hlt).imp fun params s₂ h₂ => ?_
  · refine ((Runs.repeatRounds (fun r s₂ => Yields doc .final s₁.skipping r.1.toList s₂)
      (fun _ _ h => h.valid.le_size) (Moves.refl (h₁.valid.nest _)).yields fun r s₂ h =>
      paramRound_runs (s := s₁.skipping) hg (h₁.depth.trans hd) h).imp_fail
      fun _ _ => Fails.strays).imp fun params s₂ h => ?_
    exact ⟨h.toDrifts, params, h.laid, rfl, h.firm⟩
  · obtain ⟨hdrifts, _, hl, rfl, hfirm⟩ := h₂
    exact ⟨h₁.toMoves.drift hlt hdrifts, hl.after h₁.toDrifts, hfirm⟩

theorem signature_runs {group : ParamGroup} {required : Bool} (hg : g.Obeys doc d)
    (hv : Valid doc s) (hd : s.nesting.depth = d) :
    Runs doc (Fails doc s) (signature g group required) s (Yields doc .final s) := by
  unfold signature
  rw [runs_atKind]
  split
  · rename_i hk
    exact paramList_runs hg hv hd (by rw [beq_iff_eq.1 hk]; decide)
  · refine (require_runs hv).bind fun _ s₁ h₁ => ?_
    exact .pure h₁.moves.yields

/-! ## Callables -/

theorem definitionBody_runs (hg : g.Obeys doc d) (hv : Valid doc s) (hd : s.nesting.depth = d) :
    Runs doc (Fails doc s) (definitionBody g) s fun v s' => Yields doc .final s [v] s' := by
  unfold definitionBody
  rw [runs_atKind]
  split
  · rename_i hk
    exact (hg.block hv hd (beq_iff_eq.1 hk)).imp fun _ _ h => h.1
  · refine (missing_runs hv).imp fun v s₁ h₁ => ?_
    obtain ⟨rfl, h₁⟩ := h₁
    exact h₁.missing hv

/-- The parts of a construct of its own, as they were read on the way from `s`. -/
structure Shaped (doc : Document) (e : Edge) (s : State) (f : Form Node) (s' : State) : Prop
    extends Drifts doc s s' where
  laid : Laid doc e s f.children s'
  plain : f.isPlain = true
  closed : f.isClosed = true
  names : ∀ name ∈ f.names, Cut doc.text name.span

/-- A construct after its keyword is read one level further in. -/
theorem construct_runs {form : Grammar → Parser (Form Node)} (he : Enters doc d enter)
    (hv : Valid doc s) (hd : s.nesting.depth = d) (hk : (s.ahead doc).kind ≠ .eof)
    (hform : ∀ g s₁, Grammar.Obeys doc (d + 1) g → Valid doc s₁.charge →
      s₁.nesting.depth = d + 1 →
      Runs doc (Strays doc s₁.charge) (form g) s₁ (Shaped doc e s₁.charge)) :
    Runs doc (Fails doc s) (construct enter form) s (Stands doc e s) := by
  unfold construct
  rw [runs_startOffset]
  refine ((discard_bump_runs hv hk).stepIn (.refl s)).bind fun _ s₁ h₁ => ?_
  refine ((he h₁.valid (h₁.depth.trans hd)).inside h₁.toMoves).bind fun g s₂ h₂ => ?_
  obtain ⟨hg, rfl⟩ := h₂
  have hcharge := (h₁.charge hv).valid
  refine (Runs.entered h₁ hv (hform g s₁.deeper hg (hcharge.congr rfl rfl rfl rfl rfl rfl)
    (congrArg (· + 1) (h₁.depth.trans hd)))).bind fun f s₃ h₃ => ?_
  rw [runs_ascend, runs_spanFrom]
  have hlt : s.pos < s₃.shallower.pos := Nat.lt_of_lt_of_le (h₁.pos_lt hv) h₃.pos_le
  have hl : Laid doc e s₁ f.children s₃.shallower := by
    cases e with
    | final => exact h₃.laid
    | ahead => exact h₃.laid
  exact .pure ((h₁.leave hv h₃.toDrifts).stands hlt hv (hl.after h₁.toDrifts) h₃.plain h₃.closed
    h₃.names)

/-- A construct that needs no round beyond what its tokens pay for. -/
theorem Runs.shaped {p : Parser (Form Node)} (hv : Valid doc s.charge)
    (h : Runs doc (Fails doc s) p s fun f s' => Yields doc e s f.children s' ∧
      f.isPlain = true ∧ f.isClosed = true ∧ ∀ name ∈ f.names, Cut doc.text name.span) :
    Runs doc (Strays doc s.charge) p s (Shaped doc e s.charge) := by
  have hu := hv.of_charge.uncharge
  refine (h.along hu).imp fun f s' h => ?_
  exact ⟨hu.trans h.1.toDrifts, h.1.laid, h.2.1, h.2.2.1, h.2.2.2⟩

theorem callable_runs {kind : CallableKind} {name : Parser Name} {group : ParamGroup}
    {required : Bool} (hname : ∀ s, Valid doc s → Runs doc (Aborts doc s) name s fun n s' =>
      Cut doc.text n.span ∧ Moves doc s s')
    (hg : g.Obeys doc d) (hv : Valid doc s.charge) (hd : s.nesting.depth = d) :
    Runs doc (Strays doc s.charge) (callable kind name group required g) s
      (Shaped doc .final s.charge) := by
  refine Runs.shaped hv ?_
  unfold callable
  refine ((hname s hv.of_charge).stepIn (.refl s)).bind fun n s₁ h₁ => ?_
  obtain ⟨hcut, hm₁⟩ := h₁
  refine ((signature_runs hg hm₁.valid (hm₁.depth.trans hd)).inside hm₁).bind
    fun params s₂ h₂ => ?_
  have hy₂ := h₂.after hm₁
  refine ((definitionBody_runs hg hy₂.valid (hy₂.depth.trans hd)).inside hy₂.toMoves).bind
    fun body s₃ h₃ => ?_
  exact .pure ⟨hy₂.then h₃, rfl, rfl, by simpa [Form.names] using hcut⟩

theorem procDef_runs (he : Enters doc d enter) (hv : Valid doc s) (hd : s.nesting.depth = d)
    (hk : (s.ahead doc).kind ≠ .eof) :
    Runs doc (Fails doc s) (procDef enter) s (Stands doc .final s) :=
  construct_runs he hv hd hk fun _ _ => callable_runs fun _ => nameWord_runs

theorem funcDef_runs (he : Enters doc d enter) (hv : Valid doc s) (hd : s.nesting.depth = d)
    (hk : (s.ahead doc).kind ≠ .eof) :
    Runs doc (Fails doc s) (funcDef enter) s (Stands doc .final s) :=
  construct_runs he hv hd hk fun _ _ => callable_runs fun _ hv =>
    (identName_runs hv).imp fun _ _ h => ⟨h.1, h.2.1⟩

theorem eatParens_runs (hv : Valid doc s) :
    Runs doc (Aborts doc s) eatParens s fun _ s' => Moves doc s s' := by
  unfold eatParens
  rw [runs_atKind, runs_peek]
  split
  · rename_i hat
    rw [Bool.and_eq_true, beq_iff_eq, beq_iff_eq] at hat
    refine (discard_bump_runs hv (by rw [hat.1]; decide)).bind fun _ s₁ h₁ => ?_
    have hahead : (s₁.ahead doc).kind = .parenClose := by
      rw [h₁.ahead_eq (by rw [hat.1]; decide), hat.2]
    refine ((discard_bump_runs h₁.valid (by rw [hahead]; decide)).imp_fail fun _ _ =>
      .rebase h₁.toKeeps).imp fun _ s₂ h₂ => ?_
    exact h₁.toMoves.trans h₂.toMoves
  · exact .pure (.refl hv)

theorem functionKeyword_runs (he : Enters doc d enter) (hv : Valid doc s)
    (hd : s.nesting.depth = d) (hk : (s.ahead doc).kind ≠ .eof) :
    Runs doc (Fails doc s) (functionKeyword enter) s (Stands doc .final s) := by
  unfold functionKeyword
  rw [runs_startOffset]
  refine ((discard_bump_runs hv hk).stepIn (.refl s)).bind fun _ s₁ h₁ => ?_
  refine ((nameWord_runs h₁.valid).stepIn h₁.toKeeps).bind fun name s₂ h₂ => ?_
  have hm₂ := h₁.toMoves.trans h₂.2
  refine ((eatParens_runs h₂.2.valid).stepIn hm₂.toKeeps).bind fun _ s₃ h₃ => ?_
  refine shellFunction_runs he hv hd (hm₂.trans h₃) ?_ h₂.1
  exact Nat.lt_of_lt_of_le (h₁.pos_lt hv) (Nat.le_trans h₂.2.pos_le h₃.pos_le)


/-! ## Variables -/

/-- The names of a declaration, as they were read. -/
structure NamedBy (doc : Document) (s : State) (names : List TypedName) (s' : State) : Prop
    extends Moves doc s s' where
  cut : ∀ n ∈ names, Cut doc.text n.name.span
  stop_le : ∀ n ∈ names, n.name.span.stop ≤ s'.pos
  types : ∀ n ∈ names, ∀ type ∈ n.type, Cut doc.text type.span

theorem NamedBy.step {names : List TypedName} (h : NamedBy doc s names s₁) (hm : Moves doc s₁ s₂) :
    NamedBy doc s names s₂ where
  toMoves := h.toMoves.trans hm
  cut := h.cut
  stop_le := fun n hn => Nat.le_trans (h.stop_le n hn) hm.pos_le
  types := h.types

theorem NamedBy.push {names : Array TypedName} {n : TypedName} (h : NamedBy doc s names.toList s₁)
    (hcut : Cut doc.text n.name.span) (hstop : n.name.span.stop ≤ s₁.pos)
    (htype : ∀ type ∈ n.type, Cut doc.text type.span) :
    NamedBy doc s (names.push n).toList s₁ where
  toMoves := h.toMoves
  cut := by
    rw [Array.toList_push, List.forall_mem_append, List.forall_mem_singleton]
    exact ⟨h.cut, hcut⟩
  stop_le := by
    rw [Array.toList_push, List.forall_mem_append, List.forall_mem_singleton]
    exact ⟨h.stop_le, hstop⟩
  types := by
    rw [Array.toList_push, List.forall_mem_append, List.forall_mem_singleton]
    exact ⟨h.types, htype⟩

theorem typedNames_runs (hv : Valid doc s) :
    Runs doc (Aborts doc s) typedNames s (NamedBy doc s) := by
  refine Runs.repeatRounds (fun names => NamedBy doc s names.toList)
    (fun _ _ h => h.valid.le_size) ⟨.refl hv, nofun, nofun, nofun⟩ fun names s₁ h => ?_
  refine ((identName_runs h.valid).imp_fail fun _ _ => .rebase h.toKeeps).bind
    fun name s₂ h₂ => ?_
  obtain ⟨hcut, hm₂, hlt, hstop⟩ := h₂
  have hnamed₂ := h.step hm₂
  split
  · exact .pure hnamed₂
  · rename_i hne
    have hlt := hlt (.inr (by simpa using hne))
    refine ((identName?_runs hm₂.valid).imp_fail fun _ _ => .rebase hnamed₂.toKeeps).bind
      fun type s₃ h₃ => ?_
    obtain ⟨htype, hm₃⟩ := h₃
    have hnamed₃ := (hnamed₂.step hm₃).push (n := ⟨name, type⟩) hcut
      (Nat.le_trans hstop hm₃.pos_le) htype
    refine ((eat_runs hm₃.valid (by decide)).imp_fail fun _ _ => .rebase hnamed₃.toKeeps).bind
      fun eaten s₄ h₄ => ?_
    have hm₄ := h₄.moves hm₃.valid
    split
    · have hlt₄ : s₁.pos < s₄.pos :=
        Nat.lt_of_lt_of_le hlt (Nat.le_trans hm₃.pos_le hm₄.pos_le)
      exact .pure ⟨hnamed₃.step hm₄, hlt₄⟩
    · exact .pure (hnamed₃.step hm₄)

theorem varDecl_runs {keyword : DeclKeyword} (he : Enters doc d enter) (hv : Valid doc s)
    (hd : s.nesting.depth = d) (hk : (s.ahead doc).kind ≠ .eof) :
    Runs doc (Fails doc s) (varDecl enter keyword) s (Stands doc .final s) := by
  unfold varDecl
  rw [runs_startOffset]
  refine ((discard_bump_runs hv hk).stepIn (.refl s)).bind fun _ s₁ h₁ => ?_
  refine ((typedNames_runs h₁.valid).stepIn h₁.toKeeps).bind fun names s₂ hnamed => ?_
  have hm₂ := h₁.toMoves.trans hnamed.toMoves
  refine ((afterEaten?_runs hm₂.valid (by decide) fun s₃ h₃ => (exprOrTuple_runs he h₃.valid
    (h₃.depth.trans (hm₂.depth.trans hd))).imp fun v s₄ h₄ => h₄.1).inside hm₂).bind
    fun value s₃ ⟨h₃, hkeys⟩ => ?_
  rw [runs_spanFrom]
  have hm₃ := hm₂.trans h₃.toMoves
  have hlt : s.pos < s₃.pos :=
    Nat.lt_of_lt_of_le (h₁.pos_lt hv) (Nat.le_trans hnamed.pos_le h₃.pos_le)
  refine .pure (hm₃.standsKeyed hlt hv (h₃.laid.after hm₂.toDrifts) rfl rfl ?_ nofun ?_)
  · intro name hname
    simp only [Form.names, List.mem_flatMap, List.mem_cons, Option.mem_toList] at hname
    obtain ⟨n, hn, rfl | hname⟩ := hname
    · exact hnamed.cut n hn
    · exact hnamed.types n hn name hname
  · cases value with
    | none => exact trivial
    | some v => exact fun n hn k hk => Nat.lt_of_le_of_lt (hnamed.stop_le n hn) (hkeys v rfl k hk)

/-! ## Mutations -/

theorem mutationTargets_runs (he : Enters doc d enter) (hv : Valid doc s)
    (hd : s.nesting.depth = d) :
    Runs doc (Fails doc s) (mutationTargets enter) s fun targets s' =>
      Yields doc .final s targets s' ∧ (s.opens doc = true → s.pos < s'.pos) := by
  refine Runs.repeatRounds (fun targets s₁ => Yields doc .final s targets.toList s₁ ∧
    (s₁ = s ∨ s.pos < s₁.pos)) (fun _ _ h => h.1.valid.le_size)
    ⟨(Moves.refl hv).yields, .inl rfl⟩ fun targets s₁ h => ?_
  obtain ⟨hy, hpos⟩ := h
  rw [runs_position]
  refine ((place_runs he hy.valid (hy.depth.trans hd)).inside hy.toMoves).bind fun v s₂ h₂ => ?_
  have hle := h₂.1.pos_le
  rw [runs_position]
  split
  · rename_i hstill
    have hstill : s₂.pos = s₁.pos := beq_iff_eq.1 hstill
    refine .pure ⟨hy.step h₂.1.toMoves, fun hopens => ?_⟩
    rcases hpos with rfl | hpos
    · exact absurd (h₂.2 hopens) (by omega)
    · omega
  · rename_i hmoved
    have hlt : s₁.pos < s₂.pos := h₂.1.pos_lt_of_not_beq hmoved
    refine ((eat_runs h₂.1.valid (by decide)).stepIn (hy.toKeeps.trans h₂.1.toKeeps)).bind
      fun eaten s₃ h₃ => ?_
    have hm₃ := h₃.moves h₂.1.valid
    have hle₃ := hm₃.pos_le
    have hlt₃ : s.pos < s₃.pos := by
      rcases hpos with rfl | hpos <;> omega
    have hy₃ := hy.push (h₂.1.step hm₃)
    split
    · exact .pure ⟨⟨hy₃, .inr hlt₃⟩, by omega⟩
    · exact .pure ⟨hy₃, fun _ => hlt₃⟩

theorem ne_eof_of_assignOp? {kind : TokenKind} {op : AssignOp} (h : assignOp? kind = some op) :
    kind ≠ .eof := by
  rintro rfl
  cases h

theorem mutationValue_runs (he : Enters doc d enter) (hv : Valid doc s)
    (hd : s.nesting.depth = d) :
    Runs doc (Fails doc s) (mutationValue enter) s fun r s' => Yields doc .final s [r.2] s' := by
  unfold mutationValue
  rw [runs_currentKind]
  split
  · rename_i op hop
    refine ((discard_bump_runs hv (ne_eof_of_assignOp? hop)).stepIn (.refl s)).bind
      fun _ s₁ h₁ => ?_
    refine ((exprOrTuple_runs he h₁.valid (h₁.depth.trans hd)).inside h₁.toMoves).bind
      fun v s₂ h₂ => ?_
    exact .pure (h₂.1.after h₁.toMoves)
  · refine (missing_runs hv).bind fun v s₁ h₁ => ?_
    obtain ⟨rfl, h₁⟩ := h₁
    exact .pure (h₁.missing hv)

/-- A mutation starts with its keyword or with the name of its first target. -/
theorem mutation_runs {keyword : MutationKeyword} (he : Enters doc d enter) (hv : Valid doc s)
    (hd : s.nesting.depth = d) (hk : (s.ahead doc).kind = .ident) :
    Runs doc (Fails doc s) (mutation enter keyword) s (Stands doc .final s) := by
  unfold mutation
  rw [runs_startOffset]
  refine Runs.bind (R := fun _ s₁ => Moves doc s s₁ ∧ (s₁ = s ∨ s.pos < s₁.pos)) ?_
    fun _ s₁ h₁ => ?_
  · unfold mutationOpener
    split
    · refine ((discard_bump_runs hv (by rw [hk]; decide)).stepIn (.refl s)).imp fun _ s₁ h₁ => ?_
      exact ⟨h₁.toMoves, .inr (h₁.pos_lt hv)⟩
    · exact .pure ⟨.refl hv, .inl rfl⟩
  · obtain ⟨hm₁, hpos⟩ := h₁
    refine ((mutationTargets_runs he hm₁.valid (hm₁.depth.trans hd)).inside hm₁).bind
      fun targets s₂ h₂ => ?_
    have hle₂ := h₂.1.pos_le
    have hlt : s.pos < s₂.pos := by
      rcases hpos with rfl | hpos
      · exact h₂.2 (opens_of_ident hk)
      · omega
    have hy₂ := h₂.1.after hm₁
    refine ((mutationValue_runs he hy₂.valid (hy₂.depth.trans hd)).inside hy₂.toMoves).bind
      fun (op, value) s₃ h₃ => ?_
    rw [runs_spanFrom]
    have hy₃ := hy₂.then h₃
    exact .pure (hy₃.toMoves.stands (f := .mutation keyword targets op value)
      (Nat.lt_of_lt_of_le hlt h₃.pos_le) hv hy₃.laid rfl rfl (by simp [Form.names]))

theorem exprStatement_runs {keyword : ExprKeyword} (he : Enters doc d enter) (hv : Valid doc s)
    (hd : s.nesting.depth = d) (hk : (s.ahead doc).kind ≠ .eof) :
    Runs doc (Fails doc s) (exprStatement enter keyword) s (Stands doc .final s) := by
  unfold exprStatement
  rw [runs_startOffset]
  refine ((discard_bump_runs hv hk).stepIn (.refl s)).bind fun _ s₁ h₁ => ?_
  refine ((expression_runs he h₁.valid (h₁.depth.trans hd)).inside h₁.toMoves).bind
    fun v s₂ h₂ => ?_
  rw [runs_spanFrom]
  have hlt : s.pos < s₂.pos := Nat.lt_of_lt_of_le (h₁.pos_lt hv) h₂.1.pos_le
  exact .pure ((h₁.toMoves.trans h₂.1.toMoves).stands hlt hv (h₂.1.laid.after h₁.toDrifts) rfl rfl
    (by simp [Form.names]))

end

end ShellAnalysis.Parse
