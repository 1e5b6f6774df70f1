import ShellAnalysis.Proofs.Definitions

/-!
# Control flow

The statements of a condition and of a body become blocks.  A block over
statements that end late ends late itself, so a row of parts may reach to the
token ahead until a closing keyword is consumed.

Every list of statements costs one round more than the bytes it consumes pay
for.  A list is therefore run only after a token, whose bytes pay for it:
`Armed` and `Bodied` say so by counting from a state that is charged.
-/

namespace ShellAnalysis.Parse

open Text Node

section

variable {doc : Document} {s s₁ s₂ s' : State} {d : Nat} {g : Grammar} {stops : List StopAt}

/-! ## Conditions and bodies -/

/-- A node that starts where the row does or is pulled back to a body that waits. -/
theorem Row.starts {text : String} {lo hi edge : Nat} {held : List Node} {v : Node}
    (h : Row text lo held hi edge [v]) (hfirm : ¬ v.IsBody) : lo ≤ v.start ∨ v.StartsEarly := by
  rcases h.late v (by simp) with hle | ⟨hearly | hbody, -⟩
  · exact .inl hle
  · exact .inr hearly
  · exact absurd hbody hfirm

/-- A body that was read from `s` with a round to spare. -/
structure Bodied (doc : Document) (s : State) (v : Node) (s' : State) : Prop
    extends Passes doc s.charge s' where
  laid : Laid doc .ahead s [v] s'
  firm : ¬ v.IsBody

theorem blockUntil_runs (hg : g.Obeys doc d) (hv : Valid doc s.charge) (hd : s.nesting.depth = d) :
    Runs doc (Aborts doc s) (blockUntil g stops) s (Bodied doc s) := by
  unfold blockUntil
  refine (hg.statements stops false hv hd).bind fun xs s₁ h₁ => ?_
  rw [runs_position]
  refine .pure ⟨h₁.toPasses, ?_, id⟩
  refine blockOf_row [] ?_ h₁.valid.boundary h₁.pos_le (Nat.le_refl _) nofun
  rw [List.append_nil]
  exact h₁.laid

/-- A condition and the body it guards, read from `s` with a round to spare. -/
structure Armed (doc : Document) (s : State) (arm : Arm) (s' : State) : Prop
    extends Drifts doc s.charge s' where
  laid : Laid doc .ahead s [arm.condition, arm.body] s'

/-- A body after the statements of the condition and a keyword. -/
theorem Listed.keyword {stopAfterBlock : Bool} {xs : List Node} {body : Node} {style : ConditionStyle}
    (hv : Valid doc s) (h₁ : Listed doc stops stopAfterBlock s xs s₁) (h₂ : Bumped doc s₁ s₂)
    (h₃ : Bodied doc s₂ body s') :
    Armed doc s ⟨style, blockOf xs s.pos, body, false⟩ s' where
  toDrifts := (h₁.toDrifts.trans (h₂.charge h₁.valid).toDrifts).trans h₃.toDrifts
  laid := by
    have hle := Nat.le_trans h₁.pos_le (Nat.le_trans h₂.pos_le h₃.pos_le)
    have hdrift : Drifts doc s.charge s₂.charge :=
      h₁.toDrifts.trans (h₂.charge h₁.valid).toDrifts
    have hcommands : Laid doc .ahead s.charge xs s₂.charge :=
      (h₁.laid.final_of_lt h₂.pos_le h₂.front_lt).ahead (e := .ahead)
    have hlaid : Laid doc .ahead s₂.charge [body] s' := h₃.laid
    have hbody : Laid doc .ahead s.charge [body] s' := hlaid.after hdrift
    refine blockOf_row [body] ?_ hv.boundary (Nat.le_refl _) hle fun _ y hy => ?_
    · refine hcommands.append hlaid hdrift h₃.toPasses ?_
      rw [List.forall_mem_singleton]
      exact h₃.firm
    · rw [List.mem_singleton.1 hy]
      exact Row.starts hbody h₃.firm

/-- The block argument of the last statement of the condition is the body. -/
theorem Listed.block {stopAfterBlock : Bool} {xs xs' : List Node} {k : Node} {style : ConditionStyle}
    (hv : Valid doc s) (h₁ : Listed doc stops stopAfterBlock s xs s₁)
    (ht : takeLastBlock? xs = some (some (xs', k))) :
    Armed doc s ⟨style, blockOf xs' s.pos, k, true⟩ s₁ where
  toDrifts := h₁.toDrifts
  laid := by
    obtain ⟨hl, hfirm⟩ := h₁.tail xs' k ht
    refine blockOf_row [k] hl hv.boundary (Nat.le_refl _) h₁.pos_le fun _ y hy => ?_
    rw [List.mem_singleton.1 hy]
    exact Row.starts (hl.sublist (List.sublist_append_right xs' [k])) hfirm

/-- The body is missing. -/
theorem Listed.missing {stopAfterBlock : Bool} {xs : List Node} {style : ConditionStyle}
    (hv : Valid doc s) (h₁ : Listed doc stops stopAfterBlock s xs s₁) (h₂ : Still doc s₁ s') :
    Armed doc s ⟨style, blockOf xs s.pos, .error (.empty s₁.pos), false⟩ s' where
  toDrifts := h₁.toDrifts.trans h₂.moves.toDrifts
  laid := by
    have hbody := h₂.missing (e := .ahead) h₁.valid
    have hle := Nat.le_trans h₁.pos_le h₂.moves.pos_le
    refine blockOf_row [.error (.empty s₁.pos)] ?_ hv.boundary (Nat.le_refl _) hle
      fun _ y hy => ?_
    · exact Laid.append (s := s.charge) h₁.laid hbody.laid h₁.toDrifts h₂.moves.toPasses hbody.firm
    · rw [List.mem_singleton.1 hy]
      exact .inl h₁.pos_le

theorem conditionalArm_runs {keyword : String} {conditionStops bodyStops : List StopAt}
    (hg : g.Obeys doc d) (hv : Valid doc s.charge) (hd : s.nesting.depth = d) :
    Runs doc (Strays doc s.charge) (conditionalArm g keyword conditionStops bodyStops) s
      (Armed doc s) := by
  have hv' := hv.of_charge
  have hu := hv'.uncharge
  unfold conditionalArm
  rw [runs_atKind]
  split
  · rename_i hk
    refine ((parenExpr_runs hg hv' hd (by rw [beq_iff_eq.1 hk]; decide)).along hu).bind
      fun condition s₁ h₁ => ?_
    refine ((definitionBody_runs hg h₁.1.valid (h₁.1.depth.trans hd)).along
      (hu.trans h₁.1.toDrifts)).bind fun body s₂ h₂ => ?_
    have hy := h₁.1.then h₂
    exact .pure ⟨hu.trans hy.toDrifts, hy.laid.ahead⟩
  rw [runs_position]
  refine ((hg.statements conditionStops true hv hd).stepOn hu.toKeeps).bind fun xs s₁ h₁ => ?_
  refine ((eatKeyword_runs h₁.valid).stepOn h₁.toKeeps).bind fun eaten s₂ h₂ => ?_
  cases eaten with
  | true =>
    have hcharge := h₂.2.charge h₁.valid
    have hd₂ := h₂.2.depth.trans (h₁.depth.trans hd)
    refine ((blockUntil_runs hg hcharge.valid hd₂).stepOn
      (h₁.toKeeps.trans h₂.2.toKeeps)).bind fun body s₃ h₃ => ?_
    exact .pure (h₁.keyword hv' h₂.2 h₃)
  | false =>
    obtain rfl : s₂ = s₁ := h₂
    rw [if_neg (by simp)]
    obtain ⟨found, hfound⟩ := exists_takeLastBlock? h₁.laid.sound
    rw [hfound, runs_orFault]
    cases found with
    | some p => exact .pure (h₁.block hv' hfound)
    | none =>
      refine (missing_runs h₁.valid).bind fun body s₃ h₃ => ?_
      obtain ⟨rfl, h₃⟩ := h₃
      exact .pure (h₁.missing hv' h₃)

theorem closeBody_runs {braced : Bool} {word : String} (hv : Valid doc s) :
    Runs doc (Aborts doc s) (closeBody braced word) s fun _ s' => Moves doc s s' := by
  unfold closeBody
  split
  · exact expectKeyword_moves hv
  · exact .pure (.refl hv)

/-! ## if -/

/-- A body after a token. -/
theorem Bodied.yields {v : Node} (h : Bumped doc s s₁) (hv : Valid doc s)
    (h' : Bodied doc s₁ v s') : Yields doc .ahead s [v] s' where
  toMoves := (h.charge hv).drift (h.pos_lt hv) h'.toDrifts
  laid := h'.laid.after h.toDrifts
  firm := by
    rw [List.forall_mem_singleton]
    exact h'.firm

theorem elifArm_runs (hg : g.Obeys doc d) (hv : Valid doc s) (hd : s.nesting.depth = d)
    (hk : (s.ahead doc).kind ≠ .eof) :
    Runs doc (Fails doc s) (elifArm g) s fun v s' =>
      Yields doc .ahead s [v] s' ∧ s.pos < s'.pos := by
  unfold elifArm
  rw [runs_startOffset]
  refine ((discard_bump_runs hv hk).stepIn (.refl s)).bind fun _ s₁ h₁ => ?_
  have hcharge := h₁.charge hv
  have hlt := h₁.pos_lt hv
  refine ((conditionalArm_runs hg hcharge.valid (h₁.depth.trans hd)).begun hcharge hlt).bind
    fun arm s₂ h₂ => ?_
  rw [runs_spanFrom]
  have hlt₂ : s.pos < s₂.pos := Nat.lt_of_lt_of_le hlt h₂.pos_le
  exact .pure ⟨(hcharge.drift hlt h₂.toDrifts).made (f := .elifArm arm.condition arm.body) hlt₂ hv
    (h₂.laid.after h₁.toDrifts) rfl (by simp [Form.names]), hlt₂⟩

theorem elsePart_runs {braced : Bool} (hg : g.Obeys doc d) (hv : Valid doc s)
    (hd : s.nesting.depth = d) :
    Runs doc (Fails doc s) (elsePart g braced) s fun v? s' =>
      Yields doc .ahead s v?.toList s' := by
  unfold elsePart
  refine ((eatKeyword_runs hv).stepIn (.refl s)).bind fun eaten s₁ h₁ => ?_
  cases eaten with
  | true =>
    obtain ⟨-, h₁⟩ := h₁
    have hd₁ := h₁.depth.trans hd
    rw [if_pos rfl]
    split
    · refine .map (((definitionBody_runs hg h₁.valid hd₁).inside h₁.toMoves).imp fun v s₂ h₂ => ?_)
      exact (h₂.after h₁.toMoves).ahead
    · refine .map (((blockUntil_runs hg (h₁.charge hv).valid hd₁).stepIn h₁.toKeeps).imp
        fun v s₂ h₂ => ?_)
      exact Bodied.yields h₁ hv h₂
  | false =>
    obtain rfl : s₁ = s := h₁
    exact .pure (Moves.refl hv).yields

theorem ifForm_runs (hg : g.Obeys doc d) (hv : Valid doc s.charge) (hd : s.nesting.depth = d) :
    Runs doc (Strays doc s.charge) (ifForm g) s (Shaped doc .ahead s.charge) := by
  unfold ifForm
  refine (conditionalArm_runs hg hv hd).bind fun arm s₁ h₁ => ?_
  have hd₁ := h₁.depth.trans hd
  refine Runs.bind (R := fun elifs s₂ => Yields doc .ahead s₁ elifs s₂) ?_ fun elifs s₂ h₂ => ?_
  · refine ((Runs.manyWhile (fun elifs s₂ => Yields doc .ahead s₁ elifs s₂)
      (fun _ _ h => h.valid.le_size) (atKeyword_looks _) (Moves.refl h₁.valid).yields ?_).along
      h₁.toDrifts).imp fun _ _ h => h.1
    intro elifs s₂ h₂ hat
    refine ((elifArm_runs hg h₂.valid (h₂.depth.trans hd₁)
      (by rw [atKeyword_true hat]; decide)).inside h₂.toMoves).imp fun v s₃ h₃ => ?_
    exact ⟨h₂.then h₃.1, h₃.2⟩
  refine ((elsePart_runs hg h₂.valid (h₂.depth.trans hd₁)).along
    (h₁.toDrifts.trans h₂.toDrifts)).bind fun elseBody s₃ h₃ => ?_
  have hy₃ := h₂.then h₃
  have hd₃ := h₁.toDrifts.trans hy₃.toDrifts
  refine ((closeBody_runs h₃.valid).stepOn hd₃.toKeeps).bind fun _ s₄ h₄ => ?_
  have hy₄ := hy₃.step h₄
  refine .pure ⟨h₁.toDrifts.trans hy₄.toDrifts, ?_, rfl, rfl, by simp [Form.names]⟩
  show Laid doc .ahead s.charge ([arm.condition, arm.body] ++ (elifs ++ elseBody.toList)) s₄
  exact Laid.append (s := s.charge) h₁.laid hy₄.laid h₁.toDrifts hy₄.toPasses hy₄.firm

/-! ## Loops -/

theorem whileForm_runs {negated : Bool} (hg : g.Obeys doc d) (hv : Valid doc s.charge)
    (hd : s.nesting.depth = d) :
    Runs doc (Strays doc s.charge) (whileForm negated g) s (Shaped doc .ahead s.charge) := by
  unfold whileForm
  refine (conditionalArm_runs hg hv hd).bind fun arm s₁ h₁ => ?_
  refine ((closeBody_runs h₁.valid).stepOn h₁.toKeeps).bind fun _ s₂ h₂ => ?_
  exact .pure ⟨h₁.toDrifts.trans h₂.toDrifts, Laid.until (s := s.charge) h₁.laid h₂.toPasses, rfl, rfl,
    by simp [Form.names]⟩

theorem loopVariables_runs (hv : Valid doc s) :
    Runs doc (Aborts doc s) loopVariables s fun names s' =>
      Moves doc s s' ∧ ∀ name ∈ names, Cut doc.text name.span := by
  refine Runs.repeatRounds (fun names s' => Moves doc s s' ∧
    ∀ name ∈ names.toList, Cut doc.text name.span) (fun _ _ h => h.1.valid.le_size)
    ⟨.refl hv, by simp⟩ fun names s₁ h => ?_
  obtain ⟨hm, hnames⟩ := h
  refine ((identName_runs hm.valid).imp_fail fun _ _ => .rebase hm.toKeeps).bind
    fun name s₂ h₂ => ?_
  obtain ⟨hcut, hm₂, hlt, -⟩ := h₂
  have hm₂' := hm.trans hm₂
  split
  · exact .pure ⟨hm₂', hnames⟩
  · rename_i hne
    have hlt := hlt (.inr (by simpa using hne))
    have hpush : ∀ n ∈ (names.push name).toList, Cut doc.text n.span := by
      rw [Array.toList_push, List.forall_mem_append, List.forall_mem_singleton]
      exact ⟨hnames, hcut⟩
    refine ((eat_runs hm₂.valid (by decide)).imp_fail fun _ _ => .rebase hm₂'.toKeeps).bind
      fun eaten s₃ h₃ => ?_
    have hm₃ := h₃.moves hm₂.valid
    split
    · exact .pure ⟨⟨hm₂'.trans hm₃, hpush⟩, Nat.lt_of_lt_of_le hlt hm₃.pos_le⟩
    · exact .pure ⟨hm₂'.trans hm₃, hpush⟩

theorem loopIterable_runs (hg : g.Obeys doc d) (hv : Valid doc s) (hd : s.nesting.depth = d) :
    Runs doc (Fails doc s) (loopIterable g) s fun r s' => Yields doc .final s r.2 s' := by
  unfold loopIterable
  refine ((eatKeyword_runs hv).stepIn (.refl s)).bind fun eaten s₁ h₁ => ?_
  have hm₁ := h₁.moves hv
  have hd₁ := hm₁.depth.trans hd
  split
  · exact .pure hm₁.yields
  rw [runs_atKind]
  split
  · rename_i hk
    refine ((parenExpr_runs hg hm₁.valid hd₁ (by rw [beq_iff_eq.1 hk]; decide)).inside hm₁).bind
      fun v s₂ h₂ => ?_
    exact .pure (h₂.1.after hm₁)
  · refine Runs.bind (R := fun words s₂ => Yields doc .final s words s₂) ?_
      fun words s₂ h₂ => .pure h₂
    refine (Runs.manyWhile (fun words s₂ => Yields doc .final s words s₂)
      (fun _ _ h => h.valid.le_size) ?_ hm₁.yields ?_).imp fun _ _ h => h.1
    · exact .bind atWord_looks fun _ => .bind (atKeyword_looks _) fun _ => .pure _
    · intro words s₂ h₂ hat
      have hword : atWord doc s₂ = .ok true s₂ := by
        obtain ⟨b, hb⟩ := atWord_looks doc s₂
        have hrun : Runs doc (fun _ _ => False)
            (do return (← atWord) && !(← atKeyword "do")) s₂ fun r _ => r = true → b = true := by
          refine .look atWord_looks fun b' hb' => ?_
          rw [hb] at hb'
          cases hb'
          refine .look (atKeyword_looks _) fun c _ => .pure fun h => ?_
          exact (Bool.and_eq_true_iff.1 h).1
        rw [hrun.of_ok hat rfl] at hb
        exact hb
      refine ((hg.word h₂.valid (h₂.depth.trans hd) hword).inside h₂.toMoves).imp
        fun v s₃ h₃ => ?_
      exact ⟨h₂.then h₃.1, h₃.2⟩

theorem atSeparator_looks : Looks atSeparator := fun _ _ => ⟨_, rfl⟩

instance : Looking atSeparator := ⟨atSeparator_looks⟩

/-- A separator is a newline or a semicolon. -/
theorem atSeparator_true (h : atSeparator doc s = .ok true s) :
    (s.ahead doc).kind = .newline ∨ (s.ahead doc).kind = .semi := by
  have h : EStateM.Result.ok ((s.ahead doc).kind == .newline || (s.ahead doc).kind == .semi) s =
    (.ok true s : EStateM.Result Stopped _ _) := h
  simpa using h

theorem ne_eof_of_atSeparator (h : atSeparator doc s = .ok true s) :
    (s.ahead doc).kind ≠ .eof := by
  rcases atSeparator_true h with h | h <;> rw [h] <;> decide

theorem forBody_runs (hg : g.Obeys doc d) (hv : Valid doc s) (hd : s.nesting.depth = d) :
    Runs doc (Fails doc s) (forBody g) s fun v s' => Yields doc .ahead s [v] s' := by
  unfold forBody
  rw [runs_atKind]
  split
  · rename_i hk
    exact (hg.block hv hd (beq_iff_eq.1 hk)).imp fun _ _ h => h.1.ahead
  · refine ((bumpWhile_runs atSeparator_looks (fun _ => ne_eof_of_atSeparator) hv).stepIn
      (.refl s)).bind fun _ s₁ h₁ => ?_
    obtain ⟨hm₁, -⟩ := h₁
    refine ((eatKeyword_runs hm₁.valid).stepIn hm₁.toKeeps).bind fun eaten s₂ h₂ => ?_
    cases eaten with
    | true =>
      obtain ⟨-, h₂⟩ := h₂
      have hm₂ := hm₁.trans h₂.toMoves
      rw [if_pos rfl]
      refine ((blockUntil_runs hg (h₂.charge hm₁.valid).valid (hm₂.depth.trans hd)).stepIn
        hm₂.toKeeps).bind fun v s₃ h₃ => ?_
      have hy₃ := (Bodied.yields h₂ hm₁.valid h₃).after hm₁
      refine ((expectKeyword_moves h₃.valid).stepIn hy₃.toKeeps).bind fun _ s₄ h₄ => ?_
      exact .pure (hy₃.step h₄)
    | false =>
      obtain rfl : s₂ = s₁ := h₂
      rw [if_neg (by simp)]
      refine (missing_runs hm₁.valid).imp fun v s₃ h₃ => ?_
      obtain ⟨rfl, h₃⟩ := h₃
      exact (h₃.missing hm₁.valid).after hm₁

theorem forForm_runs (hg : g.Obeys doc d) (hv : Valid doc s.charge) (hd : s.nesting.depth = d) :
    Runs doc (Strays doc s.charge) (forForm g) s (Shaped doc .ahead s.charge) := by
  refine Runs.shaped hv ?_
  have hv := hv.of_charge
  unfold forForm
  refine ((loopVariables_runs hv).stepIn (.refl s)).bind fun vars s₁ h₁ => ?_
  obtain ⟨hm₁, hvars⟩ := h₁
  refine ((loopIterable_runs hg hm₁.valid (hm₁.depth.trans hd)).inside hm₁).bind
    fun (style, iterable) s₂ h₂ => ?_
  have hy₂ := (h₂.after hm₁).ahead (e := .ahead)
  refine ((forBody_runs hg hy₂.valid (hy₂.depth.trans hd)).inside hy₂.toMoves).bind
    fun body s₃ h₃ => ?_
  exact .pure ⟨hy₂.then h₃, rfl, rfl, hvars⟩

/-! ## case -/

/-- Nodes that were read on the way from `s`, where the last one may reach to the token ahead. -/
structure Trail (doc : Document) (s : State) (nodes : List Node) (s' : State) : Prop
    extends Passes doc s s' where
  laid : Laid doc .ahead s nodes s'
  firm : ∀ x ∈ nodes, ¬ x.IsBody

theorem Trail.nil (hv : Valid doc s) : Trail doc s [] s :=
  ⟨(Moves.refl hv).toPasses, .nil, by simp⟩

theorem Trail.append {xs ys : List Node} (h : Trail doc s xs s₁) (h' : Trail doc s₁ ys s₂) :
    Trail doc s (xs ++ ys) s₂ where
  toPasses := h.toPasses.trans h'.toPasses
  laid := h.laid.append h'.laid h.toDrifts h'.toPasses h'.firm
  firm := fun x hx => (List.mem_append.1 hx).elim (h.firm x) (h'.firm x)

theorem Trail.push {parts : Array Node} {v : Node} (h : Trail doc s parts.toList s₁)
    (h' : Trail doc s₁ [v] s₂) : Trail doc s (parts.push v).toList s₂ := by
  rw [Array.toList_push]
  exact h.append h'

theorem Trail.step {xs : List Node} (h : Trail doc s xs s₁) (h' : Passes doc s₁ s₂) :
    Trail doc s xs s₂ :=
  ⟨h.toPasses.trans h', h.laid.until h', h.firm⟩

theorem Trail.after {xs : List Node} (h : Trail doc s₁ xs s₂) (h' : Passes doc s s₁) :
    Trail doc s xs s₂ :=
  ⟨h'.trans h.toPasses, h.laid.after h'.toDrifts, h.firm⟩

/-- A node whose bytes pay for the round after it. -/
theorem Yields.trail {v : Node} (h : Yields doc .ahead s [v] s') (hv : Valid doc s)
    (hlt : s.pos < s'.pos) : Trail doc s [v] s'.charge :=
  ⟨h.toMoves.charge hv hlt, h.laid, h.firm⟩

/-- What was consumed pays for the list after it and for another round. -/
theorem Moves.charge_again (h : Moves doc s s₁) (hv : Valid doc s) (hlt : s.pos < s₁.pos)
    (h' : Passes doc s₁.charge s₂) : Passes doc s s₂.charge := by
  have hp := (h.charge hv hlt).trans h'
  have h1 := h.paid hlt
  have h2 := h'.debt_le
  have h3 := hv.debt
  rw [debt_charge] at h2
  exact { hp with
    valid := hp.valid.charge (by omega)
    debt_le := by rw [debt_charge]; omega }

/-- One round of a list of arms, and the way on from it. -/
theorem Trail.count {xs : List Node} (h : Trail doc s xs s₁.charge) :
    Runs doc (Strays doc s) countIteration s₁ fun _ s₂ => s₂ = s₁.charge :=
  (countIteration_runs h.valid.of_charge).stepOn ⟨h.skip, h.backticks, h.statements⟩

theorem bracedPattern?_runs (hg : g.Obeys doc d) (hv : Valid doc s) (hd : s.nesting.depth = d) :
    Runs doc (Fails doc s) (bracedPattern? g) s fun v? s' =>
      Yields doc .final s v?.toList s' ∧ (v?.isSome = true → s.pos < s'.pos) := by
  unfold bracedPattern?
  rw [runs_currentKind]
  split
  · rename_i hk
    exact .map ((parenExpr_runs hg hv hd (by rw [hk]; decide)).imp fun _ _ h => ⟨h.1, fun _ => h.2⟩)
  · rename_i hk
    exact .map ((regexLiteral_runs hv (by rw [hk]; decide)).imp fun _ _ h => ⟨h.1, fun _ => h.2⟩)
  · refine .look atWord_looks fun b hb => ?_
    split
    · rename_i heq
      subst heq
      exact .map ((hg.word hv hd hb).imp fun _ _ h => ⟨h.1, fun _ => h.2⟩)
    · exact .pure ⟨(Moves.refl hv).yields, nofun⟩

/-- A pattern was read, and a `|` may stand after it. -/
theorem morePatterns_runs {patterns : Array Node} {v : Node} (h : Yields doc .final s patterns.toList s₁)
    (h' : Yields doc .final s₁ [v] s₂) (hlt : s₁.pos < s₂.pos) :
    Runs doc (Fails doc s) (do
        if ← eat .pipe then return .again (patterns.push v)
        else return .finish (patterns.push v).toList : Parser (Round (Array Node) (List Node))) s₂
      (Goes (fun patterns => Yields doc .final s patterns.toList) (Yields doc .final s) s₁) := by
  have hy₂ := h.push h'
  refine ((eat_runs hy₂.valid (by decide)).stepIn hy₂.toKeeps).bind fun eaten s₃ h₃ => ?_
  have hm₃ := h₃.moves hy₂.valid
  split
  · exact .pure ⟨hy₂.step hm₃, Nat.lt_of_lt_of_le hlt hm₃.pos_le⟩
  · exact .pure (hy₂.step hm₃)

theorem bracedPatterns_runs (hg : g.Obeys doc d) (hv : Valid doc s) (hd : s.nesting.depth = d) :
    Runs doc (Fails doc s) (bracedPatterns g) s (Yields doc .final s) := by
  refine Runs.repeatRounds (fun patterns => Yields doc .final s patterns.toList)
    (fun _ _ h => h.valid.le_size) (Moves.refl hv).yields fun patterns s₁ h => ?_
  refine ((bracedPattern?_runs hg h.valid (h.depth.trans hd)).inside h.toMoves).bind
    fun v? s₂ h₂ => ?_
  cases v? with
  | none => exact .pure (h.step h₂.1.toMoves)
  | some v => exact morePatterns_runs h h₂.1 (h₂.2 rfl)

theorem wordPatterns_runs (hg : g.Obeys doc d) (hv : Valid doc s) (hd : s.nesting.depth = d) :
    Runs doc (Fails doc s) (wordPatterns g) s (Yields doc .final s) := by
  refine Runs.repeatRounds (fun patterns => Yields doc .final s patterns.toList)
    (fun _ _ h => h.valid.le_size) (Moves.refl hv).yields fun patterns s₁ h => ?_
  refine .look atWord_looks fun b hb => ?_
  cases b with
  | false => exact .pure h
  | true =>
    rw [if_neg (by simp)]
    refine ((hg.word h.valid (h.depth.trans hd) hb).inside h.toMoves).bind fun v s₂ h₂ => ?_
    exact morePatterns_runs h h₂.1 h₂.2

/-- An arm over its patterns and its body. -/
theorem Trail.arm {patterns : List Node} {body : Node} (hv : Valid doc s)
    (h : Trail doc s (patterns ++ [body]) s') (hlt : s.pos < s'.pos) :
    Trail doc s [.make (.caseArm patterns body) (.upTo (s.front doc) s'.pos)] s' where
  toPasses := h.toPasses
  laid := h.laid.make (f := .caseArm patterns body) rfl (by simp [Form.names]) h.valid
    hv.front_boundary hv.pos_le_front (Nat.le_of_lt (h.front_lt hlt))
  firm := by
    rw [List.forall_mem_singleton]
    exact id

/-- A token in the place of an arm. -/
theorem forceArm_runs {what : String} {arms : Array Node} (h : Trail doc s arms.toList s₁)
    (hk : (s₁.ahead doc).kind ≠ .eof) (hle : s₂.pos ≤ s₁.pos) :
    Runs doc (Strays doc s) (do return .again (arms.push (← forceAdvance what)) :
        Parser (Round (Array Node) (List Node))) s₁
      (Goes (fun arms s' => Trail doc s arms.toList s'.charge) (Trail doc s) s₂) := by
  refine ((forceAdvance_runs h.valid hk).stepOn h.toKeeps).bind fun v s₃ h₃ => ?_
  obtain ⟨rfl, h₃⟩ := h₃
  have hlt := h₃.pos_lt h.valid
  exact .pure ⟨h.push ((h₃.error h.valid).trail h.valid hlt), Nat.lt_of_le_of_lt hle hlt⟩

theorem bracedArmRound_runs {arms : Array Node} (hg : g.Obeys doc d) (hd : s.nesting.depth = d)
    (h : Trail doc s arms.toList s₁.charge) :
    Runs doc (Strays doc s) (bracedArmRound g arms) s₁
      (Goes (fun arms s' => Trail doc s arms.toList s'.charge) (Trail doc s) s₁) := by
  unfold bracedArmRound
  refine h.count.bind fun _ s₂ h₂ => ?_
  subst h₂
  refine ((bumpWhile_runs atSeparator_looks (fun _ => ne_eof_of_atSeparator) h.valid).stepOn
    h.toKeeps).bind fun _ s₂ h₂ => ?_
  obtain ⟨hm₂, -⟩ := h₂
  have ht₂ := h.step hm₂.toPasses
  rw [runs_currentKind]
  split
  · exact .pure ht₂
  rename_i hend
  have hk : (s₂.ahead doc).kind ≠ .eof := by
    rintro heof
    rw [heof] at hend
    exact hend (by simp)
  rw [runs_startOffset, runs_position]
  refine ((bracedPatterns_runs hg ht₂.valid (ht₂.depth.trans hd)).along ht₂.toDrifts).bind
    fun patterns s₃ h₃ => ?_
  rw [runs_position]
  split
  · rename_i hstill
    have hstill : s₃.pos = s₂.pos := beq_iff_eq.1 hstill
    have hk₃ : (s₃.ahead doc).kind ≠ .eof := by rwa [ahead_congr hstill h₃.skip]
    exact forceArm_runs (ht₂.step h₃.toPasses) hk₃ (Nat.le_trans hm₂.pos_le h₃.pos_le)
  · rename_i hmoved
    have hlt : s₂.pos < s₃.pos := h₃.pos_lt_of_not_beq hmoved
    have hd₃ := h₃.depth.trans (ht₂.depth.trans hd)
    refine ((definitionBody_runs hg h₃.valid hd₃).along
      (ht₂.toDrifts.trans h₃.toDrifts)).bind fun body s₄ h₄ => ?_
    have hy₄ := (h₃.then h₄).ahead (e := .ahead)
    have hlt₄ := Nat.lt_of_lt_of_le hlt h₄.pos_le
    rw [runs_spanFrom]
    have harm : Trail doc s₂ (patterns ++ [body]) s₄.charge :=
      ⟨hy₄.toMoves.charge ht₂.valid hlt₄, hy₄.laid, hy₄.firm⟩
    exact .pure ⟨ht₂.push (harm.arm ht₂.valid hlt₄), Nat.lt_of_le_of_lt hm₂.pos_le hlt₄⟩

/-- The rest of an arm whose patterns were read. -/
theorem wordArm_runs {arms : Array Node} {patterns : List Node} {s₃ : State} (hg : g.Obeys doc d)
    (hd : s.nesting.depth = d) (h : Trail doc s arms.toList s₁)
    (hy : Yields doc .ahead s₁ patterns s₂) (hlt : s₁.pos < s₂.pos) (hle : s₃.pos ≤ s₁.pos) :
    Runs doc (Strays doc s) (do
      expect .parenClose "`)`"
      let body ← blockUntil g caseArmBody
      discard (eat .semiSemi)
      return .again (arms.push (.make (.caseArm patterns body) (← spanFrom (s₁.front doc)))) :
        Parser (Round (Array Node) (List Node))) s₂
      (Goes (fun arms s' => Trail doc s arms.toList s'.charge) (Trail doc s) s₃) := by
  have hkeeps : Keeps s s₂ := h.toKeeps.trans hy.toKeeps
  refine ((expect_moves hy.valid (by decide)).stepOn hkeeps).bind fun _ s₄ hm₄ => ?_
  have hy₄ := hy.step hm₄
  have hlt₄ : s₁.pos < s₄.pos := Nat.lt_of_lt_of_le hlt hm₄.pos_le
  have hcharge := hy₄.toMoves.charge h.valid hlt₄
  refine ((blockUntil_runs hg hcharge.valid (hy₄.depth.trans (h.depth.trans hd))).stepOn
    (h.toKeeps.trans hy₄.toKeeps)).bind fun body s₅ h₅ => ?_
  refine (Runs.discard (Q := fun _ s₆ => Moves doc s₅ s₆) ?_).bind fun _ s₆ hm₆ => ?_
  · refine ((eat_runs h₅.valid (by decide)).stepOn ?_).imp fun _ _ h => h.moves h₅.valid
    exact (h.toKeeps.trans hcharge.toKeeps).trans h₅.toKeeps
  have hp₆ : Passes doc s₄.charge s₆ := h₅.toPasses.trans hm₆.toPasses
  have hlt₆ : s₁.pos < s₆.pos := Nat.lt_of_lt_of_le hlt₄ hp₆.pos_le
  have hfirm : ∀ x ∈ [body], ¬ x.IsBody := List.forall_mem_singleton.2 h₅.firm
  have hlaid : Laid doc .ahead s₁ (patterns ++ [body]) s₆ := by
    have hpatterns : Laid doc .ahead s₁ patterns s₄.charge := hy₄.laid
    have hbody : Laid doc .ahead s₄.charge [body] s₆ :=
      Laid.until (s := s₄) h₅.laid hm₆.toPasses
    exact hpatterns.append hbody hcharge.toDrifts hp₆ hfirm
  have harm : Trail doc s₁ (patterns ++ [body]) s₆.charge :=
    ⟨hy₄.toMoves.charge_again h.valid hlt₄ hp₆, hlaid,
      List.forall_mem_append.2 ⟨hy₄.firm, hfirm⟩⟩
  rw [runs_spanFrom]
  exact .pure ⟨h.push (harm.arm h.valid hlt₆), Nat.lt_of_le_of_lt hle hlt₆⟩

theorem wordArmRound_runs {arms : Array Node} (hg : g.Obeys doc d) (hd : s.nesting.depth = d)
    (h : Trail doc s arms.toList s₁.charge) :
    Runs doc (Strays doc s) (wordArmRound g arms) s₁
      (Goes (fun arms s' => Trail doc s arms.toList s'.charge) (Trail doc s) s₁) := by
  unfold wordArmRound
  refine h.count.bind fun _ s₂ h₂ => ?_
  subst h₂
  refine ((skipNewlines_runs h.valid).stepOn h.toKeeps).bind fun _ s₂ hm₂ => ?_
  have ht₂ := h.step hm₂.toPasses
  rw [runs_atKind]
  refine .look (atKeyword_looks _) fun atEsac _ => ?_
  rw [runs_atKind]
  split
  · exact .pure ht₂
  rename_i hend
  have hk : (s₂.ahead doc).kind ≠ .eof := by
    rintro heof
    rw [heof] at hend
    exact hend (by simp)
  rw [runs_startOffset, runs_position]
  refine (Runs.discard (Q := fun _ s₃ => Moves doc s₂ s₃) ?_).bind fun _ s₃ hm₃ => ?_
  · exact ((eat_runs ht₂.valid (by decide)).stepOn ht₂.toKeeps).imp fun _ _ h => h.moves ht₂.valid
  have hd₃ := hm₃.depth.trans (ht₂.depth.trans hd)
  refine ((wordPatterns_runs hg hm₃.valid hd₃).along (ht₂.toDrifts.trans hm₃.toDrifts)).bind
    fun patterns s₄ h₄ => ?_
  have hy₄ := (h₄.after hm₃).ahead (e := .ahead)
  rw [runs_position]
  split
  · rename_i hstill
    have hstill : s₄.pos = s₂.pos := beq_iff_eq.1 hstill
    have hk₄ : (s₄.ahead doc).kind ≠ .eof := by rwa [ahead_congr hstill hy₄.skip]
    exact forceArm_runs (ht₂.step hy₄.toPasses) hk₄ (Nat.le_trans hm₂.pos_le hy₄.pos_le)
  · rename_i hmoved
    exact wordArm_runs hg hd ht₂ hy₄ (hy₄.pos_lt_of_not_beq hmoved) hm₂.pos_le

/-- A round that is not needed yet is kept. -/
theorem Moves.charged (h : Moves doc s s') (hv : Valid doc s.charge) :
    Moves doc s.charge s'.charge := by
  have h1 := hv.debt
  have h2 := h.debt_le
  rw [debt_charge] at h1
  exact { h with
    valid := h.valid.charge (by omega)
    debt_le := by rw [debt_charge, debt_charge]; omega
    paid := fun hlt => by
      have := h.paid hlt
      rw [debt_charge, debt_charge]
      omega }

theorem Yields.charged {xs : List Node} (h : Yields doc .final s xs s') (hv : Valid doc s.charge) :
    Yields doc .final s.charge xs s'.charge :=
  ⟨h.toMoves.charged hv, h.laid, h.firm⟩

/-- The parts of a `case`: its subject and its arms. -/
theorem Trail.shaped {style : ConditionStyle} {subject : Node} {arms : List Node}
    (h : Yields doc .final s [subject] s₁) (h' : Trail doc s₁ arms s') :
    Shaped doc .ahead s (.caseOf style subject arms) s' :=
  ⟨h.toDrifts.trans h'.toDrifts, h.laid.ahead.append h'.laid h.toDrifts h'.toPasses h'.firm, rfl, rfl,
    by simp [Form.names]⟩

theorem bracedCase_runs (hg : g.Obeys doc d) (hv : Valid doc s.charge) (hd : s.nesting.depth = d)
    (hk : (s.ahead doc).kind ≠ .eof) :
    Runs doc (Strays doc s.charge) (bracedCase g) s (Shaped doc .ahead s.charge) := by
  unfold bracedCase
  have hu := hv.of_charge.uncharge
  refine ((parenExpr_runs hg hv.of_charge hd hk).along hu).bind fun subject s₁ h₁ => ?_
  obtain ⟨h₁, -⟩ := h₁
  have hd₁ := hu.trans h₁.toDrifts
  have hsubject : Yields doc .final s.charge [subject] s₁.charge := h₁.charged hv
  refine ((eat_runs h₁.valid (by decide)).stepOn hd₁.toKeeps).bind fun eaten s₂ h₂ => ?_
  cases eaten with
  | true =>
    obtain ⟨-, h₂⟩ := h₂
    rw [if_pos rfl]
    have hcharge := h₂.charge h₁.valid
    have hp₂ : Passes doc s₁.charge s₂.charge := (h₂.toMoves.charged hsubject.valid).toPasses
    have hd₂ : Drifts doc s.charge s₂.charge := hd₁.trans hcharge.toDrifts
    refine ((Runs.repeatRounds (fun arms s₃ => Trail doc s₂.charge arms.toList s₃.charge)
      (fun _ _ h => h.valid.le_size) (.nil hcharge.valid) fun arms s₃ h =>
      bracedArmRound_runs (s := s₂.charge) hg (hd₂.depth.trans hd) h).imp_fail
      fun _ _ => .rebase hd₂).bind fun arms s₃ h₃ => ?_
    refine ((expect_moves h₃.valid (by decide)).stepOn (hd₂.toKeeps.trans h₃.toKeeps)).bind fun _ s₄ h₄ => ?_
    exact .pure (Trail.shaped hsubject ((h₃.step h₄.toPasses).after hp₂))
  | false =>
    obtain ⟨-, rfl⟩ := h₂
    rw [if_neg (by simp)]
    refine (reportExpected_runs h₁.valid).bind fun _ s₃ h₃ => ?_
    refine .pure ⟨hd₁.trans h₃.moves.toDrifts, ?_, rfl, rfl, by simp [Form.names]⟩
    exact (Laid.until (s := s.charge) h₁.laid h₃.moves.toPasses).ahead

theorem wordSubject_runs (hg : g.Obeys doc d) (hv : Valid doc s) (hd : s.nesting.depth = d) :
    Runs doc (Fails doc s) (wordSubject g) s fun v s' => Yields doc .final s [v] s' := by
  unfold wordSubject
  refine .look atWord_looks fun b hb => ?_
  split
  · rename_i heq
    subst heq
    exact (hg.word hv hd hb).imp fun _ _ h => h.1
  · refine (missing_runs hv).imp fun v s₁ h₁ => ?_
    obtain ⟨rfl, h₁⟩ := h₁
    exact h₁.missing hv

theorem wordCase_runs (hg : g.Obeys doc d) (hv : Valid doc s.charge) (hd : s.nesting.depth = d) :
    Runs doc (Strays doc s.charge) (wordCase g) s (Shaped doc .ahead s.charge) := by
  unfold wordCase
  have hu := hv.of_charge.uncharge
  refine ((wordSubject_runs hg hv.of_charge hd).along hu).bind fun subject s₁ h₁ => ?_
  refine ((skipNewlines_runs h₁.valid).stepOn (hu.toKeeps.trans h₁.toKeeps)).bind
    fun _ s₂ h₂ => ?_
  have hy₂ := h₁.step h₂
  refine ((expectKeyword_moves h₂.valid).stepOn (hu.toKeeps.trans hy₂.toKeeps)).bind
    fun _ s₃ h₃ => ?_
  have hsubject := (hy₂.step h₃).charged hv
  refine ((Runs.repeatRounds (fun arms s₄ => Trail doc s₃.charge arms.toList s₄.charge)
    (fun _ _ h => h.valid.le_size) (.nil hsubject.valid) fun arms s₄ h =>
    wordArmRound_runs (s := s₃.charge) hg (hsubject.depth.trans hd) h).imp_fail
    fun _ _ => .rebase hsubject.toDrifts).bind fun arms s₄ h₄ => ?_
  refine ((expectKeyword_moves h₄.valid).stepOn (hsubject.toKeeps.trans h₄.toKeeps)).bind
    fun _ s₅ h₅ => ?_
  exact .pure (Trail.shaped hsubject (h₄.step h₅.toPasses))

theorem caseForm_runs (hg : g.Obeys doc d) (hv : Valid doc s.charge) (hd : s.nesting.depth = d) :
    Runs doc (Strays doc s.charge) (caseForm g) s (Shaped doc .ahead s.charge) := by
  unfold caseForm
  rw [runs_atKind]
  split
  · rename_i hk
    exact bracedCase_runs hg hv hd (by rw [beq_iff_eq.1 hk]; decide)
  · exact wordCase_runs hg hv hd

end

end ShellAnalysis.Parse
