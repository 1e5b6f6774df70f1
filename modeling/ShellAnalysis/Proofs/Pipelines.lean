import ShellAnalysis.Proofs.Control

/-!
# Pipelines and command lists

A command of any kind is in place when it is read (`command_runs`).  The items
of a pipeline or a command list form a `Chain`: a row in which every item is
settled and only the last one can give its block away.  A chain makes its
pipeline or list a statement in place (`Chain.placed`), so the same argument
serves both, and `andOr_runs` is the promise of a whole statement.
-/

namespace ShellAnalysis.Parse

open Text Node

section

variable {doc : Document} {s s₁ s₂ s₃ s' : State} {d : Nat} {enter : Parser Grammar} {v : Node}

/-! ## Commands -/

theorem simpleKeyword?_runs {word : String} {p : Parser Node} (he : Enters doc d enter)
    (hv : Valid doc s) (hd : s.nesting.depth = d) (hk : (s.ahead doc).kind = .ident)
    (hp : simpleKeyword? enter word = some p) :
    Runs doc (Fails doc s) p s (Stands doc .ahead s) := by
  have hne : (s.ahead doc).kind ≠ .eof := by rw [hk]; decide
  have hahead : ∀ {p : Parser Node}, Runs doc (Fails doc s) p s (Stands doc .final s) →
      Runs doc (Fails doc s) p s (Stands doc .ahead s) := fun h => h.imp fun _ _ => Stands.ahead
  unfold simpleKeyword? at hp
  split at hp
  · cases hp
    exact hahead (procDef_runs he hv hd hne)
  · cases hp
    exact hahead (funcDef_runs he hv hd hne)
  · cases hp
    exact hahead (varDecl_runs he hv hd hne)
  · cases hp
    exact hahead (varDecl_runs he hv hd hne)
  · cases hp
    exact hahead (mutation_runs he hv hd hk)
  · cases hp
    exact hahead (mutation_runs he hv hd hk)
  · cases hp
    exact hahead (exprStatement_runs he hv hd hne)
  · cases hp
    exact hahead (functionKeyword_runs he hv hd hne)
  · split at hp
    · cases hp
      refine ((forceAdvance_runs hv hne).stepIn (.refl s)).imp fun v s' h => ?_
      obtain ⟨rfl, h⟩ := h
      exact h.stands hv (by rw [hk]; decide)
    · cases hp

theorem compoundKeyword?_runs {word : String} {p : Parser Node} (he : Enters doc d enter)
    (hv : Valid doc s) (hd : s.nesting.depth = d) (hk : (s.ahead doc).kind ≠ .eof)
    (hp : compoundKeyword? enter word = some p) :
    Runs doc (Fails doc s) p s (Stands doc .ahead s) := by
  unfold compoundKeyword? at hp
  split at hp
  · cases hp
    exact construct_runs he hv hd hk fun _ _ => ifForm_runs
  · cases hp
    exact construct_runs he hv hd hk fun _ _ => whileForm_runs
  · cases hp
    exact construct_runs he hv hd hk fun _ _ => whileForm_runs
  · cases hp
    exact construct_runs he hv hd hk fun _ _ => forForm_runs
  · cases hp
    exact construct_runs he hv hd hk fun _ _ => caseForm_runs
  · cases hp

/-- A statement that starts with a keyword was read, or there is none. -/
def Keyworded (doc : Document) (s : State) : Option KeywordStatement → State → Prop
  | none, s' => s' = s
  | some k, s' => Stands doc .ahead s k.node s'

theorem keywordStatement?_runs (he : Enters doc d enter) (hv : Valid doc s)
    (hd : s.nesting.depth = d) (hk : (s.ahead doc).kind = .ident) :
    Runs doc (Fails doc s) (keywordStatement? enter) s (Keyworded doc s) := by
  unfold keywordStatement?
  rw [runs_current]
  refine .look (gluedAfter_looks _) fun glued _ => ?_
  split
  · exact .pure rfl
  rw [runs_tokenText]
  split
  · rename_i hp
    exact (simpleKeyword?_runs he hv hd hk hp).bind fun _ _ h => .pure h
  · rename_i hp
    exact (compoundKeyword?_runs he hv hd (by rw [hk]; decide) hp).bind fun _ _ h => .pure h
  · refine .look (fun _ _ => ⟨_, rfl⟩) fun bare _ => ?_
    split
    · exact (mutation_runs he hv hd hk).bind fun _ _ h => .pure h.ahead
    · exact .pure rfl

/-- A construct with redirects after it holds no bodies either. -/
theorem solid_redirected {inner : Node} {redirects : List Node} {span : Span} (h : inner.Solid) :
    Node.Solid ⟨span, .redirected inner redirects⟩ := by
  intro b
  rw [attachHeredoc?, h b]
  rfl

theorem Stands.redirected {redirects : List Node} (h : Stands doc .ahead s v s₁) (hv : Valid doc s)
    (hr : Yields doc .ahead s₁ redirects s') :
    Stands doc .ahead s (.make (.redirected v redirects) (.upTo (s.front doc) s'.pos)) s' := by
  have hy := h.toYields.then hr
  have hlt : s.pos < s'.pos := Nat.lt_of_lt_of_le h.lt hr.pos_le
  have hfront := Nat.le_of_lt (hy.front_lt hlt)
  refine ⟨⟨hy.toMoves, ?_, ?_⟩, hlt, start_le_make _ _ _, le_stop_make _ _ _, rfl, ?_⟩
  · refine Row.assemble (f := .redirected v redirects) hy.laid (fun _ hc => hc)
      (cut_upTo hv.front_boundary hy.valid.boundary) nofun nofun trivial rfl
      hy.laid.inOrder (by simp [Form.beside]) ?_ (.inl hv.pos_le_front)
      (.inl (Nat.le_of_eq (Span.stop_upTo hfront))) ?_
    · rintro _ _ ⟨⟩
      exact h.solid
    · exact fun c hc heq hpart _ => startsEarly_of_leading hc heq hpart
  · rw [List.forall_mem_singleton]
    exact id
  · exact solid_redirected h.solid

theorem withRedirects_runs (he : Enters doc d enter) (hd : s.nesting.depth = d) (hv : Valid doc s)
    (h : Stands doc .ahead s v s₁) :
    Runs doc (Fails doc s) (withRedirects enter (s.front doc) v) s₁ (Stands doc .ahead s) := by
  unfold withRedirects
  refine .look atRedirect_looks fun b _ => ?_
  split
  · exact .pure h
  refine Runs.bind (R := fun redirects s₂ => Yields doc .ahead s₁ redirects s₂) ?_
    fun redirects s₂ h₂ => ?_
  · refine ((Runs.manyWhile (fun redirects s₂ => Yields doc .ahead s₁ redirects s₂)
      (fun _ _ h => h.valid.le_size) atRedirect_looks (Moves.refl h.valid).yields ?_).inside
      h.toMoves).imp fun _ _ h => h.1
    intro redirects s₂ h₂ hat
    refine ((redirect_runs he h₂.valid (h₂.depth.trans (h.depth.trans hd)) hat).inside
      h₂.toMoves).imp fun r s₃ h₃ => ?_
    exact ⟨h₂.then h₃.1.ahead, h₃.2.1⟩
  · rw [runs_spanFrom]
    exact .pure (h.redirected hv h₂)

theorem command_runs (he : Enters doc d enter) (hv : Valid doc s) (hd : s.nesting.depth = d) :
    Runs doc (Fails doc s) (command enter) s (Placed doc s) := by
  have hplaced : ∀ {p : Parser Node} {s₁}, Runs doc (Fails doc s) p s₁ (Stands doc .ahead s) →
      Runs doc (Fails doc s) p s₁ (Placed doc s) := fun h => h.imp fun _ _ h => h.placed hv
  unfold command
  rw [runs_startOffset, runs_currentKind]
  split
  · rename_i hk
    refine (braceBlock_runs he hv hd (by rw [hk]; decide)).bind fun v s₁ h₁ => ?_
    exact hplaced (withRedirects_runs he hd hv h₁.ahead)
  · rename_i hk
    refine (subshell_runs he hv hd (by rw [hk]; decide)).bind fun v s₁ h₁ => ?_
    exact hplaced (withRedirects_runs he hd hv h₁.ahead)
  · rename_i hk
    exact hplaced ((exprStatement_runs he hv hd (by rw [hk]; decide)).imp fun _ _ => Stands.ahead)
  · rename_i hk
    refine (keywordStatement?_runs he hv hd hk).bind fun k? s₁ h₁ => ?_
    cases k? with
    | none =>
      obtain rfl : s₁ = s := h₁
      exact simpleCommand_runs he hv hd
    | some k =>
      have h₁ : Stands doc .ahead s k.node s₁ := h₁
      simp only
      split
      · exact hplaced (withRedirects_runs he hd hv h₁)
      · exact .pure (h₁.placed hv)
  · exact simpleCommand_runs he hv hd

/-! ## Chains -/

/-- What was read since `s` ends in a part that was read since `s₁`. -/
theorem Parted.after {k : Node} (h : Parted doc s₁ v k s') (hd : Drifts doc s s₁) :
    Parted doc s v k s' :=
  ⟨h.rest.after hd, h.block.after hd, h.firm, h.le_stop⟩

/-- The items of a pipeline or of a command list, as far as they are read. -/
structure Chain (doc : Document) (s : State) (items : List Node) (s' : State) : Prop
    extends Yields doc .ahead s items s' where
  settled : ∀ x ∈ items, Along Form.spine (Settled doc s') x
  /-- A block argument can be taken off the last item only. -/
  parted : ∀ init x, items = init ++ [x] → ∀ x' k, x.takeBlock? = some (some (x', k)) →
    Parted doc s x' k s' ∧ ∀ c ∈ init, Before c k

theorem Placed.chain (h : Placed doc s v s') : Chain doc s [v] s' where
  toYields := h.toYields
  settled := by
    rw [List.forall_mem_singleton]
    exact h.settled
  parted := by
    intro init x (hsplit : [] ++ [v] = init ++ [x])
    obtain ⟨rfl, rfl⟩ := List.append_singleton_inj.1 hsplit
    exact fun x' k hk => ⟨h.parted x' k hk, nofun⟩

variable {items : List Node}

/-- One more item after an operator. -/
theorem Chain.next (h : Chain doc s items s₁) (hm : Moves doc s₁ s₂) (h' : Placed doc s₂ v s') :
    Chain doc s (items ++ [v]) s' where
  toYields := (h.toYields.step hm).then h'.toYields
  settled := by
    rw [List.forall_mem_append, List.forall_mem_singleton]
    exact ⟨fun x hx => Along.passes (Along.passes (h.settled x hx) hm.toPasses) h'.toPasses,
      h'.settled⟩
  parted := by
    intro init x hsplit x' k hk
    obtain ⟨rfl, rfl⟩ := List.append_singleton_inj.1 hsplit
    have hparted := h'.parted x' k hk
    refine ⟨hparted.after (h.toDrifts.trans hm.toDrifts), fun c hc => ?_⟩
    refine Row.before (h.laid.until hm.toPasses) hparted.block (Nat.le_refl _) ?_ c hc k (by simp)
    rw [List.forall_mem_singleton]
    exact hparted.firm

/-- A command that is missing. -/
theorem Still.placed (h : Still doc s s') (hv : Valid doc s) :
    Placed doc s (.error (.empty s.pos)) s' := by
  have hy := h.missing (e := .ahead) hv
  have hstop : s'.pos ≤ (Node.error (.empty s.pos)).stop := Nat.le_of_eq h.pos
  refine ⟨hy, hv.pos_le_front, hstop, .mk ?_ nofun, nofun⟩
  exact hy.settled hv hv.pos_le_front hstop rfl nofun nofun

/-! ## Pipelines -/

/-- A pipeline or a command list over the items that were read after `s`. -/
theorem Chain.laid_make {f : Form Node} (h : Chain doc s₁ items s') (hv : Valid doc s)
    (hm : Moves doc s s₁) (hlt : s.pos < s'.pos) (hj : f.joins = true) (hitems : f.items = items)
    (hheredocs : f.heredocs = []) :
    Laid doc .ahead s [.make f (.upTo (s.front doc) s'.pos)] s' := by
  have hy := h.toYields.after hm
  have hfront := Nat.le_of_lt (hy.front_lt hlt)
  have hchildren : f.children = items := by
    rw [Form.children_eq, hitems, hheredocs, List.append_nil]
  refine Row.assemble hy.laid (hchildren ▸ fun _ hc => hc)
    (cut_upTo hv.front_boundary hy.valid.boundary) ?_ ?_ ?_ hheredocs ?_ ?_ ?_
    (.inl hv.pos_le_front) (.inl (Nat.le_of_eq (Span.stop_upTo hfront))) ?_
  · rw [← Form.rejoin_self f, Form.names_rejoin hj]
    exact nofun
  · rw [← Form.rejoin_self f, Form.keys_rejoin hj]
    exact nofun
  · rw [← Form.rejoin_self f]
    exact Form.keyed_rejoin hj _
  · rw [← Form.rejoin_self f, Form.lined_rejoin hj, hitems]
    exact hy.laid.inOrder
  · intro k hk c hc
    obtain ⟨v', ht⟩ := trailing?_eq_some.1 hk
    obtain ⟨init, x, x', hinit, hx, -⟩ := takeBlock?_joined_cases (v := make f _) hj ht
    rw [make_form, hitems] at hinit
    rw [Form.beside_of_joins hj, hitems, hheredocs, List.append_nil, hinit,
      List.dropLast_concat] at hc
    exact (h.parted init x hinit x' k hx).2 c hc
  · rintro inner redirects rfl
    cases hj
  · intro c hc heq hpart _
    refine startsEarly_of_leading ?_ heq hpart
    rw [make_form, Form.leading_of_joins hj, ← Form.children_eq]
    exact hc

/-- A chain that was read after `s`, with at least one token. -/
theorem Chain.placed {f : Form Node} (h : Chain doc s₁ items s') (hv : Valid doc s)
    (hm : Moves doc s s₁) (hlt : s.pos < s'.pos) (hj : f.joins = true) (hitems : f.items = items)
    (hheredocs : f.heredocs = []) :
    Placed doc s (.make f (.upTo (s.front doc) s'.pos)) s' := by
  have hy := h.toYields.after hm
  have hlaid := h.laid_make hv hm hlt hj hitems hheredocs
  have hfirm : ¬ (Node.make f (.upTo (s.front doc) s'.pos)).IsBody := not_isBody_of_joins hj
  have hyields : Yields doc .ahead s [.make f (.upTo (s.front doc) s'.pos)] s' :=
    ⟨hy.toMoves, hlaid, List.forall_mem_singleton.2 hfirm⟩
  have hstart := start_le_make f (s.front doc) s'.pos
  have hstop := le_stop_make f (s.front doc) s'.pos
  -- The block argument of the chain is that of its last item.
  have hlast : ∀ {v' k : Node},
      (Node.make f (.upTo (s.front doc) s'.pos)).takeBlock? = some (some (v', k)) →
      ∃ init x x', items = init ++ [x] ∧ Parted doc s₁ x' k s' ∧
        Shrunk (f.rejoin (init ++ [x']) []) (Node.make f (.upTo (s.front doc) s'.pos)).start v' := by
    intro v' k ht
    obtain ⟨init, x, x', hinit, hx, hs⟩ := takeBlock?_joined_cases (v := make f _) hj ht
    rw [make_form, hitems] at hinit
    rw [make_form, hheredocs] at hs
    exact ⟨init, x, x', hinit, (h.parted init x hinit x' k hx).1, hs⟩
  refine ⟨hyields, hstart, hstop, .mk ?_ ?_, ?_⟩
  · refine hyields.settled hv hstart hstop hheredocs ?_ ?_
    · rintro inner rfl
      cases hj
    · intro _ k hk
      obtain ⟨v', ht⟩ := trailing?_eq_some.1 hk
      obtain ⟨_, _, _, -, hparted, -⟩ := hlast ht
      exact hparted.le_stop
  · rw [make_form, Form.spine_of_joins hj, hitems]
    exact h.settled
  · intro v' k ht
    obtain ⟨init, x, x', hinit, hparted, hs⟩ := hlast ht
    have hparted := hparted.after hm.toDrifts
    refine ⟨hlaid.shrunk ht hs ?_ ?_, hparted.block, hparted.firm, hparted.le_stop⟩
    · exact Nat.le_trans hstart (Nat.le_of_lt (hy.front_lt hlt))
    · rw [Form.children_rejoin hj, List.append_nil]
      exact forall_mem_replace (hinit ▸ hy.laid.done) fun _ => hparted.rest.done x' (by simp)

/-- An item after an operator: one that was read, or one that is missing and is the last. -/
theorem nextItem_runs {β : Type} {p : Parser Node} {finish again : Node → Parser β}
    {Q : β → State → Prop} (hd : s.nesting.depth = d) (hc : Chain doc s items s₁)
    (hb : Bumped doc s₁ s₂)
    (hp : ∀ {s₃}, Valid doc s₃ → s₃.nesting.depth = d →
      Runs doc (Fails doc s₃) p s₃ (Placed doc s₃))
    (hfinish : ∀ v s', Chain doc s (items ++ [v]) s' → s₁.pos < s'.pos →
      Runs doc (Fails doc s) (finish v) s' Q)
    (hagain : ∀ v s', Chain doc s (items ++ [v]) s' → s₂.pos < s'.pos →
      Runs doc (Fails doc s) (again v) s' Q) :
    Runs doc (Fails doc s) (do
      skipNewlines
      let before ← position
      let v ← p
      if (← position) == before then
        let last ← missing "a command"
        finish last
      else again v) s₂ Q := by
  have hlt := hb.pos_lt hc.valid
  refine ((skipNewlines_runs hb.valid).stepIn (hc.toKeeps.trans hb.toKeeps)).bind
    fun _ s₃ h₃ => ?_
  have hm₃ := hb.toMoves.trans h₃
  have hle₃ := h₃.pos_le
  rw [runs_position]
  refine ((hp hm₃.valid (hm₃.depth.trans (hc.depth.trans hd))).inside (hc.toMoves.trans hm₃)).bind
    fun v s₄ h₄ => ?_
  have hle₄ := h₄.pos_le
  rw [runs_position]
  split
  · refine (missing_runs h₄.valid).bind fun last s₅ h₅ => ?_
    obtain ⟨rfl, h₅⟩ := h₅
    refine hfinish _ s₅ (hc.next (hm₃.trans h₄.toMoves) (h₅.placed h₄.valid)) ?_
    rw [h₅.pos]
    omega
  · rename_i hmoved
    exact hagain v s₄ (hc.next hm₃ h₄) (Nat.lt_of_le_of_lt hle₃ (h₄.pos_lt_of_not_beq hmoved))

theorem moreStages_runs {first : Node} (he : Enters doc d enter) (hd : s.nesting.depth = d)
    (h : Chain doc s [first] s₁) :
    Runs doc (Fails doc s) (moreStages enter first) s₁ fun stages s' =>
      Chain doc s stages s' ∧ (s' = s₁ ∧ (s₁.ahead doc).kind ≠ .pipe ∨ s₁.pos < s'.pos) := by
  refine Runs.repeatRounds (fun stages s' => Chain doc s stages.toList s' ∧
    (s' = s₁ ∨ s₁.pos < s'.pos)) (fun _ _ h => h.1.valid.le_size) ⟨h, .inl rfl⟩
    fun stages s₂ h₂ => ?_
  obtain ⟨hc, hpos⟩ := h₂
  refine ((eat_runs hc.valid (by decide)).stepIn hc.toKeeps).bind fun eaten s₃ h₃ => ?_
  cases eaten with
  | false =>
    obtain ⟨hne, rfl⟩ := h₃
    rw [if_pos (by simp)]
    refine .pure ⟨hc, ?_⟩
    rcases hpos with rfl | hpos
    · exact .inl ⟨rfl, hne⟩
    · exact .inr hpos
  | true =>
    obtain ⟨-, h₃⟩ := h₃
    have hlt₃ := h₃.pos_lt hc.valid
    have hle : s₁.pos ≤ s₂.pos := hpos.elim (fun h => Nat.le_of_eq (h ▸ rfl)) Nat.le_of_lt
    rw [if_neg (by simp)]
    refine nextItem_runs hd hc h₃ (fun hv hd => command_runs he hv hd) ?_ ?_
    · intro v s₄ hc₄ hlt
      rw [← Array.toList_push] at hc₄
      exact .pure ⟨hc₄, .inr (Nat.lt_of_le_of_lt hle hlt)⟩
    · intro v s₄ hc₄ hlt
      rw [← Array.toList_push] at hc₄
      exact .pure ⟨⟨hc₄, .inr (by omega)⟩, by omega⟩

theorem pipeline_runs (he : Enters doc d enter) (hv : Valid doc s) (hd : s.nesting.depth = d) :
    Runs doc (Fails doc s) (pipeline enter) s (Placed doc s) := by
  unfold pipeline
  rw [runs_startOffset]
  refine ((eat_runs hv (by decide)).stepIn (.refl s)).bind fun negated s₁ h₁ => ?_
  have hm₁ := h₁.moves hv
  refine ((command_runs he hm₁.valid (hm₁.depth.trans hd)).inside hm₁).bind fun first s₂ h₂ => ?_
  rw [runs_atKind]
  split
  · rename_i hplain
    rw [Bool.and_eq_true, Bool.not_eq_true', Bool.not_eq_true'] at hplain
    obtain ⟨rfl, -⟩ := hplain
    obtain ⟨-, rfl⟩ := h₁
    exact .pure h₂
  · rename_i hjoined
    refine ((moreStages_runs he (hm₁.depth.trans hd) h₂.chain).inside hm₁).bind
      fun stages s₃ h₃ => ?_
    obtain ⟨hc, hpos⟩ := h₃
    rw [runs_spanFrom]
    refine .pure (hc.placed hv hm₁ ?_ rfl rfl rfl)
    have hle₂ := h₂.pos_le
    have hle₃ := hc.pos_le
    cases negated with
    | true =>
      have := h₁.2.pos_lt hv
      omega
    | false =>
      obtain ⟨-, rfl⟩ := h₁
      rcases hpos with ⟨rfl, hne⟩ | hpos
      · simp [hne] at hjoined
      · omega

/-! ## Command lists -/

theorem ne_eof_of_connective? {kind : TokenKind} {op : Connective}
    (h : connective? kind = some op) : kind ≠ .eof := by
  rintro rfl
  cases h

theorem morePipelines_runs {first : Node} (he : Enters doc d enter) (hd : s.nesting.depth = d)
    (h : Chain doc s [first] s₁) (hk : (connective? (s₁.ahead doc).kind).isSome = true) :
    Runs doc (Fails doc s) (morePipelines enter first) s₁ fun f s' =>
      ∃ ops items, f = .andOr ops items [] ∧ Chain doc s items s' ∧ s₁.pos < s'.pos := by
  refine Runs.repeatRounds (fun r s' => Chain doc s r.2.toList s' ∧ (s' = s₁ ∨ s₁.pos < s'.pos))
    (fun _ _ h => h.1.valid.le_size) ⟨h, .inl rfl⟩ fun (ops, commands) s₂ h₂ => ?_
  obtain ⟨hc, hpos⟩ := h₂
  simp only [runs_currentKind]
  split
  · rename_i hnone
    refine .pure ⟨_, _, rfl, hc, ?_⟩
    rcases hpos with rfl | hpos
    · rw [hnone] at hk
      cases hk
    · exact hpos
  · rename_i op hop
    refine ((discard_bump_runs hc.valid (ne_eof_of_connective? hop)).stepIn hc.toKeeps).bind
      fun _ s₃ h₃ => ?_
    have hlt₃ := h₃.pos_lt hc.valid
    have hle : s₁.pos ≤ s₂.pos := hpos.elim (fun h => Nat.le_of_eq (h ▸ rfl)) Nat.le_of_lt
    refine nextItem_runs hd hc h₃ (fun hv hd => pipeline_runs he hv hd) ?_ ?_
    · intro v s₄ hc₄ hlt
      rw [← Array.toList_push] at hc₄
      exact .pure ⟨_, _, rfl, hc₄, Nat.lt_of_le_of_lt hle hlt⟩
    · intro v s₄ hc₄ hlt
      rw [← Array.toList_push] at hc₄
      exact .pure ⟨⟨hc₄, .inr (by omega)⟩, by omega⟩

theorem pipelines_runs (he : Enters doc d enter) (hv : Valid doc s) (hd : s.nesting.depth = d) :
    Runs doc (Fails doc s) (pipelines enter) s (Placed doc s) := by
  unfold pipelines
  rw [runs_startOffset]
  refine (pipeline_runs he hv hd).bind fun first s₁ h₁ => ?_
  rw [runs_currentKind]
  split
  · rename_i hk
    refine (morePipelines_runs he hd h₁.chain hk).bind fun f s₂ h₂ => ?_
    obtain ⟨ops, items, rfl, hc, hlt⟩ := h₂
    rw [runs_spanFrom]
    exact .pure (hc.placed hv (.refl hv) (Nat.lt_of_le_of_lt h₁.pos_le hlt) rfl rfl rfl)
  · exact .pure h₁

/-- A job in the background ends after its command, and no bodies are read in between. -/
theorem Placed.background (h : Placed doc s v s₁) (hv : Valid doc s) (hb : Bumped doc s₁ s')
    (hk : (s₁.ahead doc).kind = .amp) :
    Placed doc s (.make (.background v) (.upTo (s.front doc) s'.pos)) s' := by
  have hadv := hb.advanced (by rw [hk]; decide)
  have hy := h.toYields.step hb.toMoves
  have hlt : s.pos < s'.pos := Nat.lt_of_le_of_lt h.pos_le (hb.pos_lt h.valid)
  have hyields := hy.toMoves.made (f := .background v) hlt hv hy.laid rfl (by simp [Form.names])
  have hstart := start_le_make (.background v) (s.front doc) s'.pos
  have hstop := le_stop_make (.background v) (s.front doc) s'.pos
  refine ⟨hyields, hstart, hstop, .mk ?_ ?_, by rintro _ _ ⟨⟩⟩
  · refine hyields.settled hv hstart hstop rfl ?_ (by rintro ⟨⟩)
    rintro _ ⟨⟩ b hb'
    rw [hadv.bodies] at hb'
    exact Nat.le_trans (h.valid.bodies b hb').le h.le_stop
  · rw [make_form]
    intro c hc
    rw [List.mem_singleton.1 hc]
    exact Along.passes h.settled hb.toPasses

theorem andOr_runs (he : Enters doc d enter) (hv : Valid doc s) (hd : s.nesting.depth = d) :
    Runs doc (Fails doc s) (andOr enter) s (Placed doc s) := by
  unfold andOr
  rw [runs_startOffset]
  refine (pipelines_runs he hv hd).bind fun v s₁ h₁ => ?_
  refine ((eat_runs h₁.valid (by decide)).stepIn h₁.toKeeps).bind fun eaten s₂ h₂ => ?_
  cases eaten with
  | true =>
    rw [if_pos rfl, runs_spanFrom]
    exact .pure (h₁.background hv h₂.2 h₂.1)
  | false =>
    obtain ⟨-, rfl⟩ := h₂
    exact .pure h₁

end

end ShellAnalysis.Parse
