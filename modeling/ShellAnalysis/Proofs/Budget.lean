import ShellAnalysis.Proofs.Lockstep
import ShellAnalysis.Proofs.Outcome

/-!
# A tighter budget gives a prefix

A parse that is stopped by its budget keeps the statements it had read, and a
parse with a wider budget reads the same statements and goes on
(`parseWith_budget`).  Both runs are the same up to the step that exceeds the
tighter limits (`Lock`).  From there on the wider run only adds statements:

    Grown doc s₀ S s    the list holds the statements `S` and maybe more, and
                        no body that waits will go into the last one of `S`

A heredoc body that is read later goes into no statement that is complete
(`attachHeredoc?_later`), so every step of a list keeps this
(`grown_sustained`).
-/

namespace ShellAnalysis.Parse

open Text Node

/-! ## Statements that stay -/

section

variable {doc : Document} {s₀ s s₁ : State} {S : List Node} {b v : Node} {bs : List Node}

/-- A body that stands behind the token ahead goes into no statement that was read before. -/
theorem attachHeredoc?_later {m : Node} (h : Along Form.spine (Settled doc s) m)
    (hsound : m.Sound doc.text) (hle : s.front doc ≤ b.start) (hlt : b.start < m.stop) :
    m.attachHeredoc? b = none := by
  induction h with
  | @mk m hm hparts ih =>
    cases hw : m.attachHeredoc? b with
    | none => rfl
    | some w =>
      exfalso
      -- The statement reaches over the body only by a part that ends late.
      have hlate : m.EndsLate := by
        rcases hm.stop_le with hdone | ⟨-, hlate⟩
        · omega
        · exact hlate
      have hpart : ∀ c ∈ m.form.spine, b.start < c.stop → c.attachHeredoc? b = none :=
        fun c hc => ih c hc (hsound.part (Form.mem_children_of_mem_spine hc))
      rcases attachHeredoc?_cases hw with ⟨inner, inner', hform, hinner, -⟩ |
        ⟨inner, inner', redirects, hform, hinner, -⟩ | ⟨hj, pre, x, x', post, hitems, hx, hx', -⟩ |
        ⟨hj, hnone, -⟩
      · cases hlate with
        | bare hcommand => simp [hform] at hcommand
        | part hc heq =>
          obtain rfl : _ = inner := by simpa [hform, Form.children] using hc
          simp [hpart _ (by simp [hform, Form.spine]) (heq ▸ hlt)] at hinner
      · simp [hsound.here.solid inner redirects hform b] at hinner
      · have hmem : x ∈ m.form.spine := by simp [Form.spine_of_joins hj, hitems]
        simp [hpart x hmem (contains_iff.1 hx).2] at hx'
      · cases hlate with
        | bare hcommand => exact Form.not_command_of_joins hj _ hcommand
        | @part _ c hc heq hlate =>
          rcases Form.mem_children.1 hc with hc | hc
          · have hstart := (hparts c (by rwa [Form.spine_of_joins hj])).here.start_le
            have hcontains := contains_iff.2 ⟨Nat.le_trans hstart hle, Nat.lt_of_lt_of_eq hlt heq.symm⟩
            rw [hnone c hc] at hcontains
            cases hcontains
          · exact not_endsLate_of_isBody (hm.heredocs c hc).1 hlate

/-- The list holds these statements and maybe more, and no body that waits goes into the last of
them. -/
structure Grown (doc : Document) (s₀ : State) (S : List Node) (s : State) : Prop where
  row : Open doc s₀ s
  grown : S <+: s.statements.toList
  steady : s.statements.toList = S → ∀ init last, S = init ++ [last] → ∀ b ∈ s.bodies,
    b.start < last.stop → last.attachHeredoc? b = none

/-- There is a statement behind those that stay. -/
theorem Open.grown {init : List Node} (h : Open doc s₀ s) (hS : S <+: init) (last : Node)
    (hlist : s.statements.toList = init ++ [last]) : Grown doc s₀ S s where
  row := h
  grown := hlist ▸ hS.trans (List.prefix_append _ _)
  steady := fun heq => by
    have hlength := hS.length_le
    rw [← heq, hlist, List.length_append, List.length_singleton] at hlength
    omega

theorem Grown.place (h : Grown doc s₀ S (s.awaiting (b :: bs)))
    (hv : Valid doc (s.awaiting (b :: bs))) : Grown doc s₀ S ((s.place b).awaiting bs) := by
  have hrow := h.row.place hv
  rcases place_cases s b with ⟨-, heq⟩ | ⟨X, last, hX, hlt, ⟨-, heq⟩ | ⟨w, hw, heq⟩⟩
  · refine hrow.grown h.grown b ?_
    rw [heq]
    exact Array.toList_push
  · rw [heq] at hrow ⊢
    exact ⟨hrow, h.grown, fun hS init last hlast b' hb' =>
      h.steady hS init last hlast b' (List.mem_cons_of_mem _ hb')⟩
  · have hlist : (s.awaiting (b :: bs)).statements.toList = X.toList ++ [last] := by
      show s.statements.toList = _
      rw [hX]
      exact Array.toList_push
    have hgrown := h.grown
    rw [hlist] at hgrown
    rcases List.prefix_concat_iff.1 hgrown with hS | hS
    · have hnone := h.steady (hlist.trans hS.symm) _ _ hS b List.mem_cons_self hlt
      rw [hw] at hnone
      cases hnone
    · refine hrow.grown hS w ?_
      rw [heq]
      exact Array.toList_push

/-- More is consumed behind the list. -/
theorem Grown.passes (h : Grown doc s₀ S s) (hv : Valid doc s) (hp : Passes doc s s₁) :
    Grown doc s₀ S s₁ where
  row := h.row.passes hv hp
  grown := hp.statements ▸ h.grown
  steady := by
    rw [hp.statements]
    intro hS init last hlast b hb hlt
    rcases hp.past b hb with hold | hnew
    · exact h.steady hS init last hlast b hold hlt
    · have hsplit := hS.trans hlast
      exact attachHeredoc?_later (h.row.settled init last hsplit)
        (h.row.laid.sound last (by simp [hsplit])) (Nat.le_of_lt hnew) hlt

theorem Grown.push (h : Grown doc s₀ S s) (hv : Valid doc s) (hp : Placed doc s v s₁) :
    Grown doc s₀ S (s₁.push v) := by
  refine (h.row.push hv hp).grown h.grown v ?_
  rw [← hp.statements]
  exact Array.toList_push

/-- However the list goes on, the statements stay. -/
theorem grown_sustained (s₀ : State) (S : List Node) : Sustained doc (Grown doc s₀ S) where
  charge := fun h => ⟨(open_sustained s₀).charge h.row, h.grown, h.steady⟩
  separator := fun h hv _ hb => hb.valid.drain Grown.place (h.passes hv hb.toPasses)
  statement := fun h hv _ hp _ => (hp.valid.holding _).drain Grown.place (h.push hv hp)
  wrong := fun h hv _ hp _ _ => h.push hv hp

/-- All statements of the list stay. -/
def Steady (doc : Document) (s₀ s : State) : Prop := Grown doc s₀ s.statements.toList s

theorem Open.steady (h : Open doc s₀ s) (hnone : ∀ b ∈ s.bodies, ∀ init last,
    s.statements.toList = init ++ [last] → last.attachHeredoc? b = none) : Steady doc s₀ s :=
  ⟨h, List.prefix_refl _, fun _ init last hlast b hb _ => hnone b hb init last hlast⟩

theorem Open.steady_of_nil (h : Open doc s₀ s) (hnil : s.bodies = []) : Steady doc s₀ s :=
  h.steady (by simp [hnil])

/-- Between two steps of a list all of its statements stay. -/
theorem steady_sustained (s₀ : State) : Sustained doc (Steady doc s₀) where
  charge := fun h => (grown_sustained s₀ _).charge h
  separator := fun h hv hat hb =>
    ((open_sustained s₀).separator h.row hv hat hb).steady_of_nil hb.valid.draining.bodies
  statement := fun h hv hat hp hlt =>
    ((open_sustained s₀).statement h.row hv hat hp hlt).steady_of_nil
      (hp.valid.holding _).draining.bodies
  wrong := fun {s v s₁} h hv hat hp hlt hsolid => by
    refine ((open_sustained s₀).wrong h.row hv hat hp hlt hsolid).steady fun b _ init last hlast => ?_
    have hlist : (s₁.push v).statements.toList = s₁.statements.toList ++ [v] := Array.toList_push
    rw [hlist] at hlast
    obtain ⟨-, rfl⟩ := List.append_singleton_inj.1 hlast
    exact hsolid b

end

/-! ## Two runs of a list -/

section

variable {w : Budgets} {s₀ s s' : State}

theorem Valid.low (h : Valid w.high s) : Valid w.low s :=
  ⟨h.boundary, h.tokens, h.debt, h.diagnostics, h.bodies, h.inOrder⟩

theorem Moves.low (h : Moves w.high s s') : Moves w.low s s' where
  toKeeps := h.toKeeps
  valid := h.valid.low
  depth := h.depth
  pos_le := h.pos_le
  fresh := h.fresh
  debt_le := h.debt_le
  leap := h.leap
  past := h.past
  paid := h.paid

theorem Aborts.statements {doc : Document} {e : Stopped} (h : Aborts doc s e s') :
    s'.statements = s.statements := by
  cases e with
  | limit error => exact h.2.statements
  | fault => exact h.elim

/-- Both runs end in the same way, or the tighter limits stop the first.  Then the second goes on
from the statements that the first had read: what `Q` says of the second run holds with these
statements kept. -/
def Trails {α : Type} (w : Budgets) (s₀ : State) (p : Parser α) (s : State)
    (Q : (State → Prop) → α → State → Prop) : Prop :=
  p w.low s = p w.high s ∨ ∃ e s', p w.low s = .error e s' ∧
    Runs w.high (Quits w.high s₀ (Grown w.high s₀ s'.statements.toList)) p s
      (Q (Grown w.high s₀ s'.statements.toList))

variable {α β σ : Type} {p : Parser α} {f : α → Parser β} {Q R : (State → Prop) → α → State → Prop}
  {Q' : (State → Prop) → β → State → Prop}

theorem Trails.pure (a : α) : Trails w s₀ (Pure.pure a) s Q := .inl rfl

theorem Trails.imp (h : Trails w s₀ p s R) (hQ : ∀ I a s', R I a s' → Q I a s') :
    Trails w s₀ p s Q :=
  h.imp_right fun ⟨e, s', heq, hkept⟩ => ⟨e, s', heq, hkept.imp (hQ _)⟩

/-- The step in which the first run stops has added nothing yet. -/
theorem Trails.kept [hp : Lock w p] {X : Array Node} {R : α → State → Prop}
    (hlow : Runs w.low (fun _ s' => s'.statements = X) p s R)
    (hhigh : Runs w.high (Quits w.high s₀ (Grown w.high s₀ X.toList)) p s
      (Q (Grown w.high s₀ X.toList))) : Trails w s₀ p s Q := by
  rcases hp.locked s with heq | ⟨e, s', heq, -⟩
  · exact .inl heq
  · have hX : s'.statements = X := by
      unfold Runs at hlow
      rw [heq] at hlow
      exact hlow
    exact .inr ⟨e, s', heq, hX ▸ hhigh⟩

/-- Both runs make the same step. -/
theorem Trails.step {a : α} (hlow : p w.low s = .ok a s') (hhigh : p w.high s = .ok a s')
    (h : Trails w s₀ (f a) s' Q') : Trails w s₀ (p >>= f) s Q' := by
  unfold Trails Runs at h ⊢
  simp only [bind_apply, hlow, hhigh]
  exact h

theorem Trails.look [hlock : Lock w p] (hp : Looks p)
    (hf : ∀ a, p w.high s = .ok a s → Trails w s₀ (f a) s Q') : Trails w s₀ (p >>= f) s Q' := by
  obtain ⟨a, ha⟩ := hp w.high s
  obtain ⟨a', ha'⟩ := hp w.low s
  rcases hlock.locked s with heq | ⟨e, s', heq, -⟩
  · exact .step (heq.trans ha) ha (hf a ha)
  · simp [ha'] at heq

theorem Trails.bind {fail : Stopped → State → Prop} (hp : Trails w s₀ p s R)
    (hrun : Runs w.high fail p s (R (Steady w.high s₀)))
    (hf : ∀ a s', R (Steady w.high s₀) a s' → Trails w s₀ (f a) s' Q')
    (hkeep : ∀ {I}, Sustained w.high I → ∀ a s', R I a s' →
      Runs w.high (Quits w.high s₀ I) (f a) s' (Q' I)) : Trails w s₀ (p >>= f) s Q' := by
  rcases hp with heq | ⟨e, s', heq, hkept⟩
  · cases hhigh : p w.high s with
    | ok a s' => exact .step (heq.trans hhigh) hhigh (hf a s' (hrun.of_ok hhigh))
    | error e s' =>
      refine .inl ?_
      simp only [bind_apply, heq, hhigh]
  · refine .inr ⟨e, s', by simp only [bind_apply, heq], ?_⟩
    exact hkept.bind (hkeep (grown_sustained s₀ _))

/-- A loop, from what one round does in both runs and what it does in the second alone. -/
theorem Trails.repeatRounds {init : σ} {round : σ → Parser (Round σ α)}
    (J : (State → Prop) → σ → State → Prop)
    (hpos : ∀ I state s, J I state s → s.pos ≤ size w.text)
    (hinit : J (Steady w.high s₀) init s)
    (hround : ∀ state s, J (Steady w.high s₀) state s →
      Trails w s₀ (round state) s fun I => Goes (J I) (Q I) s)
    (hkeep : ∀ {I}, Sustained w.high I → ∀ state s, J I state s →
      Runs w.high (Quits w.high s₀ I) (round state) s (Goes (J I) (Q I) s)) :
    Trails w s₀ (repeatRounds init round) s Q := by
  suffices ∀ fuel state s, J (Steady w.high s₀) state s → size w.text - s.pos < fuel →
      Trails w s₀ (rounds round fuel state) s Q from this _ init s hinit (Nat.lt_succ_self _)
  intro fuel
  induction fuel with
  | zero => intro _ _ _ hfuel; omega
  | succ fuel ih =>
    intro state s hJ hfuel
    refine (hround state s hJ).bind (hkeep (steady_sustained s₀) state s hJ)
      (fun r s' hr => ?_) fun {I} hI r s' hr => ?_
    · cases r with
      | again state' =>
        have := hpos _ _ _ hr.1
        have := hr.2
        exact ih state' s' hr.1 (by omega)
      | finish a => exact .pure a
    · cases r with
      | again state' =>
        have := hpos _ _ _ hr.1
        have := hr.2
        exact Runs.rounds (hpos I) (hkeep hI) fuel state' s' hr.1 (show size w.text - _ < _ by omega)
      | finish a => exact hr

theorem Trails.whileHolds {condition : Parser Bool} {action : Parser Unit} [Lock w condition]
    (J : (State → Prop) → State → Prop) (hpos : ∀ I s, J I s → s.pos ≤ size w.text)
    (hlook : Looks condition) (hinit : J (Steady w.high s₀) s)
    (haction : ∀ s, J (Steady w.high s₀) s → condition w.high s = .ok true s →
      Trails w s₀ action s fun I _ s' => J I s' ∧ s.pos < s'.pos)
    (hkeep : ∀ {I}, Sustained w.high I → ∀ s, J I s → condition w.high s = .ok true s →
      Runs w.high (Quits w.high s₀ I) action s fun _ s' => J I s' ∧ s.pos < s'.pos) :
    Trails w s₀ (whileHolds condition action) s fun I _ s' =>
      J I s' ∧ condition w.high s' = .ok false s' := by
  refine Trails.repeatRounds (fun I _ => J I) (fun I _ => hpos I) hinit (fun _ s hJ => ?_)
    fun {I} hI _ s hJ => ?_
  · refine .look hlook fun more hmore => ?_
    cases more with
    | true =>
      rw [if_pos rfl]
      refine (haction s hJ hmore).bind (hkeep (steady_sustained s₀) s hJ hmore)
        (fun _ _ _ => .pure _) fun _ _ _ h => .pure h
    | false => exact .pure _
  · refine .look hlook fun more hmore => ?_
    cases more with
    | true =>
      rw [if_pos rfl]
      exact (hkeep hI s hJ hmore).bind fun _ _ h => .pure h
    | false =>
      rw [if_neg (by simp)]
      exact .pure ⟨hJ, hmore⟩

end

/-! ## Rounds -/

section

variable {w : Budgets} {s₀ s s₂ : State} {d : Nat} {enter : Parser Grammar} {stops : List StopAt}
  {stopAfterBlock : Bool}

theorem countIteration_trails (h : Within w.high s₀ (Steady w.high s₀) s.charge) :
    Trails w s₀ countIteration s fun I _ s' => s' = s.charge ∧ Within w.high s₀ I s' := by
  have hv := h.valid.of_charge
  have hkept : Within w.high s₀ (Grown w.high s₀ s.statements.toList) s.charge := ⟨h.passes, h.inv⟩
  refine .kept ((countIteration_runs hv.low).imp_fail fun _ _ => Aborts.statements) ?_
  refine (Runs.quits hkept ((countIteration_runs hv).imp_fail fun _ _ =>
    .rebase (s := s.charge) ⟨rfl, rfl, rfl⟩)).imp fun _ s' hs' => ?_
  subst hs'
  exact ⟨rfl, hkept⟩

theorem separators_trails (h : Within w.high s₀ (Steady w.high s₀) s) :
    Trails w s₀ (whileHolds atSeparator do
        discard bump
        drainHeredocs) s fun I _ s' =>
      (Within w.high s₀ I s' ∧ s.pos ≤ s'.pos) ∧ atSeparator w.high s' = .ok false s' := by
  have hkeep : ∀ {I}, Sustained w.high I → ∀ s₁, Within w.high s₀ I s₁ ∧ s.pos ≤ s₁.pos →
      atSeparator w.high s₁ = .ok true s₁ →
      Runs w.high (Quits w.high s₀ I) (do discard bump; drainHeredocs) s₁ fun _ s₂ =>
        (Within w.high s₀ I s₂ ∧ s.pos ≤ s₂.pos) ∧ s₁.pos < s₂.pos := by
    intro I hI s₁ h₁ hat
    exact (separator_runs hI h₁.1 hat).imp fun _ s₂ h₂ =>
      ⟨⟨h₂.1, Nat.le_trans h₁.2 (Nat.le_of_lt h₂.2)⟩, h₂.2⟩
  refine .whileHolds (fun I s' => Within w.high s₀ I s' ∧ s.pos ≤ s'.pos)
    (fun _ _ h => h.1.valid.le_size) atSeparator_looks ⟨h, Nat.le_refl _⟩ (fun s₁ h₁ hat => ?_) hkeep
  have hlow : Runs w.low (Aborts w.low s₁) (do discard bump; drainHeredocs) s₁ fun _ _ => True :=
    (discard_bump_runs h₁.1.valid.low (ne_eof_of_atSeparator hat)).bind fun _ _ _ =>
      drainHeredocs_runs.imp fun _ _ _ => trivial
  exact .kept (hlow.imp_fail fun _ _ => Aborts.statements)
    (hkeep (grown_sustained s₀ _) s₁ ⟨⟨h₁.1.passes, h₁.1.inv⟩, h₁.2⟩ hat)

theorem forceRound_trails {what : String} {Q : (State → Prop) → Unit → State → Prop} {s₁ : State}
    (h : Within w.high s₀ (Steady w.high s₀) s) (hm : Moves w.high s s₁) (hpos : s₁.pos = s.pos)
    (hsep : atSeparator w.high s = .ok false s) (hk : (s.ahead w.high).kind ≠ .eof) :
    Trails w s₀ (do
        pushStatement (← forceAdvance what)
        return Round.again ()) s₁ fun I =>
      Goes (fun _ s' => Within w.high s₀ I s'.charge) (Q I) s := by
  have hahead : s₁.ahead w.high = s.ahead w.high := ahead_congr hpos hm.skip
  have hkept : Within w.high s₀ (Grown w.high s₀ s.statements.toList) s := ⟨h.passes, h.inv⟩
  refine .kept (R := fun _ _ => True) ?_
    (forceRound_runs (grown_sustained s₀ _) hkept hm hpos hsep hk)
  have hk₁ : (s₁.ahead w.high).kind ≠ .eof := by rwa [hahead]
  have hforce : Runs w.low (Aborts w.low s₁) (forceAdvance what) s₁ _ :=
    forceAdvance_runs hm.valid.low hk₁
  exact (hforce.imp_fail fun _ _ h => h.statements.trans hm.statements).bind fun _ _ _ => trivial

/-- The first run can stop before the statement is added, or at a token behind it that does not
fit. -/
theorem takeStatement_trails {r : Except LimitError Node}
    (h : Within w.high s₀ (Steady w.high s₀) s) (hsep : atSeparator w.high s = .ok false s)
    (hk : (s.ahead w.high).kind ≠ .eof) (hr : Caught w.high s (Placed w.high s) r s₂) :
    Trails w s₀ (takeStatement stops stopAfterBlock s.pos (s.front w.high) s.nesting r) s₂
      (Rounded w.high s₀ stops stopAfterBlock s) := by
  cases r with
  | error error =>
    have hkept : Within w.high s₀ (Grown w.high s₀ s.statements.toList) s := ⟨h.passes, h.inv⟩
    refine .kept (R := fun _ _ => True) ?_
      (takeStatement_runs (grown_sustained s₀ _) hkept hsep hk hr)
    obtain ⟨hlocal, -, hm₂⟩ := hr
    have habandon := abandon_runs h.valid.low rfl hlocal hm₂.low ⟨(atSeparator_false.1 hsep).1, hk⟩
    exact (habandon.imp_fail fun _ _ => Aborts.statements).bind fun _ _ _ => trivial
  | ok v =>
    have h₂ : Placed w.high s v s₂ := hr
    unfold takeStatement
    refine .step rfl rfl ?_
    split
    · rename_i hstill
      exact forceRound_trails h h₂.toMoves (beq_iff_eq.1 hstill) hsep hk
    rename_i hmoved
    have hlt : s.pos < s₂.pos := h₂.pos_lt_of_not_beq hmoved
    have hv₂ : Valid w.high (s₂.push v) := h₂.valid.holding _
    have hp₂ : Passes w.high s₀ ((s₂.push v).holding s₀.statements) :=
      h.passes.trans (h₂.toMoves.holding _).toPasses
    have h₃ := Within.drained hp₂ ((steady_sustained s₀).statement h.inv h.valid hsep h₂ hlt)
    have hpush : ∀ doc, pushStatement v doc s₂ = .ok () (s₂.push v) := fun _ => rfl
    refine .step (hpush _) (hpush _) (.step drainHeredocs_eq drainHeredocs_eq ?_)
    split
    · exact .pure _
    refine .look (separated_looks stops v) fun sep hsep₃ => ?_
    split
    · rename_i hnot
      obtain rfl : sep = false := by simpa using hnot
      obtain ⟨hnewline, hsemi, heof⟩ := separated_false hsep₃
      refine (forceRound_trails h₃ (.refl h₃.valid) rfl
        (atSeparator_false.2 ⟨hnewline, hsemi⟩) heof).imp fun I _ _ hgoes => hgoes.since ?_
      rw [hv₂.draining.pos]
      exact Nat.le_of_lt hlt
    · exact .pure _

theorem statementRest_trails [EntersLevel w enter] (hlow : Enters w.low d enter)
    (hhigh : Enters w.high d enter) (h : Within w.high s₀ (Steady w.high s₀) s)
    (hd : s₀.nesting.depth = d) (hsep : atSeparator w.high s = .ok false s) :
    Trails w s₀ (statementRest enter stops stopAfterBlock) s
      (Rounded w.high s₀ stops stopAfterBlock s) := by
  unfold statementRest
  refine .look (atKind_looks .eof) fun eof? heof => .look (atStop_looks stops) fun stop? _ => ?_
  split
  · exact .pure _
  rename_i hmore
  obtain ⟨rfl, -⟩ : eof? = false ∧ stop? = false := by simpa using hmore
  have hk : (s.ahead w.high).kind ≠ .eof := atKind_false heof
  have hd₁ : s.nesting.depth = d := h.passes.depth.trans hd
  refine .step rfl rfl (.step rfl rfl (.step rfl rfl ?_))
  have hcaught : ∀ {I}, Within w.high s₀ I s → Runs w.high (Quits w.high s₀ I)
      (catchLocal (andOr enter)) s fun r s₂ =>
        Within w.high s₀ I s ∧ Caught w.high s (Placed w.high s) r s₂ := fun h =>
    (Runs.quits h (catchLocal_runs (andOr_runs hhigh h.valid hd₁))).imp fun _ _ hr => ⟨h, hr⟩
  have hcatch := (catchLocal_runs (andOr_runs hlow h.valid.low hd₁)).imp_fail fun _ _ =>
    Aborts.statements
  have hkept : Within w.high s₀ (Grown w.high s₀ s.statements.toList) s := ⟨h.passes, h.inv⟩
  have htrails : Trails w s₀ (catchLocal (andOr enter)) s fun I r s₂ =>
      Within w.high s₀ I s ∧ Caught w.high s (Placed w.high s) r s₂ := .kept hcatch (hcaught hkept)
  exact htrails.bind (hcaught h) (fun r s₂ hr => takeStatement_trails h hsep hk hr.2)
    fun hI r s₂ hr => takeStatement_runs hI hr.1 hsep hk hr.2

theorem countedRound_trails [EntersLevel w enter] (hlow : Enters w.low d enter)
    (hhigh : Enters w.high d enter) (h : Within w.high s₀ (Steady w.high s₀) s)
    (hd : s₀.nesting.depth = d) :
    Trails w s₀ (countedRound enter stops stopAfterBlock) s
      (Rounded w.high s₀ stops stopAfterBlock s) := by
  refine (separators_trails h).bind (separators_runs (steady_sustained s₀) h)
    (fun _ s₁ ⟨⟨h₁, hle⟩, hsep⟩ => ?_) fun hI _ s₁ ⟨⟨h₁, hle⟩, hsep⟩ => ?_
  · exact (statementRest_trails hlow hhigh h₁ hd hsep).imp fun _ _ _ h => h.since hle
  · exact (statementRest_runs hhigh hI h₁ hd hsep).imp fun _ _ h => h.since hle

theorem statementRound_trails [EntersLevel w enter] (hlow : Enters w.low d enter)
    (hhigh : Enters w.high d enter) (h : Within w.high s₀ (Steady w.high s₀) s.charge)
    (hd : s₀.nesting.depth = d) :
    Trails w s₀ (statementRound enter stops stopAfterBlock) s
      (Rounded w.high s₀ stops stopAfterBlock s) := by
  rw [statementRound_eq]
  have hcount := (countIteration_runs h.valid.of_charge).imp fun _ s₁ (hs₁ : s₁ = s.charge) =>
    And.intro hs₁ (hs₁ ▸ h)
  refine (countIteration_trails h).bind hcount ?_ ?_
  · rintro _ _ ⟨rfl, h₁⟩
    exact countedRound_trails hlow hhigh h₁ hd
  · rintro I hI _ _ ⟨rfl, h₁⟩
    exact countedRound_runs hhigh hI h₁ hd

/-- Where the tighter limits stop a list, the wider ones let it go on from the same statements. -/
theorem statementList_trails [EntersLevel w enter] (hlow : Enters w.low d enter)
    (hhigh : Enters w.high d enter) (h : Within w.high s₀ (Steady w.high s₀) s.charge)
    (hd : s₀.nesting.depth = d) :
    Trails w s₀ (statementList enter stops stopAfterBlock) s fun I _ s' =>
      Within w.high s₀ I s' ∧ Ends w.high stops stopAfterBlock s' :=
  .repeatRounds (fun I _ s' => Within w.high s₀ I s'.charge) (fun _ _ _ h => h.valid.le_size) h
    (fun _ _ h => statementRound_trails hlow hhigh h hd)
    fun hI _ _ h => statementRound_runs hhigh hI h hd

end

/-! ## Whole documents -/

section

variable {text : String} {limits a b : Limits}

/-- Two runs under different budgets are the same, or the first is stopped and what it has read is
read by the second too. -/
theorem run_trails (text : String) (h : a.Tighter b) : run text a = run text b ∨
    ∃ e s, run text a = .error e s ∧
      s.statements.toList <+: (lastState (run text b)).statements.toList := by
  let w : Budgets := ⟨text, a, b, h⟩
  have hv : Valid w.high State.initial.charge := (valid_initial w.high).charge (by decide)
  have hinit : Within w.high State.initial.charge (Steady w.high State.initial.charge)
      State.initial.charge :=
    within_nil (s := .initial) hv ((open_nil (s := .initial)).steady_of_nil rfl)
  have hlow : Enters w.low 0 (enterLevel b.depth) :=
    enters_level _ (by rw [Nat.zero_add]; exact Nat.le_of_eq h.depth)
  have hhigh : Enters w.high 0 (enterLevel b.depth) :=
    enters_level _ (by rw [Nat.zero_add]; exact Nat.le_refl _)
  have htrails : Trails w State.initial.charge (program b) .initial _ :=
    statementList_trails hlow hhigh hinit rfl
  have hrun : run text a = program b w.low .initial := by
    unfold run program
    rw [h.depth]
    rfl
  rw [hrun]
  refine htrails.imp_right fun ⟨e, s, heq, hkept⟩ => ⟨e, s, heq, ?_⟩
  unfold Runs at hkept
  have hrun' : run text b = program b w.high .initial := rfl
  rw [hrun']
  split at hkept
  · rename_i hok
    rw [hok]
    exact hkept.1.inv.grown
  · rename_i herror
    obtain ⟨-, s₁, hgrown, -, hstatements⟩ := hkept
    rw [herror, lastState, ← hstatements]
    exact hgrown.grown

/-- What was read stays in front of the error that stands for the rest. -/
theorem lastState_isPrefix (text : String) (limits : Limits) :
    (lastState (run text limits)).statements.toList <+: (parseWith limits text).statements := by
  rw [statements_eq]
  cases outcome_open text limits with
  | complete s hrun =>
    rw [hrun]
    exact List.prefix_refl _
  | aborted error s hrun =>
    rw [hrun]
    unfold concludedStatements
    simp only [lastState]
    split
    · exact List.prefix_refl _
    · exact List.prefix_append _ _

theorem isBudget_limit {error : LimitError} {span : Span} (h : error.isLocal = false) :
    (Diagnostic.limit error span).IsBudget := by
  cases error with
  | tokens k => exact ⟨k, span, .inl rfl⟩
  | iterations k => exact ⟨k, span, .inr rfl⟩
  | nesting | chain => cases h

/-- A parse that is stopped says so once. -/
theorem diagnostics_of_stopped {e : Stopped} {s : State} (hrun : run text limits = .error e s) :
    ∃ ds d ds', (parseWith limits text).diagnostics = ds ++ d :: ds' ∧ d.IsBudget ∧
      ∀ d' ∈ ds ++ ds', ¬ d'.IsBudget := by
  cases outcome_open text limits with
  | complete s' hrun' =>
    rw [hrun'] at hrun
    cases hrun
  | aborted error s' hrun' hquits =>
    obtain ⟨⟨hglobal, hspoils⟩, -⟩ := hquits
    let d := Diagnostic.limit error (.upTo (lastStop s'.statements.toList) (size text))
    have hperm : (parseWith limits text).diagnostics.Perm (s'.diagnostics.toList ++ [d]) := by
      rw [parseWith, hrun']
      exact List.mergeSort_perm _ _
    obtain ⟨ds, ds', hsplit⟩ := List.append_of_mem (hperm.mem_iff.2 (by simp : d ∈ _))
    refine ⟨ds, d, ds', hsplit, isBudget_limit hglobal, fun d' hd' => ?_⟩
    have hrest : (ds ++ ds').Perm s'.diagnostics.toList := by
      rw [hsplit] at hperm
      exact ((List.perm_middle.symm.trans hperm).trans (List.perm_append_singleton d _)).cons_inv
    exact (hspoils.diagnostics d' (hrest.mem_iff.1 hd')).not_budget

/-- The statements of a parse that is stopped. -/
theorem statements_of_stopped {e : Stopped} {s : State} (hrun : run text limits = .error e s) :
    (parseWith limits text).statements = s.statements.toList ∨
      (parseWith limits text).statements = s.statements.toList ++
        [.error (.upTo (lastStop s.statements.toList) (size text))] := by
  cases outcome_open text limits with
  | complete s' hrun' =>
    rw [hrun'] at hrun
    cases hrun
  | aborted error s' hrun' =>
    rw [hrun'] at hrun
    cases hrun
    rw [statements_eq, hrun']
    unfold concludedStatements
    simp only
    split
    · exact .inl rfl
    · exact .inr rfl

/-- If a parse does not exceed its budget, a wider one changes nothing.  If it does, it says so once,
and its statements are the first ones of the parse under the wider budget and at most one error from
there to the end of the text. -/
theorem parseWith_budget (text : String) (a b : Limits) (h : a.Tighter b) :
    ((∀ d ∈ (parseWith a text).diagnostics, ¬ d.IsBudget) → parseWith a text = parseWith b text) ∧
    ((∃ d ∈ (parseWith a text).diagnostics, d.IsBudget) →
      (∃ ds d ds', (parseWith a text).diagnostics = ds ++ d :: ds' ∧ d.IsBudget ∧
        ∀ d' ∈ ds ++ ds', ¬ d'.IsBudget) ∧
      ∃ pre, pre <+: (parseWith b text).statements ∧ ((parseWith a text).statements = pre ∨
        (parseWith a text).statements = pre ++ [.error (.upTo (lastStop pre) (size text))])) := by
  constructor
  · intro hnone
    rcases run_trails text h with heq | ⟨e, s, hrun, -⟩
    · rw [parseWith, parseWith, heq]
    · obtain ⟨ds, d, ds', hdiagnostics, hbudget, -⟩ := diagnostics_of_stopped hrun
      exact absurd hbudget (hnone d (by simp [hdiagnostics]))
  · rintro ⟨d, hd, hbudget⟩
    obtain ⟨e, s, hrun⟩ : ∃ e s, run text a = .error e s := by
      rcases diagnostics_cases text a d hd with hfair | ⟨error, s, -, hrun, -⟩
      · exact absurd hbudget hfair.not_budget
      · exact ⟨_, s, hrun⟩
    refine ⟨diagnostics_of_stopped hrun, s.statements.toList, ?_, statements_of_stopped hrun⟩
    refine List.IsPrefix.trans ?_ (lastState_isPrefix text b)
    rcases run_trails text h with heq | ⟨e', s', hrun', hpre⟩
    · rw [← heq, hrun]
      exact List.prefix_refl _
    · rw [hrun] at hrun'
      cases hrun'
      exact hpre

/-- Two tokens are enough for the first of two commands, and the second becomes an error. -/
theorem parseWith_budget_script :
    (∃ d ∈ (parseWith { tokens := 2 } "a\nb\n").diagnostics, d.IsBudget) ∧
    ∃ pre, pre <+: (parseWith {} "a\nb\n").statements ∧
      ((parseWith { tokens := 2 } "a\nb\n").statements = pre ∨
        (parseWith { tokens := 2 } "a\nb\n").statements = pre ++ [.error (.upTo (lastStop pre) 4)]) := by
  have hbudget : ∃ d ∈ (parseWith { tokens := 2 } "a\nb\n").diagnostics, d.IsBudget :=
    ⟨.limit (.tokens 2) (.upTo 1 4), by decide +kernel, 2, _, .inl rfl⟩
  exact ⟨hbudget, ((parseWith_budget "a\nb\n" { tokens := 2 } {}
    ⟨by decide, by decide, rfl, rfl⟩).2 hbudget).2⟩

end

end ShellAnalysis.Parse
