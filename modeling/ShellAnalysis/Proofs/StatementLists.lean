import ShellAnalysis.Proofs.Pipelines

/-!
# Statement lists

What a statement list does is said once, by the ways in which its state can go
on (`Sustained`): a separator is consumed and the heredoc bodies that wait are
put into the list, a statement is added and the bodies after it, or an error is
added.  Whatever all of these keep holds when the list ends, and of the
statements that are there when a limit stops it (`statementList_runs`).
-/

namespace ShellAnalysis.Parse

open Text Node

/-! ## Moving bodies into the list -/

/-- The state with another open list. -/
def State.holding (s : State) (statements : Array Node) : State := { s with statements }

/-- The state with one more statement in the open list. -/
def State.push (s : State) (v : Node) : State := s.holding (s.statements.push v)

/-- The state after a body was put into the open list or dropped. -/
def State.place (s : State) (b : Node) : State :=
  match placeBody? s.statements b with
  | some statements => s.holding statements
  | none => { s with diagnostics := s.diagnostics.push (.detachedHeredoc b.span) }

/-- The state after all bodies that wait were put into the open list. -/
def State.drained (s : State) : State := s.bodies.foldl State.place { s with bodies := [] }

section

variable {doc : Document} {s s₁ s₂ s' : State} {v : Node} {X : Array Node}

/-- A body goes behind the last statement, or into it, or nowhere. -/
theorem place_cases (s : State) (b : Node) :
    ((∀ init last, s.statements.toList = init ++ [last] → last.stop ≤ b.start) ∧
      s.place b = s.push b) ∨
    ∃ (X : Array Node) (last : Node), s.statements = X.push last ∧ b.start < last.stop ∧
      ((last.attachHeredoc? b = none ∧
        s.place b = { s with diagnostics := s.diagnostics.push (.detachedHeredoc b.span) }) ∨
      ∃ w, last.attachHeredoc? b = some w ∧ s.place b = s.holding (X.push w)) := by
  cases hback : s.statements.back? with
  | none =>
    refine .inl ⟨fun init last hsplit => ?_, ?_⟩
    · rw [Array.back?_eq_none_iff] at hback
      simp [hback] at hsplit
    · simp only [State.place, placeBody?, hback]
      rfl
  | some last =>
    obtain ⟨X, hX⟩ := Array.back?_eq_some_iff.1 hback
    by_cases hle : last.stop ≤ b.start
    · refine .inl ⟨fun init last' hsplit => ?_, ?_⟩
      · rw [hX, Array.toList_push] at hsplit
        obtain ⟨-, rfl⟩ := List.append_singleton_inj.1 hsplit
        exact hle
      · simp only [State.place, placeBody?, hback, if_pos hle]
        rfl
    · refine .inr ⟨X, last, hX, Nat.lt_of_not_le hle, ?_⟩
      have hplace : placeBody? s.statements b = (last.attachHeredoc? b).map X.push := by
        simp only [placeBody?, hback, if_neg hle]
        rw [hX, Array.pop_push]
      cases hattach : last.attachHeredoc? b with
      | none => exact .inl ⟨rfl, by simp only [State.place, hplace, hattach, Option.map_none]⟩
      | some w =>
        exact .inr ⟨w, rfl, by simp only [State.place, hplace, hattach, Option.map_some]⟩

theorem placeBodies_cons (b : Node) (bodies : List Node) (s : State) :
    placeBodies (b :: bodies) doc s = placeBodies bodies doc (s.place b) := by
  have hbind : placeBodies (b :: bodies) doc s = (match placeBody? s.statements b with
      | some statements => (do
          modify fun s : State => { s with statements }
          placeBodies bodies : Parser Unit)
      | none => do
          report (.detachedHeredoc b.span)
          placeBodies bodies) doc s := rfl
  rw [hbind, State.place]
  cases placeBody? s.statements b <;> rfl

theorem placeBodies_eq (bodies : List Node) (s : State) :
    placeBodies bodies doc s = .ok () (bodies.foldl State.place s) := by
  induction bodies generalizing s with
  | nil => rfl
  | cons b bodies ih => rw [placeBodies_cons, ih, List.foldl_cons]

theorem drained_of_nil (h : s.bodies = []) : s.drained = s := by
  have hsame : { s with bodies := [] } = s := by rw [← h]
  unfold State.drained
  rw [hsame, h]
  rfl

theorem drainHeredocs_eq : drainHeredocs doc s = .ok () s.drained := placeBodies_eq s.bodies _

theorem drainHeredocs_runs {fail : Stopped → State → Prop} :
    Runs doc fail drainHeredocs s fun _ s' => s' = s.drained := by
  unfold Runs
  rw [drainHeredocs_eq]

theorem runs_pushStatement {β : Type} {fail : Stopped → State → Prop} {f : Unit → Parser β}
    {Q : β → State → Prop} :
    Runs doc fail (pushStatement v >>= f) s Q ↔ Runs doc fail (f ()) (s.push v) Q := Iff.rfl

/-- Bodies that are put in place change the open list and the diagnostics only. -/
structure Draining (doc : Document) (s s' : State) : Prop where
  pos : s'.pos = s.pos
  nesting : s'.nesting = s.nesting
  tokens : s'.tokens = s.tokens
  iterations : s'.iterations = s.iterations
  pending : s'.pending = s.pending
  bodies : s'.bodies = s.bodies
  diagnostics : (∀ d ∈ s.diagnostics.toList, d.Fair doc.text) →
    ∀ d ∈ s'.diagnostics.toList, d.Fair doc.text

theorem draining_place {b : Node} (hb : Cut doc.text b.span) : Draining doc s (s.place b) := by
  unfold State.place
  split
  · exact ⟨rfl, rfl, rfl, rfl, rfl, rfl, id⟩
  · refine ⟨rfl, rfl, rfl, rfl, rfl, rfl, fun h => ?_⟩
    rw [Array.toList_push, List.forall_mem_append, List.forall_mem_singleton]
    exact ⟨h, Diagnostic.fair_detachedHeredoc hb⟩

theorem draining_foldl (bodies : List Node) (hb : ∀ b ∈ bodies, Cut doc.text b.span) (s : State) :
    Draining doc s (bodies.foldl State.place s) := by
  induction bodies generalizing s with
  | nil => exact ⟨rfl, rfl, rfl, rfl, rfl, rfl, id⟩
  | cons b bodies ih =>
    rw [List.foldl_cons]
    rw [List.forall_mem_cons] at hb
    have h := draining_place (s := s) hb.1
    have h' := ih hb.2 (s.place b)
    exact ⟨h'.pos.trans h.pos, h'.nesting.trans h.nesting, h'.tokens.trans h.tokens,
      h'.iterations.trans h.iterations, h'.pending.trans h.pending, h'.bodies.trans h.bodies,
      fun hd => h'.diagnostics (h.diagnostics hd)⟩

theorem Valid.draining (hv : Valid doc s) : Draining doc { s with bodies := [] } s.drained :=
  draining_foldl s.bodies (fun b hb => (hv.bodies b hb).sound.here.cut) _

theorem Valid.debt_drained (hv : Valid doc s) : s.drained.debt = s.debt := by
  unfold State.debt
  rw [hv.draining.pos, hv.draining.iterations]

theorem Valid.drained (hv : Valid doc s) : Valid doc s.drained := by
  have h := hv.draining
  exact {
    boundary := h.pos ▸ hv.boundary
    tokens := by rw [h.tokens, h.pending, h.pos]; exact hv.tokens
    debt := by rw [hv.debt_drained]; exact hv.debt
    diagnostics := h.diagnostics hv.diagnostics
    bodies := by rw [h.bodies]; nofun
    inOrder := by rw [h.bodies]; exact .nil }

/-- The state with these bodies waiting. -/
def State.awaiting (s : State) (bodies : List Node) : State := { s with bodies }

theorem Valid.place {b : Node} {bs : List Node} (hv : Valid doc (s.awaiting (b :: bs))) :
    Valid doc ((s.place b).awaiting bs) := by
  have h := draining_place (s := s) (hv.bodies b List.mem_cons_self).sound.here.cut
  exact {
    boundary := by rw [State.awaiting, h.pos]; exact hv.boundary
    tokens := by rw [State.awaiting, h.tokens, h.pending, h.pos]; exact hv.tokens
    debt := by
      show ((s.place b).iterations : Int) - 3 * (s.place b).pos ≤ 2
      rw [h.iterations, h.pos]
      exact hv.debt
    diagnostics := h.diagnostics hv.diagnostics
    bodies := fun b' hb' => by
      rw [State.awaiting, h.pos]
      exact hv.bodies b' (List.mem_cons_of_mem _ hb')
    inOrder := (List.pairwise_cons.1 hv.inOrder).2 }

/-- What every body keeps that is put in place holds after all of them were. -/
theorem Valid.drain {P : State → Prop} (hv : Valid doc s)
    (hplace : ∀ {s : State} {b bs}, P (s.awaiting (b :: bs)) → Valid doc (s.awaiting (b :: bs)) →
      P ((s.place b).awaiting bs))
    (h : P s) : P s.drained := by
  have hall : ∀ (bs : List Node) (s : State), P (s.awaiting bs) → Valid doc (s.awaiting bs) →
      P ((bs.foldl State.place s).awaiting []) := by
    intro bs
    induction bs with
    | nil => exact fun s h _ => h
    | cons b bs ih => exact fun s h hv => ih (s.place b) (hplace h hv) hv.place
  have hdrained : s.drained.awaiting [] = s.drained := by
    have hbodies : s.drained.bodies = [] := hv.draining.bodies
    cases hs : s.drained
    rw [hs] at hbodies
    simp only at hbodies
    simp only [State.awaiting, hbodies]
  rw [← hdrained]
  exact hall s.bodies { s with bodies := [] } h hv

/-! ### Moves around a list -/

theorem Valid.holding (h : Valid doc s) (X : Array Node) : Valid doc (s.holding X) :=
  h.congr rfl rfl rfl rfl rfl rfl

theorem Moves.holding (h : Moves doc s s') (X : Array Node) :
    Moves doc (s.holding X) (s'.holding X) :=
  { h with
    statements := rfl
    valid := h.valid.holding X }

theorem Valid.moves_drained (hv : Valid doc s) (X : Array Node) :
    Moves doc (s.holding X) (s.drained.holding X) := by
  have h := hv.draining
  have hnesting : s.drained.nesting = s.nesting := h.nesting
  refine .still (hv.drained.holding X) ⟨?_, ?_, rfl⟩ ?_ h.pos ?_ (Int.le_of_eq hv.debt_drained)
  · exact congrArg Nesting.newlineSkip hnesting
  · exact congrArg Nesting.backtickDepth hnesting
  · exact congrArg Nesting.depth hnesting
  · show ∀ b ∈ s.drained.bodies, _
    rw [h.bodies]
    nofun

end

/-! ## Limits on one statement -/

section

variable {doc : Document} {s s₁ s₂ s' : State} {v : Node}

/-- A statement was read, or a limit on one construct was exceeded in it. -/
def Caught {α : Type} (doc : Document) (s : State) (Q : α → State → Prop) :
    Except LimitError α → State → Prop
  | .ok a, s' => Q a s'
  | .error error, s' => error.isLocal = true ∧ s'.statements = s.statements ∧
      Moves doc s (s'.renest s)

theorem catchLocal_runs {α : Type} {p : Parser α} {Q : α → State → Prop}
    (h : Runs doc (Fails doc s) p s Q) :
    Runs doc (Aborts doc s) (catchLocal p) s (Caught doc s Q) := by
  unfold Runs at h ⊢
  unfold catchLocal
  cases hp : p doc s with
  | ok a s' =>
    rw [hp] at h
    exact h
  | error e s' =>
    rw [hp] at h
    cases e with
    | fault => exact h.elim
    | limit error =>
      obtain ⟨hspoils, hlocal⟩ := h
      simp only
      cases hl : error.isLocal with
      | true => exact ⟨hl, hspoils.statements, hlocal hl⟩
      | false => exact ⟨hl, hspoils⟩

/-- An error over everything from the token ahead to the position. -/
theorem stands_error (h : Moves doc s s') (hv : Valid doc s) (hlt : s.pos < s'.pos) :
    Stands doc .ahead s (.error (.upTo (s.front doc) s'.pos)) s' := by
  have hfront := Nat.le_of_lt (h.front_lt hlt)
  have hcut := cut_upTo hv.front_boundary h.valid.boundary
  refine ⟨⟨h, ?_, ?_⟩, hlt, Nat.le_refl _, ?_, rfl, solid_of_isClosed rfl rfl⟩
  · refine .single (sound_leaf hcut rfl (by simp [Node.error, Node.form, Form.names]) trivial)
      hv.pos_le_front ?_ rfl
    exact Nat.le_of_eq (Span.stop_upTo hfront)
  · rw [List.forall_mem_singleton]
    exact id
  · exact Nat.le_of_eq (Span.stop_upTo hfront).symm

theorem abandon_runs {error : LimitError} {nesting : Nesting} (hv : Valid doc s)
    (hnesting : nesting = s.nesting) (hlocal : error.isLocal = true)
    (hm : Moves doc s (s₁.renest s))
    (hk : (s.ahead doc).kind ≠ .newline ∧ (s.ahead doc).kind ≠ .eof) :
    Runs doc (Aborts doc s) (abandon error (s.front doc) nesting) s₁ fun v s' =>
      v.Solid ∧ Stands doc .ahead s v s' := by
  subst hnesting
  unfold abandon
  refine Runs.bind (R := fun _ s₂ => s₂ = s₁.renest s) rfl ?_
  rintro _ _ rfl
  refine ((bumpWhile_runs (fun _ _ => ⟨_, rfl⟩) ?_ hm.valid).imp_fail fun _ _ =>
    .rebase hm.toKeeps).bind fun _ s₂ h₂ => ?_
  · intro s hmore heof
    have hmore : EStateM.Result.ok ((s.ahead doc).kind != .newline && (s.ahead doc).kind != .eof) s =
      (.ok true s : EStateM.Result Stopped _ _) := hmore
    rw [heof] at hmore
    simp at hmore
  obtain ⟨hm₂, hend⟩ := h₂
  have hm₂ := hm.trans hm₂
  have hlt : s.pos < s₂.pos := by
    rcases hm₂.leap with hpos | hlt
    · have hend : EStateM.Result.ok ((s₂.ahead doc).kind != .newline && (s₂.ahead doc).kind != .eof)
        s₂ = (.ok false s₂ : EStateM.Result Stopped _ _) := hend
      rw [ahead_congr hpos hm₂.skip] at hend
      simp [hk] at hend
    · exact Nat.lt_of_le_of_lt hv.pos_le_front hlt
  rw [runs_spanFrom]
  have hstands := stands_error hm₂ hv hlt
  have hcut := cut_upTo hv.front_boundary hm₂.valid.boundary
  refine (report_runs hm₂.valid (Diagnostic.fair_limit hcut hlocal)).bind fun _ s₃ h₃ => ?_
  refine .pure ⟨hstands.solid, ?_⟩
  rw [← h₃.pos]
  exact stands_error (hm₂.trans h₃.moves) hv (h₃.pos ▸ hlt)

/-- A statement that was read after something that consumed nothing. -/
theorem Placed.since (h : Placed doc s₁ v s') (hm : Moves doc s s₁) (hpos : s₁.pos = s.pos) :
    Placed doc s v s' where
  toYields := h.toYields.after hm
  start_le := by
    rw [← front_congr hpos hm.skip]
    exact h.start_le
  le_stop := h.le_stop
  settled := h.settled
  parted := fun v' k ht => (h.parted v' k ht).after hm.toDrifts

/-! ## Rounds -/

/-- What holds of the state of a statement list however the list goes on. -/
structure Sustained (doc : Document) (I : State → Prop) : Prop where
  charge : ∀ {s}, I s → I s.charge
  separator : ∀ {s s₁}, I s → Valid doc s → atSeparator doc s = .ok true s → Bumped doc s s₁ →
    I s₁.drained
  statement : ∀ {s v s₁}, I s → Valid doc s → atSeparator doc s = .ok false s → Placed doc s v s₁ →
    s.pos < s₁.pos → I (s₁.push v).drained
  wrong : ∀ {s v s₁}, I s → Valid doc s → atSeparator doc s = .ok false s → Placed doc s v s₁ →
    s.pos < s₁.pos → v.Solid → I (s₁.push v)

/-- A limit on the whole document stops a list that began at `s₀`. -/
def Quits (doc : Document) (s₀ : State) (I : State → Prop) (e : Stopped) (s' : State) : Prop :=
  Aborts doc s₀ e (s'.holding s₀.statements) ∧
    ∃ s, I s ∧ Valid doc s ∧ s.statements = s'.statements

/-- The statement list that began at `s₀` has come to `s`. -/
structure Within (doc : Document) (s₀ : State) (I : State → Prop) (s : State) : Prop where
  passes : Passes doc s₀ (s.holding s₀.statements)
  inv : I s

section

variable {s₀ : State} {I : State → Prop} {d : Nat} {enter : Parser Grammar} {stops : List StopAt}
  {stopAfterBlock : Bool}

theorem Within.valid (h : Within doc s₀ I s) : Valid doc s :=
  h.passes.valid.congr rfl rfl rfl rfl rfl rfl

theorem Within.quits {e : Stopped} (h : Within doc s₀ I s) (ha : Aborts doc s e s') :
    Quits doc s₀ I e s' := by
  cases e with
  | fault => exact ha.elim
  | limit error =>
    obtain ⟨hglobal, hspoils⟩ := ha
    have hk : Keeps s₀ (s.holding s₀.statements) := h.passes.toKeeps
    refine ⟨⟨hglobal, { hspoils with
      skip := hspoils.skip.trans hk.skip
      backticks := hspoils.backticks.trans hk.backticks
      statements := rfl
      exceeds := ?_ }⟩, s, h.inv, h.valid, hspoils.statements.symm⟩
    exact hspoils.exceeds

theorem Runs.quits {α : Type} {p : Parser α} {Q : α → State → Prop} (h : Within doc s₀ I s)
    (hr : Runs doc (Aborts doc s) p s₁ Q) : Runs doc (Quits doc s₀ I) p s₁ Q :=
  hr.imp_fail fun _ _ => h.quits

theorem Within.drained (h : Passes doc s₀ (s.holding s₀.statements)) (hI : I s.drained) :
    Within doc s₀ I s.drained := by
  have hv : Valid doc s := h.valid.congr rfl rfl rfl rfl rfl rfl
  exact ⟨h.trans (hv.moves_drained s₀.statements).toPasses, hI⟩

/-- A separator is consumed, and the bodies after it are put into the list. -/
theorem separator_runs (hI : Sustained doc I) (h : Within doc s₀ I s)
    (hat : atSeparator doc s = .ok true s) :
    Runs doc (Quits doc s₀ I) (do
        discard bump
        drainHeredocs) s fun _ s' => Within doc s₀ I s' ∧ s.pos < s'.pos := by
  refine (Runs.quits h (discard_bump_runs h.valid (ne_eof_of_atSeparator hat))).bind
    fun _ s₁ h₁ => ?_
  refine drainHeredocs_runs.imp ?_
  rintro _ _ rfl
  have hp₁ := h.passes.trans (h₁.toMoves.holding s₀.statements).toPasses
  refine ⟨.drained hp₁ (hI.separator h.inv h.valid hat h₁), ?_⟩
  rw [h₁.valid.draining.pos]
  exact h₁.pos_lt h.valid

theorem separators_runs (hI : Sustained doc I) (h : Within doc s₀ I s) :
    Runs doc (Quits doc s₀ I) (whileHolds atSeparator do
        discard bump
        drainHeredocs) s fun _ s' =>
      (Within doc s₀ I s' ∧ s.pos ≤ s'.pos) ∧ atSeparator doc s' = .ok false s' := by
  refine Runs.whileHolds (fun s' => Within doc s₀ I s' ∧ s.pos ≤ s'.pos)
    (fun _ h => h.1.valid.le_size) atSeparator_looks ⟨h, Nat.le_refl _⟩ fun s₁ h₁ hat => ?_
  exact (separator_runs hI h₁.1 hat).imp fun _ s₂ h₂ =>
    ⟨⟨h₂.1, Nat.le_trans h₁.2 (Nat.le_of_lt h₂.2)⟩, h₂.2⟩

theorem atStop_looks (stops : List StopAt) : Looks (atStop stops) := by
  have hholds : ∀ stop : StopAt, Looks stop.holds := by
    intro stop
    cases stop <;> exact fun _ _ => ⟨_, rfl⟩
  unfold atStop
  induction stops with
  | nil => exact .pure _
  | cons stop stops ih =>
    rw [List.anyM]
    refine .bind (hholds stop) fun b => ?_
    cases b with
    | true => exact .pure _
    | false => exact ih

theorem separated_looks (stops : List StopAt) (v : Node) : Looks (separated stops v) := by
  unfold separated
  split
  · exact .pure _
  · refine .bind (fun _ _ => ⟨_, rfl⟩) fun kind => ?_
    split <;> first | exact .pure _ | exact atStop_looks stops

instance : Looking atBareMutation := ⟨fun _ _ => ⟨_, rfl⟩⟩
instance (stops : List StopAt) : Looking (atStop stops) := ⟨atStop_looks stops⟩
instance (stops : List StopAt) (v : Node) : Looking (separated stops v) := ⟨separated_looks stops v⟩

/-- Without a separator the next statement has begun. -/
theorem separated_false (h : separated stops v doc s = .ok false s) :
    (s.ahead doc).kind ≠ .newline ∧ (s.ahead doc).kind ≠ .semi ∧ (s.ahead doc).kind ≠ .eof := by
  have hrun : Runs doc (fun _ _ => False) (separated stops v) s fun b _ => b = false →
      (s.ahead doc).kind ≠ .newline ∧ (s.ahead doc).kind ≠ .semi ∧ (s.ahead doc).kind ≠ .eof := by
    unfold separated
    split
    · exact .pure nofun
    · simp only [runs_currentKind]
      split
      · exact .pure nofun
      · exact .pure nofun
      · exact .pure nofun
      · rename_i hnewline hsemi heof
        exact Runs.imp (R := fun _ _ => True) (by
          unfold Runs
          obtain ⟨b, hb⟩ := atStop_looks stops doc s
          rw [hb]
          trivial) fun _ _ _ _ => ⟨hnewline, hsemi, heof⟩
  exact hrun.of_ok h rfl

theorem atSeparator_false :
    atSeparator doc s = .ok false s ↔ (s.ahead doc).kind ≠ .newline ∧ (s.ahead doc).kind ≠ .semi := by
  show EStateM.Result.ok ((s.ahead doc).kind == .newline || (s.ahead doc).kind == .semi) s =
    (.ok false s : EStateM.Result Stopped _ _) ↔ _
  simp

/-- How a list ends: at the end of the text or at a stop, unless it ends after a block. -/
def Ends (doc : Document) (stops : List StopAt) (stopAfterBlock : Bool) (s : State) : Prop :=
  stopAfterBlock = false → (s.ahead doc).kind = .eof ∨ atStop stops doc s = .ok true s

/-- A round of the list that began at `s₀` goes on, with the next one paid for, or ends the list. -/
abbrev Rounded (doc : Document) (s₀ : State) (stops : List StopAt) (stopAfterBlock : Bool) (s : State)
    (I : State → Prop) : Round Unit Unit → State → Prop :=
  Goes (fun _ s' => Within doc s₀ I s'.charge)
    (fun _ s' => Within doc s₀ I s' ∧ Ends doc stops stopAfterBlock s') s

/-- A statement or an error was added, and what was consumed pays for the next round. -/
theorem Within.again (hI : Sustained doc I) (h : Within doc s₀ I s₁)
    (hm : Moves doc (s₁.holding s₀.statements) (s'.holding s₀.statements))
    (hlt : s₁.pos < s'.pos) (hI' : I s') : Within doc s₀ I s'.charge :=
  ⟨h.passes.trans (hm.charge (h.valid.holding _) hlt), hI.charge hI'⟩

/-- A token that does not fit is added to the list, and the list goes on. -/
theorem forceRound_runs {what : String} {Q : Unit → State → Prop} (hI : Sustained doc I)
    (h : Within doc s₀ I s) (hm : Moves doc s s₁) (hpos : s₁.pos = s.pos)
    (hsep : atSeparator doc s = .ok false s) (hk : (s.ahead doc).kind ≠ .eof) :
    Runs doc (Quits doc s₀ I) (do
        pushStatement (← forceAdvance what)
        return Round.again ()) s₁ (Goes (fun _ s' => Within doc s₀ I s'.charge) Q s) := by
  have hahead : s₁.ahead doc = s.ahead doc := ahead_congr hpos hm.skip
  refine (Runs.quits h ((forceAdvance_runs hm.valid (by rwa [hahead])).imp_fail fun _ _ =>
    .rebase hm.toKeeps)).bind fun v s₂ h₂ => ?_
  obtain ⟨rfl, h₂⟩ := h₂
  have hstands : Stands doc .ahead s₁ (.error (s₁.ahead doc).span) s₂ :=
    h₂.stands hm.valid (by rw [hahead]; exact (atSeparator_false.1 hsep).1)
  have hplaced := (hstands.placed hm.valid).since hm hpos
  have hlt : s.pos < s₂.pos := hpos ▸ hstands.lt
  have hinv := hI.wrong h.inv h.valid hsep hplaced hlt hstands.solid
  rw [runs_pushStatement]
  exact .pure ⟨h.again hI ((hm.trans h₂.toMoves).holding _) hlt hinv, hlt⟩

/-- What a round does with a statement that was read, or that exceeded a limit. -/
def takeStatement (stops : List StopAt) (stopAfterBlock : Bool) (before start : Nat)
    (nesting : Nesting) : Except LimitError Node → Parser (Round Unit Unit)
  | .error error => do
    pushStatement (← abandon error start nesting)
    return .again ()
  | .ok statement => do
    if (← position) == before then
      pushStatement (← forceAdvance "a command")
      return .again ()
    pushStatement statement
    drainHeredocs
    if stopAfterBlock && statement.endsWithBlock then return .finish ()
    if !(← separated stops statement) then
      pushStatement (← forceAdvance "`;` or a newline")
    return .again ()

/-- What a round does after the separators: a statement, or the end. -/
def statementRest (enter : Parser Grammar) (stops : List StopAt) (stopAfterBlock : Bool) :
    Parser (Round Unit Unit) := do
  if (← atKind .eof) || (← atStop stops) then return .finish ()
  let before ← position
  let start ← startOffset
  let nesting := (← get).nesting
  let statement ← catchLocal (andOr enter)
  takeStatement stops stopAfterBlock before start nesting statement

/-- A round after it was counted. -/
def countedRound (enter : Parser Grammar) (stops : List StopAt) (stopAfterBlock : Bool) :
    Parser (Round Unit Unit) := do
  whileHolds atSeparator do
    discard bump
    drainHeredocs
  statementRest enter stops stopAfterBlock

theorem statementRound_eq (enter : Parser Grammar) (stops : List StopAt) (stopAfterBlock : Bool) :
    statementRound enter stops stopAfterBlock = (do
      countIteration
      countedRound enter stops stopAfterBlock) := rfl

theorem takeStatement_runs {r : Except LimitError Node} (hI : Sustained doc I)
    (h : Within doc s₀ I s) (hsep : atSeparator doc s = .ok false s)
    (hk : (s.ahead doc).kind ≠ .eof) (hr : Caught doc s (Placed doc s) r s₂) :
    Runs doc (Quits doc s₀ I)
      (takeStatement stops stopAfterBlock s.pos (s.front doc) s.nesting r) s₂
      (Rounded doc s₀ stops stopAfterBlock s I) := by
  cases r with
  | error error =>
    obtain ⟨hlocal, hstatements, hm₂⟩ := hr
    refine (Runs.quits h (abandon_runs h.valid rfl hlocal hm₂
      ⟨(atSeparator_false.1 hsep).1, hk⟩)).bind fun v s₃ h₃ => ?_
    obtain ⟨hsolid, h₃⟩ := h₃
    rw [runs_pushStatement]
    have hinv := hI.wrong h.inv h.valid hsep (h₃.placed h.valid) h₃.lt hsolid
    exact .pure ⟨h.again hI (h₃.toMoves.holding _) h₃.lt hinv, h₃.lt⟩
  | ok v =>
    have h₂ : Placed doc s v s₂ := hr
    unfold takeStatement
    simp only [runs_position]
    split
    · rename_i hstill
      exact forceRound_runs hI h h₂.toMoves (beq_iff_eq.1 hstill) hsep hk
    rename_i hmoved
    have hlt : s.pos < s₂.pos := h₂.pos_lt_of_not_beq hmoved
    rw [runs_pushStatement]
    refine drainHeredocs_runs.bind ?_
    rintro _ _ rfl
    have hv₂ : Valid doc (s₂.push v) := h₂.valid.holding _
    have hp₂ : Passes doc s₀ ((s₂.push v).holding s₀.statements) :=
      h.passes.trans (h₂.toMoves.holding _).toPasses
    have h₃ := Within.drained hp₂ (hI.statement h.inv h.valid hsep h₂ hlt)
    have hm₃ := (h₂.toMoves.holding s₀.statements).trans (hv₂.moves_drained s₀.statements)
    have hpos₃ : (s₂.push v).drained.pos = s₂.pos := hv₂.draining.pos
    have hlt₃ : s.pos < (s₂.push v).drained.pos := hpos₃ ▸ hlt
    split
    · rename_i hblock
      refine .pure ⟨h₃, fun hno => ?_⟩
      rw [hno] at hblock
      cases hblock
    refine .look (separated_looks stops v) fun sep hsep₃ => ?_
    split
    · rename_i hnot
      obtain rfl : sep = false := by simpa using hnot
      obtain ⟨hnewline, hsemi, heof⟩ := separated_false hsep₃
      exact (forceRound_runs hI h₃ (.refl h₃.valid) rfl
        (atSeparator_false.2 ⟨hnewline, hsemi⟩) heof).imp fun _ _ h => h.since (Nat.le_of_lt hlt₃)
    · exact .pure ⟨h.again hI hm₃ hlt₃ h₃.inv, hlt₃⟩

theorem statementRest_runs (he : Enters doc d enter) (hI : Sustained doc I)
    (h : Within doc s₀ I s) (hd : s₀.nesting.depth = d) (hsep : atSeparator doc s = .ok false s) :
    Runs doc (Quits doc s₀ I) (statementRest enter stops stopAfterBlock) s
      (Rounded doc s₀ stops stopAfterBlock s I) := by
  unfold statementRest
  rw [runs_atKind]
  refine .look (atStop_looks stops) fun stop? hstop => ?_
  split
  · rename_i hend
    refine .pure ⟨h, fun _ => ?_⟩
    rw [Bool.or_eq_true, beq_iff_eq] at hend
    refine hend.imp_right fun heq => ?_
    rw [heq] at hstop
    exact hstop
  rename_i hmore
  have hk : (s.ahead doc).kind ≠ .eof := by
    rintro heof
    rw [heof] at hmore
    exact hmore (by simp)
  have hd₁ : s.nesting.depth = d := h.passes.depth.trans hd
  rw [runs_position, runs_startOffset, runs_get]
  exact (Runs.quits h (catchLocal_runs (andOr_runs he h.valid hd₁))).bind fun _ _ =>
    takeStatement_runs hI h hsep hk

theorem countedRound_runs (he : Enters doc d enter) (hI : Sustained doc I)
    (h : Within doc s₀ I s) (hd : s₀.nesting.depth = d) :
    Runs doc (Quits doc s₀ I) (countedRound enter stops stopAfterBlock) s
      (Rounded doc s₀ stops stopAfterBlock s I) := by
  refine (separators_runs hI h).bind fun _ s₁ h₁ => ?_
  obtain ⟨⟨h₁, hle⟩, hsep⟩ := h₁
  exact (statementRest_runs he hI h₁ hd hsep).imp fun _ _ h => h.since hle

theorem statementRound_runs (he : Enters doc d enter) (hI : Sustained doc I)
    (h : Within doc s₀ I s.charge) (hd : s₀.nesting.depth = d) :
    Runs doc (Quits doc s₀ I) (statementRound enter stops stopAfterBlock) s
      (Rounded doc s₀ stops stopAfterBlock s I) := by
  have hv := h.valid.of_charge
  rw [statementRound_eq]
  refine (Runs.quits h ((countIteration_runs hv).imp_fail fun _ _ =>
    .rebase (s := s.charge) ⟨rfl, rfl, rfl⟩)).bind fun _ s₁ h₁ => ?_
  subst h₁
  exact countedRound_runs he hI h hd

/-- Whatever a list keeps holds when it ends. -/
theorem statementList_runs (he : Enters doc d enter) (hI : Sustained doc I)
    (h : Within doc s₀ I s.charge) (hd : s₀.nesting.depth = d) :
    Runs doc (Quits doc s₀ I) (statementList enter stops stopAfterBlock) s fun _ s' =>
      Within doc s₀ I s' ∧ Ends doc stops stopAfterBlock s' :=
  Runs.repeatRounds (fun _ s' => Within doc s₀ I s'.charge) (fun _ _ h => h.valid.le_size) h
    fun _ _ h => statementRound_runs he hI h hd

end

end

end ShellAnalysis.Parse
