import ShellAnalysis.Parse.Program
import ShellAnalysis.Proofs.Lossless
import ShellAnalysis.Proofs.OpenRows

/-!
# How a parse ends

`outcome` says how reading a document ends: it never fails by itself, it ends
at the end of the text or at a limit on the whole document, and whatever a
statement list keeps (`Sustained`) holds of the statements in either case.

The results about whole parses follow from it and from the row of the open
list: no parse faults and every span is cut out of the text
(`parseWith_cut`), and the tokens and rounds of a parse are bounded by the size
of the text (`parseWith_frugal`).
-/

namespace ShellAnalysis.Parse

open Text Node

/-! ## The last state -/

/-- The state in which reading ends. -/
def lastState : EStateM.Result Stopped State Unit → State
  | .ok _ s | .error _ s => s

/-- Reading a document ends at the end of the text, or at a limit on the whole document. -/
inductive Outcome (text : String) (limits : Limits) (I : State → Prop) : Prop
  | complete (s : State) : run text limits = .ok () s →
      Within ⟨text, limits⟩ State.initial.charge I s → (s.ahead ⟨text, limits⟩).kind = .eof →
      Outcome text limits I
  | aborted (error : LimitError) (s : State) : run text limits = .error (.limit error) s →
      Quits ⟨text, limits⟩ State.initial.charge I (.limit error) s → Outcome text limits I

theorem valid_initial (doc : Document) : Valid doc State.initial where
  boundary := boundary_zero doc.text
  tokens := Nat.le_refl _
  debt := by decide
  diagnostics := by simp [State.initial]
  bodies := by simp [State.initial]
  inOrder := .nil

section

variable {text : String} {limits : Limits} {I J : State → Prop}

theorem outcome (hI : Sustained ⟨text, limits⟩ I) (hinit : I State.initial.charge) :
    Outcome text limits I := by
  have hv := (valid_initial ⟨text, limits⟩).charge (by decide)
  have he : Enters ⟨text, limits⟩ 0 (enterLevel limits.depth) := enters_level _ (by simp)
  have hruns : Runs ⟨text, limits⟩ _ (statementList (enterLevel limits.depth) [] false) .initial _ :=
    statementList_runs he hI (within_nil (s := .initial) hv hinit) rfl
  unfold Runs at hruns
  have hrun : run text limits =
    statementList (enterLevel limits.depth) [] false ⟨text, limits⟩ .initial := rfl
  split at hruns
  · rename_i s heq
    obtain ⟨hwithin, hends⟩ := hruns
    refine .complete s (hrun.trans heq) hwithin ((hends rfl).resolve_right ?_)
    exact fun hstop => by cases hstop
  · rename_i e s heq
    cases e with
    | limit error => exact .aborted error s (hrun.trans heq) hruns
    | fault => exact hruns.1.elim

/-! ## Statements -/

/-- Every statement that is read is sound. -/
theorem outcome_open (text : String) (limits : Limits) :
    Outcome text limits (Open ⟨text, limits⟩ State.initial.charge) :=
  outcome (open_sustained _) (open_nil (s := .initial))

theorem lastStop_concat (xs : List Node) (last : Node) : lastStop (xs ++ [last]) = last.stop := by
  simp [lastStop]

/-- The last statement of sound ones ends at a boundary. -/
theorem boundary_lastStop {xs : List Node} (h : ∀ x ∈ xs, x.Sound text) :
    Boundary text (lastStop xs) := by
  rcases List.eq_nil_or_concat xs with rfl | ⟨init, last, rfl⟩
  · exact boundary_zero text
  · rw [List.concat_eq_append, lastStop_concat]
    exact (h last (by simp)).here.cut.2

/-- What stands for the part of a document that was not read. -/
theorem sound_rest {xs : List Node} (h : ∀ x ∈ xs, x.Sound text) :
    (Node.error (.upTo (lastStop xs) (size text))).Sound text :=
  sound_leaf (cut_upTo (boundary_lastStop h) (boundary_size text)) rfl
    (by simp [Node.error, Node.form, Form.names]) trivial

/-- A program over sound statements spans the whole text. -/
theorem programNode_eq {xs : List Node} (h : ∀ x ∈ xs, x.Sound text) :
    programNode text xs = ⟨.upTo 0 (size text), .program xs⟩ := by
  have hspan := (make_spans (.program xs) (.upTo 0 (size text))).eq fun c hc =>
    ⟨Nat.zero_le _, by
      rw [Span.stop_upTo (Nat.zero_le _)]
      exact (h c hc).here.cut.stop_le⟩
  show Node.mk (Node.make (.program xs) (.upTo 0 (size text))).span (.program xs) = _
  rw [hspan]

/-- The statements that a run leaves. -/
def concludedStatements (text : String) : EStateM.Result Stopped State Unit → List Node
  | .ok _ s => s.statements.toList
  | .error (.limit _) s =>
    let statements := s.statements.toList
    let rest := Span.upTo (lastStop statements) (size text)
    if rest.isEmpty then statements else statements ++ [.error rest]
  | .error .fault _ => []

theorem conclude_root (text : String) (r : EStateM.Result Stopped State Unit) :
    (conclude text r).root = programNode text (concludedStatements text r) := by
  rcases r with ⟨_, s⟩ | ⟨error | _, s⟩ <;> rfl

theorem statements_eq : (parseWith limits text).statements =
    concludedStatements text (run text limits) := by
  rw [Parsed.statements, parseWith, conclude_root]
  rfl

/-- All statements of a parse are sound. -/
theorem statements_sound (text : String) (limits : Limits) :
    ∀ x ∈ (parseWith limits text).statements, x.Sound text := by
  rw [statements_eq]
  cases outcome_open text limits with
  | complete s hrun hwithin _ =>
    rw [hrun]
    exact hwithin.inv.laid.sound
  | aborted error s hrun hquits =>
    obtain ⟨-, s₁, hopen, -, hstatements⟩ := hquits
    have hsound : ∀ x ∈ s.statements.toList, x.Sound text := hstatements ▸ hopen.laid.sound
    rw [hrun]
    unfold concludedStatements
    simp only
    split
    · exact hsound
    · rw [List.forall_mem_append, List.forall_mem_singleton]
      exact ⟨hsound, sound_rest hsound⟩

theorem root_eq (text : String) (limits : Limits) : (parseWith limits text).root =
    ⟨.upTo 0 (size text), .program (parseWith limits text).statements⟩ := by
  have hroot : (parseWith limits text).root =
      programNode text (concludedStatements text (run text limits)) := conclude_root _ _
  rw [hroot, ← statements_eq]
  exact programNode_eq (statements_sound text limits)

theorem mem_walk_of_mem_statements {v w : Node} (hv : v ∈ (parseWith limits text).statements)
    (hw : w ∈ v.walk) : w ∈ (parseWith limits text).root.walk := by
  refine mem_walk.2 (.inr ⟨v, ?_, hw⟩)
  rw [root_eq]
  exact hv

/-- Everything below the root of a parse is sound. -/
theorem walk_local {v : Node} (hv : v ∈ (parseWith limits text).root.walk) :
    v = (parseWith limits text).root ∨ v.Local text := by
  rcases mem_walk.1 hv with rfl | ⟨c, hc, hv⟩
  · exact .inl rfl
  · refine .inr ((statements_sound text limits c ?_).walk v hv)
    rw [root_eq] at hc
    exact hc

/-- The root and the nodes below it are cut out of the text. -/
theorem walk_cut {v : Node} (hv : v ∈ (parseWith limits text).root.walk) : Cut text v.span := by
  rcases walk_local hv with rfl | hlocal
  · rw [root_eq]
    exact cut_upTo (boundary_zero text) (boundary_size text)
  · exact hlocal.cut

theorem walk_cut_name {v : Node} {name : Name} (hv : v ∈ (parseWith limits text).root.walk)
    (hname : name ∈ v.form.names) : Cut text name.span := by
  rcases walk_local hv with rfl | hlocal
  · rw [root_eq] at hname
    cases hname
  · exact hlocal.names name hname

/-- A part of a construct lies in it, unless it is a heredoc body. -/
theorem walk_within {v c : Node} (hv : v ∈ (parseWith limits text).root.walk)
    (hc : c ∈ v.form.items) : c.span.Within v.span := by
  have hchild : c ∈ v.form.children := Form.mem_children.2 (.inl hc)
  rcases walk_local hv with rfl | hlocal
  · have hstop := (walk_cut (mem_walk_of_child hv hchild)).stop_le
    rw [root_eq]
    exact ⟨Nat.zero_le _, Nat.le_trans hstop (Nat.le_of_eq (Span.stop_upTo (Nat.zero_le _)).symm)⟩
  · exact ⟨hlocal.le_start c hc, hlocal.stop_le c hchild⟩

theorem walk_keyed {v : Node} (hv : v ∈ (parseWith limits text).root.walk) :
    v.form.Keyed v.span := by
  rcases walk_local hv with rfl | hlocal
  · rw [root_eq]
    exact trivial
  · exact hlocal.keyed

/-! ## Diagnostics -/

theorem mem_inSourceOrder {ds : List Diagnostic} {d : Diagnostic} :
    d ∈ Diagnostic.inSourceOrder ds ↔ d ∈ ds := List.mem_mergeSort

/-- A diagnostic of a parse is fair, or it is about the limit on the whole document that stopped
it. -/
theorem diagnostics_cases (text : String) (limits : Limits) :
    ∀ d ∈ (parseWith limits text).diagnostics, d.Fair text ∨
      ∃ error s span, run text limits = .error (.limit error) s ∧ error.isLocal = false ∧
        Cut text span ∧ d = .limit error span := by
  intro d hd
  rw [parseWith] at hd
  cases outcome_open text limits with
  | complete s hrun hwithin _ =>
    rw [hrun] at hd
    rcases List.mem_append.1 (mem_inSourceOrder.1 hd) with hd | hd
    · exact .inl (hwithin.valid.diagnostics d hd)
    · obtain ⟨h, -, rfl⟩ := List.mem_map.1 hd
      exact .inl (Diagnostic.fair_lexical (cut_empty hwithin.valid.boundary))
  | aborted error s hrun hquits =>
    obtain ⟨⟨hglobal, hspoils⟩, s₁, hopen, -, hstatements⟩ := hquits
    have hsound : ∀ x ∈ s.statements.toList, x.Sound text := hstatements ▸ hopen.laid.sound
    rw [hrun] at hd
    rcases List.mem_append.1 (mem_inSourceOrder.1 hd) with hd | hd
    · exact .inl (hspoils.diagnostics d hd)
    · rw [List.mem_singleton.1 hd]
      exact .inr ⟨error, s, _, hrun, hglobal,
        cut_upTo (boundary_lastStop hsound) (boundary_size text), rfl⟩

/-- The parser does not fail by itself: no piece of the text is cut at an offset that does not stand
between two characters, no span is drawn backwards, and no count goes below zero.  The root is a
program over exactly the whole text; the spans of all nodes, of the names in them and of the
diagnostics lie in the text and cut it between characters.  So do the tokens, which are looked up
without a check, from every offset. -/
theorem parseWith_cut (text : String) (limits : Limits) :
    (∀ s, run text limits ≠ .error .fault s) ∧
    (∀ d ∈ (parseWith limits text).diagnostics, ¬ d.IsFault ∧ Cut text d.span) ∧
    (∃ statements, (parseWith limits text).root = ⟨.upTo 0 (size text), .program statements⟩) ∧
    (∀ v ∈ (parseWith limits text).root.walk,
      Cut text v.span ∧ ∀ name ∈ v.form.names, Cut text name.span) ∧
    (∀ i, Boundary text (ceil text i) ∧ Cut text (Lexer.tokenAt text i).span) := by
  refine ⟨?_, ?_, ⟨_, root_eq text limits⟩, ?_, ?_⟩
  · intro s hfault
    cases outcome_open text limits with
    | complete _ hrun => simp [hrun] at hfault
    | aborted _ _ hrun => simp [hrun] at hfault
  · intro d hd
    rcases diagnostics_cases text limits d hd with hfair | ⟨error, s, span, -, -, hcut, rfl⟩
    · exact ⟨hfair.not_fault, hfair.cut⟩
    · exact ⟨Diagnostic.not_isFault_limit, hcut⟩
  · exact fun v hv => ⟨walk_cut hv, fun _ => walk_cut_name hv⟩
  · exact fun i => ⟨ceil_boundary text i, (Lexer.tokenAt_readFrom text i).cut⟩

/-! ## Work -/

/-- The counters of the last state are paid for by the text. -/
theorem lastState_le (text : String) (limits : Limits) :
    (lastState (run text limits)).tokens ≤ size text ∧
      (lastState (run text limits)).iterations ≤ 3 * (size text + 1) := by
  cases outcome_open text limits with
  | complete s hrun hwithin _ =>
    have htokens := hwithin.valid.tokens
    have hdebt := hwithin.valid.debt
    have hle : s.pos ≤ size text := hwithin.valid.le_size
    unfold State.debt at hdebt
    rw [hrun]
    simp only [lastState]
    omega
  | aborted error s hrun hquits =>
    obtain ⟨⟨-, hspoils⟩, -⟩ := hquits
    rw [hrun]
    exact ⟨hspoils.tokens_le, hspoils.iterations_le⟩

/-- A parse consumes no more tokens than the text has bytes, and makes no more than three rounds for
each byte and for the end.  So limits that leave room for these never stop it. -/
theorem parseWith_frugal (text : String) (limits : Limits) :
    (lastState (run text limits)).tokens ≤ size text ∧
    (lastState (run text limits)).iterations ≤ 3 * (size text + 1) ∧
    (size text ≤ limits.tokens → 3 * (size text + 1) ≤ limits.iterations →
      (∃ s, run text limits = .ok () s) ∧
        ∀ d ∈ (parseWith limits text).diagnostics, ¬ d.IsBudget) := by
  obtain ⟨htokens, hiterations⟩ := lastState_le text limits
  refine ⟨htokens, hiterations, fun hroom hrounds => ?_⟩
  have hok : ∃ s, run text limits = .ok () s := by
    cases outcome_open text limits with
    | complete s hrun => exact ⟨s, hrun⟩
    | aborted error s hrun hquits =>
      obtain ⟨⟨hglobal, hspoils⟩, -⟩ := hquits
      have hexceeds := hspoils.exceeds
      rw [hrun] at htokens hiterations
      cases error with
      | tokens k =>
        obtain ⟨rfl, hlt⟩ := hexceeds
        have hlt : limits.tokens < s.tokens := hlt
        simp only [lastState] at htokens
        omega
      | iterations k =>
        obtain ⟨rfl, hlt⟩ := hexceeds
        have hlt : limits.iterations < s.iterations := hlt
        simp only [lastState] at hiterations
        omega
      | nesting | chain => cases hglobal
  refine ⟨hok, fun d hd => ?_⟩
  obtain ⟨s, hrun⟩ := hok
  rcases diagnostics_cases text limits d hd with hfair | ⟨error, s', span, herror, -⟩
  · exact hfair.not_budget
  · simp [hrun] at herror

/-- The usual limits leave room for a short script. -/
theorem parseWith_frugal_script :
    ∃ s, run "if true; then echo $x; fi\n" {} = .ok () s :=
  ((parseWith_frugal "if true; then echo $x; fi\n" {}).2.2 (by decide) (by decide)).1

end

end ShellAnalysis.Parse
