import ShellAnalysis.Parse.Program
import ShellAnalysis.Proofs.Precedence
import ShellAnalysis.Proofs.StatementLists

/-!
# Printed expressions are read back

The printer knows levels, the parser binding powers.  What is printed at a level
is read as a whole by every loop that was started with at most `powerOf level`
and sees nothing behind it that binds as strongly as `closeOf level`:

    Reads t.print t.size t.Matches (powerOf t.level) (closeOf t.level)
                                                                (Expr.reads)

This goes by induction over the expression, with the rule for its top operator
in each case.  Both numbers grow with the level (`powerOf_mono`, `closeOf_mono`),
so an operand without parentheses fits its place, and one with them fits every
place (`reads_wrap`).  For a document it gives

    t.size < every limit → `parseWith limits ("= " ++ t.print)` is the statement
      `= t` and no diagnostics                             (parseWith_print)
-/

namespace ShellAnalysis

open Text Lexer Parse

/-! ## Levels and binding powers -/

/-- Up to which binding power something of the level is read as a whole. -/
def powerOf (level : Nat) : Nat :=
  [2, 2, 4, 6, 10, 10, 12, 14, 16, 18, 20, 22, 27, 27].getD level 31

/-- What binds as strongly as this goes on with something of the level. -/
def closeOf (level : Nat) : Nat :=
  [2, 3, 5, 7, 8, 10, 13, 15, 17, 19, 21, 23, 24, 26].getD level 31

theorem powerOf_mono : ∀ l ≤ atomLevel, ∀ m ≤ l, powerOf m ≤ powerOf l := by decide

theorem closeOf_mono : ∀ l ≤ atomLevel, ∀ m ≤ l, closeOf m ≤ closeOf l := by decide

theorem Expr.level_le (t : Expr) : t.level ≤ atomLevel := by
  have hsign : ∀ sign : Sign, sign.level ≤ atomLevel := by
    intro sign
    cases sign <;> decide
  have hop : ∀ op : BinaryOp, op.level ≤ atomLevel := by
    intro op
    cases op <;> decide
  cases t with
  | unary sign => exact hsign sign
  | binary op => exact hop op
  | _ => exact Nat.le_of_ble_eq_true rfl

/-! ## First tokens -/

theorem begins_word {word : String} {loose : Prop} (kind : TokenKind)
    (h : ∀ {tail}, Ended tail → Spells word kind tail) (hkind : kind ≠ .parenClose)
    (hnot : kind = .ident → word = "not" → loose) : Begins word loose :=
  fun tail hended => ⟨word, kind, tail, rfl, h hended, hkind, hnot⟩

theorem begins_sign (sign : Sign) : Begins sign.symbol (sign.level ≤ 4) := by
  cases sign with
  | neg => exact begins_word .minus (spells_fixed (by decide)) (by decide) nofun
  | pos => exact begins_word .plus (spells_fixed (by decide)) (by decide) nofun
  | bitNot => exact begins_word .tilde (spells_fixed (by decide)) (by decide) nofun
  | not =>
    exact begins_word .ident (spells_name (by decide)) (by decide) fun _ _ => by decide

theorem begins_wrap {t : Expr} (h : Begins t.print (t.level ≤ 4)) (level : Nat) :
    Begins (wrap (t.level < level) t.print) (level ≤ 4) := by
  unfold wrap
  split
  · intro tail _
    refine ⟨"(", .parenOpen, t.print ++ ")" ++ tail, ?_, spells_parenOpen _, by decide, nofun⟩
    rw [String.append_assoc]
  · rename_i hlevel
    simp only [decide_eq_true_eq, Nat.not_lt] at hlevel
    exact h.imp (Nat.le_trans hlevel)

/-- An expression starts with `not` only if it binds no more strongly than `not`. -/
theorem Expr.begins : ∀ t : Expr, Begins t.print (t.level ≤ 4)
  | .int value _ =>
    begins_word .int (spells_digits (isDigits_repr value)) (by decide) nofun
  | .var x =>
    begins_word .ident (spells_name x.isName) (by decide) fun _ hnot => by
      have hfree := x.free
      rw [show x.name = "not" from hnot] at hfree
      exact absurd hfree (by decide)
  | .unary sign _ => (begins_sign sign).append _
  | .binary op a _ => by
    refine ((begins_wrap a.begins op.leftLevel).append _).imp fun h => ?_
    show op.level ≤ 4
    revert h
    cases op <;> decide
  | .compare first _ =>
    ((begins_wrap first.begins compareLevel).append _).imp fun h => absurd h (by decide)
  | .ternary a _ _ => ((begins_wrap a.begins 1).append _).imp fun _ => Nat.zero_le 4
  | .range _ a _ => (begins_wrap a.begins 1).append _

/-! ## Reading what was printed -/

/-- An operand in its place: with parentheses if it needs them. -/
theorem reads_wrap {t : Expr}
    (h : Reads t.print t.size t.Matches (powerOf t.level) (closeOf t.level)) (level : Nat) :
    Reads (wrap (t.level < level) t.print) (wrapSize (t.level < level) t.size) t.Matches
      (powerOf level) (closeOf level) := by
  unfold wrap wrapSize
  split
  · exact h.paren t.begins
  · rename_i hlevel
    simp only [decide_eq_true_eq, Nat.not_lt] at hlevel
    exact h.mono (powerOf_mono _ t.level_le _ hlevel) (closeOf_mono _ t.level_le _ hlevel)

mutual

/-- The loop over operators reads an expression as it was printed. -/
theorem Expr.reads : ∀ t : Expr,
    Reads t.print t.size t.Matches (powerOf t.level) (closeOf t.level)
  | .int _ h => reads_int h
  | .var x => reads_var x
  | .unary sign e => by
    have he := reads_wrap e.reads sign.level
    have hclose : closeOf (Expr.unary sign e).level = signPower sign := by cases sign <;> rfl
    rw [hclose]
    exact he.unary sign (by cases sign <;> decide) (by cases sign <;> decide)
  | .binary op a b => by
    have ha := reads_wrap a.reads op.leftLevel
    have hb := reads_wrap b.reads op.rightLevel
    have hpower : powerOf (Expr.binary op a b).level = (Infix.binary op).powers.1 := by
      cases op <;> rfl
    have hclose : closeOf (Expr.binary op a b).level = (Infix.binary op).powers.2 := by
      cases op <;> rfl
    rw [hpower, hclose]
    refine ha.fold (hb.folds (marks_binary op) (fun _ _ => rfl) ?_ ?_) ?_ ?_ <;>
      cases op <;> decide
  | .compare first chain =>
    (reads_wrap first.reads compareLevel).fold chain.reads.folds (by decide) (by decide)
  | .ternary a c b =>
    (reads_wrap a.reads 1).fold
      (folds_ternary (reads_wrap c.reads 2) b.reads (by decide) (by decide)
        (powerOf_mono _ b.level_le 0 (Nat.zero_le _)) (closeOf_mono _ b.level_le 0 (Nat.zero_le _)))
      (by decide) (by decide)
  | .range mark a b =>
    (reads_wrap a.reads 1).fold
      ((reads_wrap b.reads 2).folds (marks_range mark) (fun _ _ => rfl)
        (show 3 ≤ powerOf 2 by decide) (show 3 ≤ closeOf 2 by decide))
      (show 2 ≤ powerOf 1 by decide) (show 2 < closeOf 1 by decide)

/-- The loop over comparisons reads a chain as it was printed. -/
theorem Comparisons.reads : ∀ c : Comparisons, ReadsChain c.print c.size c.Matches
  | .last op e =>
    (reads_wrap e.reads compareLevel).chain_last op (by decide) (by decide)
      ((begins_wrap e.begins compareLevel).imp (by decide))
  | .more op e rest =>
    (reads_wrap e.reads compareLevel).chain_more op (by decide) (by decide)
      ((begins_wrap e.begins compareLevel).imp (by decide)) rest.reads

end

/-! ## The document -/

namespace Parse

section

variable {α : Type} {doc : Document} {s : State} {n k : Nat} {M : Node → Prop}

theorem countIteration_eq (h : s.iterations + 1 ≤ doc.limits.iterations) :
    countIteration doc s = .ok () s.charge := by
  show (if doc.limits.iterations < s.iterations + 1 then _ else _ : Parser Unit) doc _ = _
  rw [if_neg (by omega)]
  rfl

theorem whileHolds_false {condition : Parser Bool} {action : Parser Unit}
    (h : condition doc s = .ok false s) : whileHolds condition action doc s = .ok () s := by
  have hround : (do
      if ← condition then
        action
        return Round.again ()
      else return Round.finish () : Parser (Round Unit Unit)) doc s = .ok (.finish ()) s :=
    bind_of_eq h
  unfold whileHolds repeatRounds
  rw [bind_of_eq (show source doc s = .ok doc.text s from rfl),
    bind_of_eq (show position doc s = .ok s.pos s from rfl), rounds]
  exact bind_of_eq hround

/-- A parser that does not stop is not caught. -/
theorem Runs.catchLocal {p : Parser α} {Q : α → State → Prop} (h : Runs doc Never p s Q) :
    Runs doc Never (catchLocal p) s fun r s' => ∃ a, r = .ok a ∧ Q a s' := by
  unfold Runs at h ⊢
  unfold Parse.catchLocal
  split at h
  · rename_i a s' hp
    simp only [hp]
    exact ⟨a, rfl, h⟩
  · exact h.elim

/-- `= expr` and nothing after it. -/
theorem exprStatement_arrives {w : String} (h : Rest doc.text s.pos ("=" ++ (" " ++ w)))
    (hroom : s.tokens + 1 ≤ doc.limits.tokens)
    (hexpr : ∀ j, Rest doc.text j (" " ++ w) →
      Runs doc Never (expression (enterLevel n) 0) (s.reach j 1 0)
        (Arrives doc (s.reach j 1 0) k 0 "" M)) :
    Runs doc Never (exprStatement (enterLevel n) .equals) s (Arrives doc s (1 + k) 0 ""
      fun v => ∃ x, v.form = .exprStatement .equals x ∧ M x) := by
  have heq := spells_fixed (show Fixed "=" .equal by decide) (ended_space w)
  obtain ⟨j, hj, hbump⟩ := discard_bump_word heq (.inl h) hroom
  unfold exprStatement
  rw [runs_startOffset, runs_of_eq hbump]
  refine (hexpr j hj).bind ?_
  rintro x _ ⟨hx, i, hi, rfl⟩
  rw [runs_spanFrom, State.reach_reach]
  exact .pure ⟨⟨x, rfl, hx⟩, i, hi, rfl⟩

/-- A statement that ends the text is a command list by itself. -/
theorem andOr_arrives (hfirst : (s.ahead doc).kind = .equal)
    (h : Runs doc Never (exprStatement (enterLevel n) .equals) s (Arrives doc s k 0 "" M)) :
    Runs doc Never (andOr (enterLevel n)) s (Arrives doc s k 0 "" M) := by
  have hcommand : Runs doc Never (command (enterLevel n)) s (Arrives doc s k 0 "" M) := by
    unfold command
    rw [runs_startOffset, runs_currentKind, hfirst]
    exact h
  have hpipeline : Runs doc Never (pipeline (enterLevel n)) s (Arrives doc s k 0 "" M) := by
    unfold pipeline
    rw [runs_startOffset, runs_of_eq (eat_false (by rw [hfirst]; decide))]
    refine hcommand.bind ?_
    rintro v _ ⟨hv, j, hj, rfl⟩
    rw [runs_atKind, show ((s.reach j k 0).ahead doc).kind = .eof from hj.end_of_text]
    exact .pure ⟨hv, j, hj, rfl⟩
  have hpipelines : Runs doc Never (pipelines (enterLevel n)) s (Arrives doc s k 0 "" M) := by
    unfold pipelines
    rw [runs_startOffset]
    refine hpipeline.bind ?_
    rintro v _ ⟨hv, j, hj, rfl⟩
    rw [runs_currentKind, show ((s.reach j k 0).ahead doc).kind = .eof from hj.end_of_text]
    exact .pure ⟨hv, j, hj, rfl⟩
  unfold andOr
  rw [runs_startOffset]
  refine hpipelines.bind ?_
  rintro v _ ⟨hv, j, hj, rfl⟩
  have heof : ((s.reach j k 0).ahead doc).kind = .eof := hj.end_of_text
  rw [runs_of_eq (eat_false (by rw [heof]; decide))]
  exact .pure ⟨hv, j, hj, rfl⟩

/-- The end of the text separates. -/
theorem separated_end {stops : List StopAt} (v : Node) (h : (s.ahead doc).kind = .eof) :
    separated stops v doc s = .ok true s := by
  unfold separated
  split
  · rfl
  · rw [bind_of_eq (show currentKind doc s = .ok (s.ahead doc).kind s from rfl), h]
    rfl

/-- A round of the document that reads one expression, up to the end. -/
theorem statementRound_arrives (hfirst : (s.ahead doc).kind = .equal) (hbodies : s.bodies = [])
    (hiterations : s.iterations + 1 ≤ doc.limits.iterations)
    (h : Runs doc Never (andOr (enterLevel n)) s.charge (Arrives doc s.charge k 0 "" M))
    (hlt : s.pos < size doc.text) :
    Runs doc Never (statementRound (enterLevel n) [] false) s fun r s' =>
      r = .again () ∧ ∃ v j, M v ∧ Rest doc.text j "" ∧
        s' = (s.charge.reach j k 0).push v := by
  have hstart : (s.charge.ahead doc).kind = .equal := hfirst
  have hseparator : atSeparator doc s.charge = .ok false s.charge := by
    show EStateM.Result.ok ((s.charge.ahead doc).kind == .newline ||
      (s.charge.ahead doc).kind == .semi) s.charge = _
    rw [hstart]
    rfl
  unfold statementRound
  rw [runs_of_eq (countIteration_eq hiterations), runs_of_eq (whileHolds_false hseparator),
    runs_atKind, hstart, runs_of_eq (show atStop [] doc s.charge = .ok false s.charge from rfl),
    if_neg (by decide), runs_position, runs_startOffset, runs_get]
  refine h.catchLocal.bind ?_
  rintro _ _ ⟨v, rfl, hv, j, hj, rfl⟩
  have hmoved : ¬ ((s.charge.reach j k 0).pos == s.charge.pos) = true := by
    have hend : j = size doc.text := hj.add_size
    show ¬ (j == s.pos) = true
    simpa using by omega
  simp only
  rw [runs_position, if_neg hmoved]
  have hdrained : ((s.charge.reach j k 0).push v).drained = (s.charge.reach j k 0).push v :=
    drained_of_nil hbodies
  have hseparated : separated [] v doc ((s.charge.reach j k 0).push v) =
      .ok true ((s.charge.reach j k 0).push v) := separated_end v hj.end_of_text
  rw [runs_pushStatement, runs_of_eq drainHeredocs_eq, hdrained, Bool.false_and,
    if_neg Bool.false_ne_true, runs_of_eq hseparated]
  exact .pure ⟨rfl, v, j, hv, hj, rfl⟩

/-- The last round finds the end of the text. -/
theorem statementRound_end (hend : Rest doc.text s.pos "")
    (hiterations : s.iterations + 1 ≤ doc.limits.iterations) :
    Runs doc Never (statementRound (enterLevel n) [] false) s fun r s' =>
      r = .finish () ∧ s' = s.charge := by
  have heof : (s.charge.ahead doc).kind = .eof := hend.end_of_text
  have hseparator : atSeparator doc s.charge = .ok false s.charge := by
    show EStateM.Result.ok ((s.charge.ahead doc).kind == .newline ||
      (s.charge.ahead doc).kind == .semi) s.charge = _
    rw [heof]
    rfl
  unfold statementRound
  rw [runs_of_eq (countIteration_eq hiterations), runs_of_eq (whileHolds_false hseparator),
    runs_atKind, heof, runs_of_eq (show atStop [] doc s.charge = .ok false s.charge from rfl)]
  exact .pure ⟨rfl, rfl⟩

end

/-- A document of one expression is read up to its end. -/
theorem program_arrives {doc : Document} {k : Nat} {w : String} {M : Node → Prop}
    (htext : doc.text = "=" ++ (" " ++ w)) (hroom : 1 ≤ doc.limits.tokens)
    (hiterations : 2 ≤ doc.limits.iterations)
    (hexpr : ∀ j, Rest doc.text j (" " ++ w) →
      Runs doc Never (expression (enterLevel doc.limits.depth) 0) (State.initial.charge.reach j 1 0)
        (Arrives doc (State.initial.charge.reach j 1 0) k 0 "" M)) :
    Runs doc Never (program doc.limits) .initial fun _ s' =>
      s'.diagnostics = #[] ∧ s'.pending = [] ∧ ∃ v, s'.statements = #[v] ∧
        ∃ x, v.form = .exprStatement .equals x ∧ M x := by
  have hrest : Rest doc.text 0 ("=" ++ (" " ++ w)) := by
    rw [htext]
    exact rest_zero _
  have hstatement := exprStatement_arrives (s := State.initial.charge) hrest
    (show 0 + 1 ≤ doc.limits.tokens by omega) hexpr
  have hequal := spells_fixed (show Fixed "=" .equal by decide) (ended_space w)
  have hsees : (State.initial.ahead doc).Is doc.text "=" .equal (" " ++ w) :=
    sees_word (.inl hrest) hequal
  have hlt : 0 < size doc.text := by
    rw [htext, size_append]
    exact Nat.add_pos_left (by decide) _
  -- One round reads the statement, the next one finds the end.
  unfold program statementList
  refine Loops.repeatRounds (.step ?_)
  refine (statementRound_arrives hsees.kind rfl (show 0 + 1 ≤ doc.limits.iterations by omega)
    (andOr_arrives hsees.kind hstatement) hlt).imp ?_
  rintro _ _ ⟨rfl, v, j, hv, hj, rfl⟩
  have hend : j = size doc.text := hj.add_size
  refine ⟨⟨hj.le_size, .step ?_⟩, show 0 < j by omega⟩
  refine (statementRound_end (s := (State.initial.charge.reach j _ 0).push v) hj
    (show 1 + 1 ≤ doc.limits.iterations by omega)).imp ?_
  rintro _ _ ⟨rfl, rfl⟩
  exact ⟨rfl, rfl, v, rfl, hv⟩

/-- A document of one printed expression is read up to its end. -/
theorem program_print {doc : Document} (t : Expr) (htext : doc.text = "=" ++ (" " ++ t.print))
    (htokens : t.size < doc.limits.tokens) (hiterations : t.size < doc.limits.iterations)
    (hdepth : t.size < doc.limits.depth) (hchain : t.size < doc.limits.chain) :
    Runs doc Never (program doc.limits) .initial fun _ s' =>
      s'.diagnostics = #[] ∧ s'.pending = [] ∧ ∃ v, s'.statements = #[v] ∧
        ∃ x, v.form = .exprStatement .equals x ∧ t.Matches x := by
  have hpos := t.reads.pos
  have hroom : Room doc doc.limits.depth State.initial.charge (1 + t.size) :=
    ⟨show 0 + (1 + t.size) ≤ doc.limits.tokens by omega,
      show 0 + (1 + t.size) ≤ doc.limits.chain by omega,
      show 0 + doc.limits.depth ≤ doc.limits.depth by omega⟩
  refine program_arrives (k := t.size) htext (by omega) (by omega) fun j hj => ?_
  rw [← String.append_empty (s := t.print)] at hj
  exact t.reads.expression (Nat.zero_le _) (Nat.zero_le _) (.inr hj)
    (finds_end.closes_none ended_empty) (hroom.reach j (Nat.le_refl _) (Nat.zero_le 1))
    (Nat.le_of_lt hdepth)

end Parse

/-! ## Main result -/

/-- An expression that is printed after `= ` is read back as the same tree, without a diagnostic, if
every limit is larger than the number of its tokens. -/
theorem parseWith_print (t : Expr) (limits : Limits) (htokens : t.size < limits.tokens)
    (hiterations : t.size < limits.iterations) (hdepth : t.size < limits.depth)
    (hchain : t.size < limits.chain) :
    (parseWith limits ("= " ++ t.print)).diagnostics = [] ∧
      ∃ statement v, (parseWith limits ("= " ++ t.print)).statements = [statement] ∧
        statement.form = .exprStatement .equals v ∧ t.Matches v := by
  have htext : "= " ++ t.print = "=" ++ (" " ++ t.print) := by
    rw [← String.append_assoc]
    rfl
  have hruns : Runs ⟨"= " ++ t.print, limits⟩ Never (program limits) .initial _ :=
    Parse.program_print t htext htokens hiterations hdepth hchain
  unfold parseWith
  unfold Runs at hruns
  unfold run
  split at hruns
  · rename_i s hrun
    obtain ⟨hdiagnostics, hpending, statement, hstatements, v, hform, hv⟩ := hruns
    rw [hrun]
    refine ⟨?_, statement, v, ?_, hform, hv⟩
    · show Diagnostic.inSourceOrder (s.diagnostics.toList ++ pendingDiagnostics s) = []
      simp [pendingDiagnostics, hdiagnostics, hpending, Diagnostic.inSourceOrder]
    · show s.statements.toList = [statement]
      rw [hstatements]
  · exact hruns.elim

/-- An expression in which every kind of place occurs. -/
def mixedExpr : Expr :=
  let x : Expr := .var ⟨"x", by decide, by decide⟩
  let nothing : Expr := .var ⟨"nothing", by decide, by decide⟩
  .ternary
    (.range .exclusive (.range .plain (.int 0 (by decide)) x)
      (.binary .pow (.binary .pow (.unary .neg x) (.int 2 (by decide))) (.unary .bitNot nothing)))
    (.compare (.unary .not x)
      (.more .is nothing (.more .is (.unary .not nothing) (.last .notIn
        (.compare x (.last .lessEq (.int 9223372036854775807 (by decide))))))))
    (.ternary x (.binary .or (.unary .not (.binary .and x nothing)) (.range .inclusive x nothing))
      (.binary .sub x (.binary .sub x (.binary .mul nothing x))))

theorem parseWith_print_mixed :
    mixedExpr.print =
      "0 .. x ..< ((- x) ** 2) ** (~ nothing) if " ++
      "(not x) is nothing is (not nothing) not in (x <= 9223372036854775807) else x if " ++
      "not (x and nothing) or (x ..= nothing) else x - (x - nothing * x)" ∧
    mixedExpr.size < 64 ∧ (parseWith {} ("= " ++ mixedExpr.print)).diagnostics = [] ∧
      ∃ statement v, (parseWith {} ("= " ++ mixedExpr.print)).statements = [statement] ∧
        statement.form = .exprStatement .equals v ∧ mixedExpr.Matches v :=
  ⟨by decide +kernel, by decide,
    parseWith_print mixedExpr {} (by decide) (by decide) (by decide) (by decide)⟩

end ShellAnalysis
