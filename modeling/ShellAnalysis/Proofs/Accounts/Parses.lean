import ShellAnalysis.Proofs.Accounts.Statements
import ShellAnalysis.Proofs.Built.Parses

/-!
# Parsed trees are accounted for

However reading ends, the error nodes in the tree are no more than the errors
that were reported (`parseWith_explained`): what a limit on the whole document
leaves unread is one error node and one report.

If the text has no heredoc and nothing was reported, reading ended at the end of
the text and all of it was a quiet way.  So the parts of a word, and of a string
between its quotes, lie end to end, and what stands under them put together is
what stands under the whole (`parseWith_packed`):

    slice? text v.start v.stop = some (pieces text parts)      (Tiles.slice?)

Nor does a name in such a text reach out of the node that mentions it
(`walk_packed`, `Packed.names`).
-/

namespace ShellAnalysis.Parse

open Text Node Lexer

/-! ## Pieces end to end -/

/-- What stands in the text under the nodes, put together. -/
def pieces (text : String) (xs : List Node) : String :=
  String.join (xs.map fun v => slice text v.start v.stop)

section

variable {text : String} {xs : List Node} {i j : Nat}

theorem Tiles.pieces_eq (h : Tiles i xs j) (hi : Boundary text i)
    (hxs : ∀ x ∈ xs, Cut text x.span) :
    Boundary text j ∧ pieces text xs = slice text i j := by
  induction xs generalizing i with
  | nil =>
    obtain rfl : i = j := h
    exact ⟨hi, (slice_self text i).symm⟩
  | cons x xs ih =>
    obtain ⟨hstart, htiles⟩ := h
    obtain ⟨hx, hxs⟩ := List.forall_mem_cons.1 hxs
    obtain ⟨hj, heq⟩ := ih htiles hx.2 hxs
    refine ⟨hj, ?_⟩
    rw [pieces, List.map_cons, String.join_cons]
    rw [pieces] at heq
    subst hstart
    rw [heq]
    exact slice_append x.start_le_stop htiles.le hx.1 hx.2 hj

/-- Nodes that lie end to end hold the piece of the text between their ends. -/
theorem Tiles.slice? (h : Tiles i xs j) (hi : Boundary text i) (hxs : ∀ x ∈ xs, Cut text x.span) :
    slice? text i j = some (pieces text xs) := by
  obtain ⟨hj, heq⟩ := h.pieces_eq hi hxs
  rw [heq]
  exact slice?_eq_some h.le hi hj

end

/-! ## The last state -/

section

variable {text : String} {limits : Limits} {v : Node}

/-- A document accounts for its statements. -/
theorem program_answers (text : String) (limits : Limits) :
    Runs ⟨text, limits⟩ (fun _ => Carries .initial) (program limits) .initial
      fun _ => Lists ⟨text, limits⟩ .initial :=
  statementList_answers (deepens_level limits.depth) (lists_nil nofun rfl)

theorem lastState_carries (text : String) (limits : Limits) :
    Carries State.initial (lastState (run text limits)) := by
  have hruns := program_answers text limits
  unfold Runs at hruns
  unfold run
  split at hruns
  · rename_i s hrun
    rw [hrun]
    exact hruns.carries
  · rename_i e s hrun
    rw [hrun]
    exact hruns

theorem lists_of_run {s : State} (hrun : run text limits = .ok () s) :
    Lists ⟨text, limits⟩ .initial s := by
  have hruns := program_answers text limits
  unfold Runs at hruns
  unfold run at hrun
  rw [hrun] at hruns
  exact hruns

/-! ## Error nodes -/

theorem countP_inSourceOrder (p : Diagnostic → Bool) (ds : List Diagnostic) :
    (Diagnostic.inSourceOrder ds).countP p = ds.countP p :=
  (List.mergeSort_perm _ _).countP_eq p

theorem errors_programNode (xs : List Node) : (programNode text xs).errors = errorsIn xs :=
  errors_of_form (make_form _ _) rfl

/-- What a limit on the whole document leaves unread is one error node more, and one report more. -/
theorem conclude_explained {r : EStateM.Result Stopped State Unit}
    (hr : errorsIn (lastState r).statements.toList ≤ (lastState r).errors) :
    (conclude text r).root.errors ≤ (conclude text r).diagnostics.countP Diagnostic.isError := by
  rw [conclude_root, errors_programNode]
  rcases r with ⟨_, s⟩ | ⟨error | _, s⟩
  · simp only [conclude, countP_inSourceOrder, List.countP_append]
    exact Nat.le_trans hr (Nat.le_add_right _ _)
  · have hr : errorsIn s.statements.toList ≤ s.errors := hr
    simp only [conclude, countP_inSourceOrder, List.countP_append]
    show _ ≤ s.errors + 1
    unfold concludedStatements
    simp only
    split
    · omega
    · rw [errorsIn_append, errorsIn_cons, errors_error, errorsIn_nil]
      omega
  · exact Nat.zero_le _

/-! ## Quiet parses -/

/-- Where nothing is reported, reading ended at the end of the text and reported nothing. -/
theorem run_of_quiet (hquiet : (parseWith limits text).diagnostics = []) :
    ∃ s, run text limits = .ok () s ∧ s.errors = 0 := by
  have hcount := congrArg (List.countP Diagnostic.isError) hquiet
  rw [parseWith] at hcount
  rcases hrun : run text limits with ⟨_, s⟩ | ⟨error | _, s⟩
  · rw [hrun] at hcount
    simp only [conclude, countP_inSourceOrder, List.countP_append] at hcount
    exact ⟨s, rfl, Nat.eq_zero_of_add_eq_zero_right hcount⟩
  · rw [hrun] at hcount
    simp only [conclude, countP_inSourceOrder, List.countP_append] at hcount
    cases (Nat.eq_zero_of_add_eq_zero_left hcount : (0 + 1) = 0)
  · rw [hrun] at hcount
    cases hcount

/-- All of a text without heredocs of which nothing is reported was read on a quiet way. -/
theorem walk_packed (hlacks : ∀ i, hasPiece text i "<<" = false)
    (hquiet : (parseWith limits text).diagnostics = []) :
    ∀ v ∈ (parseWith limits text).root.walk, v.Packed text := by
  obtain ⟨s, hrun, herrors⟩ := run_of_quiet hquiet
  have hneat : Neat ⟨text, limits⟩ State.initial := ⟨boundary_zero text, rfl, rfl⟩
  have hdrift := (lists_of_run hrun).drift ⟨hlacks, hneat, herrors⟩
  intro v hv
  rw [root_eq] at hv
  rcases mem_walk.1 hv with rfl | ⟨x, hx, hv⟩
  · exact packed_of_isOrdinary rfl
  · have hx : x ∈ s.statements.toList := by
      rwa [Node.form, Form.children, statements_eq, hrun] at hx
    exact ((hdrift.lies x hx).snug.walk v hv).packed

/-- A text without `piece` lacks it wherever it is long enough to hold it. -/
theorem lacks_of_forall_lt {piece : String} (hpiece : 0 < size piece)
    (h : ∀ i < size text, hasPiece text i piece = false) : ∀ i, hasPiece text i piece = false := by
  intro i
  rcases Nat.lt_or_ge i (size text) with hlt | hge
  · exact h i hlt
  · rw [Bool.eq_false_iff]
    intro hhas
    have := lt_size_of_hasPiece hhas hpiece
    omega

end

/-! ## Main results -/

/-- Every error node was reported: there are no more of them in the whole tree than errors among the
diagnostics, and none at all where no error is reported. -/
theorem parseWith_explained (text : String) (limits : Limits) :
    (parseWith limits text).root.walk.countP Node.isError ≤
      (parseWith limits text).diagnostics.countP Diagnostic.isError ∧
    ((parseWith limits text).hasErrors = false →
      ∀ v ∈ (parseWith limits text).root.walk, v.isError = false) := by
  have hle : (parseWith limits text).root.walk.countP Node.isError ≤
      (parseWith limits text).diagnostics.countP Diagnostic.isError :=
    conclude_explained (lastState_carries text limits).explained
  refine ⟨hle, fun hclean v hv => ?_⟩
  have hnone : (parseWith limits text).diagnostics.countP Diagnostic.isError = 0 :=
    List.countP_eq_zero.2 (List.any_eq_false.1 hclean)
  rw [hnone, Nat.le_zero, List.countP_eq_zero] at hle
  exact Bool.eq_false_iff.2 (hle v hv)

/-- A script without errors. -/
theorem parseWith_explained_script :
    ∀ v ∈ (parseWith {} "echo $x").root.walk, v.isError = false :=
  (parseWith_explained "echo $x" {}).2 (by decide +kernel)

/-- In a text without heredocs of which nothing is reported, the parts of a word lie end to end from
its start to its end, and those of a string from the end of the token that opens it to the quote
that closes it.  What stands under them put together is the word, and the content of the string. -/
theorem parseWith_packed (text : String) (limits : Limits)
    (hlacks : ∀ i, hasPiece text i "<<" = false)
    (hquiet : (parseWith limits text).diagnostics = []) :
    ∀ v ∈ (parseWith limits text).root.walk,
      (∀ parts, v.form = .word parts →
        parts ≠ [] ∧ Tiles v.start parts v.stop ∧
          slice? text v.start v.stop = some (pieces text parts)) ∧
      (∀ style parts, v.form = .stringLit style parts →
        ∃ close, Quoted text v.span style parts close ∧
          slice? text (tokenAt text v.start).span.stop close = some (pieces text parts)) := by
  intro v hv
  have hcut := walk_cut hv
  have hpacked := walk_packed hlacks hquiet v hv
  have hparts : ∀ c ∈ v.form.children, Cut text c.span :=
    fun c hc => walk_cut (mem_walk_of_child hv hc)
  refine ⟨fun parts hform => ?_, fun style parts hform => ?_⟩
  · have htiles : Tiles v.start parts v.stop := by rwa [Packed, hform] at hpacked
    have hne : parts ≠ [] := by
      have hshaped := (walk_fine hv).shaped
      rwa [hform] at hshaped
    rw [hform] at hparts
    exact ⟨hne, htiles, htiles.slice? hcut.1 hparts⟩
  · have hquoted : ∃ close, Quoted text v.span style parts close := by
      rwa [Packed, hform] at hpacked
    obtain ⟨close, hquoted⟩ := hquoted
    rw [hform] at hparts
    have hopen : Boundary text (tokenAt text v.start).span.stop :=
      (tokenAt_spec hcut.1.le_size).cut.2
    exact ⟨close, hquoted, hquoted.tiles.slice? hopen hparts⟩

/-- A script with a string inside of a word. -/
theorem parseWith_packed_script :
    ∃ v ∈ (parseWith {} "echo a\"b$x\"c").root.walk, ∃ parts, v.form = .word parts ∧
      slice? "echo a\"b$x\"c" v.start v.stop = some (pieces "echo a\"b$x\"c" parts) ∧
      ∃ w ∈ parts, ∃ style inner close, w.form = .stringLit style inner ∧ 1 < inner.length ∧
        Quoted "echo a\"b$x\"c" w.span style inner close := by
  have hany : (parseWith {} "echo a\"b$x\"c").statements.any (·.form.children.any
      (·.wordParts.any fun w => decide (1 < w.stringParts.length))) = true := by decide +kernel
  have hlacks : ∀ i, hasPiece "echo a\"b$x\"c" i "<<" = false :=
    lacks_of_forall_lt (by decide) (by decide)
  have hpacked := parseWith_packed "echo a\"b$x\"c" {} hlacks (by decide +kernel)
  obtain ⟨x, hx, hany⟩ := List.any_eq_true.1 hany
  obtain ⟨v, hv, hany⟩ := List.any_eq_true.1 hany
  obtain ⟨w, hw, hany⟩ := List.any_eq_true.1 hany
  have htwo := of_decide_eq_true hany
  have hword := form_of_mem_wordParts hw
  have hne : w.stringParts ≠ [] := List.ne_nil_of_length_pos (Nat.lt_of_succ_lt htwo)
  obtain ⟨style, hstring⟩ := form_of_stringParts hne
  have hv := mem_walk_of_child (mem_walk_of_mem_statements hx (mem_walk_self x)) hv
  have hw' := mem_walk_of_child hv (show w ∈ v.form.children from hword ▸ hw)
  obtain ⟨close, hquoted, -⟩ := (hpacked w hw').2 style w.stringParts hstring
  exact ⟨v, hv, v.wordParts, hword, ((hpacked v hv).1 v.wordParts hword).2.2, w, hw, style,
    w.stringParts, close, hstring, htwo, hquoted⟩

end ShellAnalysis.Parse
