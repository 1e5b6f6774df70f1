import ShellAnalysis.Proofs.Accounts.Commands
import ShellAnalysis.Proofs.Built.Control

/-!
# Accounts of control flow

A block is made over statements that were read before it, and takes no token of
its own.  A block argument that is taken off the last command of a condition is
accounted for as the body (`Accounts.takeLastBlock`).
-/

namespace ShellAnalysis.Parse

open Text Node

section

variable {doc : Document} {s s₀ s₁ : State} {xs xs' ys : List Node} {k : Node} {i : Nat}
  {inner : Grammar}

/-! ## Conditions and bodies -/

/-- Statements put into a block. -/
theorem Accounts.block (h : Accounts doc s₀ (xs ++ ys) s)
    (hi : Quiet doc s₀ s → s₀.pos ≤ i ∧ i ≤ s.front doc) :
    Accounts doc s₀ (blockOf xs i :: ys) s := by
  refine { h with explained := ?_, drift := fun q => ?_ }
  · have herrors : (blockOf xs i).errors = errorsIn xs := errors_of_form (make_form _ _) rfl
    rw [errorsIn_cons, herrors, ← errorsIn_append]
    exact h.explained
  · have hd := h.drift q
    obtain ⟨hxs, hys⟩ := List.forall_mem_append.1 hd.lies
    refine { hd with lies := List.forall_mem_cons.2 ⟨?_, hys⟩ }
    have hcover : s₀.pos ≤ (coverAll xs i).start ∧ (coverAll xs i).stop ≤ s.front doc := by
      unfold coverAll
      split
      · rename_i first last hfirst hlast
        have hfirst := hxs first (List.mem_of_head? hfirst)
        have hlast := hxs last (List.mem_of_getLast? hlast)
        rw [start_cover, stop_cover]
        exact ⟨Nat.le_min.2 ⟨hfirst.start, hlast.start⟩, Nat.max_le.2 ⟨hfirst.stop, hlast.stop⟩⟩
      · exact hi q
    exact lies_make hxs hcover.1 hcover.2 (packed_of_isOrdinary rfl)

theorem Accounts.takeLastBlock (h : Accounts doc s₀ xs s)
    (htake : takeLastBlock? xs = some (some (xs', k))) : Accounts doc s₀ (xs' ++ [k]) s :=
  { h with
    explained := errors_takeLastBlock htake ▸ h.explained
    drift := fun q =>
      { h.drift q with lies := Lies.takeLastBlock (h.drift q).lies htake } }

theorem blockUntil_gathers (hinner : inner.Honest doc) (stops : List StopAt) :
    Gathers doc (blockUntil inner stops) s fun v => [v] := by
  refine fun ht => (hinner.statements stops false s ht).bind fun body s₁ h₁ => ?_
  refine runs_position.2 (.pure (Accounts.block ((List.append_nil body).symm ▸ h₁) fun q => ?_))
  exact ⟨(h₁.drift q).le, (h₁.drift q).neat.pos_le_front⟩

/-- The condition and the body of an arm. -/
def Arm.nodes (arm : Arm) : List Node := [arm.condition, arm.body]

theorem conditionalArm_gathers {keyword : String} {conditionStops bodyStops : List StopAt}
    (hinner : inner.Honest doc) :
    Gathers doc (conditionalArm inner keyword conditionStops bodyStops) s Arm.nodes := by
  refine fun ht => runs_atKind.2 ?_
  split
  · refine (parenExpr_gathers hinner ht).bind fun condition s₁ h₁ => ?_
    exact h₁.take (definitionBody_gathers hinner) fun body s₂ h₂ => .pure h₂
  refine runs_position.2 ?_
  refine (hinner.statements conditionStops true s ht).bind fun commands s₁ h₁ => ?_
  refine h₁.step fun found s₂ h₂ => ?_
  have hi : Quiet doc s s₂ → s.pos ≤ s.pos ∧ s.pos ≤ s₂.front doc := fun q =>
    ⟨Nat.le_refl _, Nat.le_trans (h₂.drift q).le (h₂.drift q).neat.pos_le_front⟩
  have hcondition : Accounts doc s [blockOf commands s.pos] s₂ :=
    Accounts.block ((List.append_nil commands).symm ▸ h₂) hi
  split
  · exact hcondition.take (blockUntil_gathers hinner bodyStops) fun body s₃ h₃ => .pure h₃
  refine h₂.bind (orFault_answers _ h₂.tidy) ?_
  rintro taken _ ⟨htake, rfl⟩
  cases taken with
  | some p => exact .pure ((h₂.takeLastBlock htake).block hi)
  | none => exact hcondition.take (missing_gathers _) fun body s₃ h₃ => .pure h₃

instance (braced : Bool) (word : String) : Silent (closeBody braced word) := by
  unfold closeBody
  infer_instance

/-! ## if -/

theorem elifArm_gathers (hinner : inner.Honest doc) :
    Gathers doc (elifArm inner) s fun v => [v] := by
  refine fun ht => runs_startOffset.2 ((Accounts.refl ht).step fun _ s₁ h₁ => ?_)
  refine h₁.take (conditionalArm_gathers hinner) fun arm s₂ h₂ => runs_spanFrom.2 (.pure ?_)
  exact h₂.make (f := .elifArm arm.condition arm.body) rfl

theorem elsePart_gathers (hinner : inner.Honest doc) (braced : Bool) :
    Gathers doc (elsePart inner braced) s Option.toList := by
  refine fun ht => (Accounts.refl ht).step fun found s₁ h₁ => ?_
  split
  · split
    · exact h₁.last ((definitionBody_gathers hinner).present h₁.tidy) fun _ _ h => h₁.trans h
    · exact h₁.last ((blockUntil_gathers hinner _).present h₁.tidy) fun _ _ h => h₁.trans h
  · exact .pure h₁

/-- The parser reads the parts of a construct. -/
abbrev Composes (doc : Document) (p : Parser (Form Node)) (s : State) : Prop :=
  Answers doc s p s (Assembles doc s)

theorem ifForm_composes (hinner : inner.Honest doc) (ht : s.Tidy) :
    Composes doc (ifForm inner) s := by
  refine (conditionalArm_gathers hinner ht).bind fun arm s₁ h₁ => ?_
  refine h₁.take (.manyWhile (atKeyword_looks _) fun _ _ => elifArm_gathers hinner)
    fun elifs s₂ h₂ => ?_
  refine h₂.take (elsePart_gathers hinner arm.braced) fun body? s₃ h₃ => ?_
  exact h₃.step fun _ s₄ h₄ => .pure (h₄.assembles rfl)

/-! ## Loops -/

theorem whileForm_composes (hinner : inner.Honest doc) (negated : Bool) (ht : s.Tidy) :
    Composes doc (whileForm negated inner) s := by
  refine (conditionalArm_gathers hinner ht).bind fun arm s₁ h₁ => ?_
  exact h₁.step fun _ s₂ h₂ => .pure (h₂.assembles rfl)

theorem loopVariables_picks : Picks doc loopVariables s id := by
  refine fun ht => Mentions.loop Array.toList (Accounts.refl ht).nameless fun names s₁ h₁ =>
    h₁.read (identName_picks _) fun name s₂ h₂ => ?_
  split
  · exact .pure (h₂.among (List.subset_append_left _ _))
  rw [← Array.toList_push] at h₂
  refine h₂.step fun comma s₃ h₃ => ?_
  split
  · exact .pure h₃
  · exact .pure h₃

theorem loopIterable_gathers (hinner : inner.Honest doc) :
    Gathers doc (loopIterable inner) s fun r => r.2 := by
  refine fun ht => (Accounts.refl ht).step fun found s₁ h₁ => ?_
  split
  · exact .pure h₁
  refine h₁.step fun paren s₂ h₂ => ?_
  split
  · exact h₂.take (parenExpr_gathers hinner) fun v _ h₃ => .pure h₃
  · exact h₂.take (.manyWhile loopWord_looks fun s' _ => hinner.word s') fun _ _ h₃ => .pure h₃

theorem forBody_gathers (hinner : inner.Honest doc) :
    Gathers doc (forBody inner) s fun v => [v] := by
  refine fun ht => (Accounts.refl ht).step fun brace s₁ h₁ => ?_
  split
  · exact h₁.last (hinner.block s₁ h₁.tidy) fun _ _ h => h₁.trans h
  refine h₁.step fun _ s₂ h₂ => h₂.step fun found s₃ h₃ => ?_
  split
  · refine h₃.take (blockUntil_gathers hinner _) fun v s₄ h₄ => h₄.step fun _ _ h₅ => .pure h₅
  · exact h₃.last (missing_gathers _ h₃.tidy) fun _ _ h => h₃.trans h

theorem forForm_composes (hinner : inner.Honest doc) (ht : s.Tidy) :
    Composes doc (forForm inner) s := by
  refine (loopVariables_picks ht).bind fun vars s₁ h₁ => ?_
  refine h₁.take (loopIterable_gathers hinner) fun r s₂ h₂ => ?_
  exact h₂.take (forBody_gathers hinner) fun body s₃ h₃ => .pure ⟨h₃, rfl⟩

/-! ## case -/

theorem bracedPattern?_gathers (hinner : inner.Honest doc) :
    Gathers doc (bracedPattern? inner) s Option.toList := by
  refine fun ht => runs_currentKind.2 ?_
  split
  · exact (parenExpr_gathers hinner).present ht
  · exact regexLiteral_gathers.present ht
  · refine (Accounts.refl ht).step fun word s₁ h₁ => ?_
    split
    · exact h₁.last ((hinner.word s₁).present h₁.tidy) fun _ _ h => h₁.trans h
    · exact .pure h₁

theorem bracedPatterns_gathers (hinner : inner.Honest doc) :
    Gathers doc (bracedPatterns inner) s id := by
  refine fun ht => .loop Array.toList (.refl ht) fun patterns s₁ h₁ => ?_
  refine h₁.bind (bracedPattern?_gathers hinner h₁.tidy) fun pattern? s₂ h₂ => ?_
  cases pattern? with
  | none => exact .pure (h₁.then h₂)
  | some pattern =>
    refine (h₁.push h₂).step fun bar s₃ h₃ => ?_
    split
    · exact .pure h₃
    · exact .pure h₃

theorem wordPatterns_gathers (hinner : inner.Honest doc) :
    Gathers doc (wordPatterns inner) s id := by
  refine fun ht => .loop Array.toList (.refl ht) fun patterns s₁ h₁ => h₁.step fun word s₂ h₂ => ?_
  split
  · exact .pure h₂
  · refine h₂.bind (hinner.word s₂ h₂.tidy) fun v s₃ h₃ => (h₂.push h₃).step fun bar s₄ h₄ => ?_
    split
    · exact .pure h₄
    · exact .pure h₄

theorem bracedArmRound_answers {arms : Array Node} (hinner : inner.Honest doc)
    (h : Accounts doc s₀ arms.toList s) :
    Answers doc s₀ (bracedArmRound inner arms) s (NodeRound doc s₀) := by
  refine h.step fun _ s₁ h₁ => h₁.step fun _ s₂ h₂ => h₂.step fun kind s₃ h₃ => ?_
  split
  · exact .pure h₃
  refine runs_startOffset.2 (runs_position.2 ?_)
  refine h₃.bind (bracedPatterns_gathers hinner h₃.tidy) fun patterns s₄ h₄ => runs_position.2 ?_
  split
  · have h₅ := (h₃.trans h₄).drop
    exact h₅.bind (forceAdvance_gathers _ h₅.tidy) fun v _ hv => .pure (h₅.push hv)
  · refine (h₃.trans h₄).bind (definitionBody_gathers hinner h₄.tidy) fun body s₅ h₅ => ?_
    refine runs_spanFrom.2 (.pure (h₃.push ?_))
    exact (h₄.trans h₅).make (f := .caseArm patterns body) rfl

theorem wordArmRound_answers {arms : Array Node} (hinner : inner.Honest doc)
    (h : Accounts doc s₀ arms.toList s) :
    Answers doc s₀ (wordArmRound inner arms) s (NodeRound doc s₀) := by
  refine h.step fun _ s₁ h₁ => h₁.step fun _ s₂ h₂ => h₂.step fun eof s₃ h₃ =>
    h₃.step fun esac s₄ h₄ => h₄.step fun brace s₅ h₅ => ?_
  split
  · exact .pure h₅
  refine runs_startOffset.2 (runs_position.2 ?_)
  refine h₅.bind (Silent.silent doc s₅ h₅.tidy) fun _ s₆ h₆ => ?_
  refine (h₅.then h₆).bind (wordPatterns_gathers hinner h₆.tidy) fun patterns s₇ h₇ => ?_
  refine runs_position.2 ?_
  split
  · have h₈ := ((h₅.then h₆).trans h₇).drop
    exact h₈.bind (forceAdvance_gathers _ h₈.tidy) fun v _ hv => .pure (h₈.push hv)
  · have harm := h₆.trans h₇
    refine (h₅.trans harm).bind (expect_answers _ _ harm.tidy) fun _ s₈ h₈ => ?_
    have harm := harm.then h₈.toAccounts
    refine (h₅.trans harm).bind (blockUntil_gathers hinner _ harm.tidy) fun body s₉ h₉ => ?_
    have harm := harm.trans h₉
    refine (h₅.trans harm).bind (Silent.silent doc s₉ harm.tidy) fun _ s₁₀ h₁₀ => ?_
    refine runs_spanFrom.2 (.pure (h₅.push ?_))
    exact (harm.then h₁₀).make (f := .caseArm patterns body) rfl

/-- A `case` over its arms. -/
theorem bracedCase_composes (hinner : inner.Honest doc) (ht : s.Tidy) :
    Composes doc (bracedCase inner) s := by
  refine (parenExpr_gathers hinner ht).bind fun subject s₁ h₁ => h₁.step fun brace s₂ h₂ => ?_
  split
  · refine h₂.take (fun ht₂ => .loop Array.toList (.refl ht₂)
      fun arms s' h => bracedArmRound_answers hinner h) fun arms s₃ h₃ => ?_
    exact h₃.step fun _ s₄ h₄ => .pure (h₄.assembles rfl)
  · exact h₂.step fun _ s₃ h₃ => .pure (h₃.assembles rfl)

theorem wordSubject_gathers (hinner : inner.Honest doc) :
    Gathers doc (wordSubject inner) s fun v => [v] := by
  refine fun ht => (Accounts.refl ht).step fun word s₁ h₁ => ?_
  split
  · exact h₁.last (hinner.word s₁ h₁.tidy) fun _ _ h => h₁.trans h
  · exact h₁.last (missing_gathers _ h₁.tidy) fun _ _ h => h₁.trans h

theorem wordCase_composes (hinner : inner.Honest doc) (ht : s.Tidy) :
    Composes doc (wordCase inner) s := by
  refine (wordSubject_gathers hinner ht).bind fun subject s₁ h₁ => h₁.step fun _ s₂ h₂ => ?_
  refine h₂.step fun _ s₃ h₃ => ?_
  refine h₃.take (fun ht₃ => .loop Array.toList (.refl ht₃)
    fun arms s' h => wordArmRound_answers hinner h) fun arms s₄ h₄ => ?_
  exact h₄.step fun _ s₅ h₅ => .pure (h₅.assembles rfl)

theorem caseForm_composes (hinner : inner.Honest doc) (ht : s.Tidy) :
    Composes doc (caseForm inner) s := by
  refine runs_atKind.2 ?_
  split
  · exact bracedCase_composes hinner ht
  · exact wordCase_composes hinner ht

end

end ShellAnalysis.Parse
