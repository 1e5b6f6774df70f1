import ShellAnalysis.Proofs.Built.Commands

/-!
# Control flow that is built

Every construct of control flow is a compound command, and a `for` over an
expression goes over that one.  The block argument that is taken off a condition
becomes the body.
-/

namespace ShellAnalysis.Parse

open Text Node

section

variable {doc : Document} {s : State} {h : Nat} {enter : Parser Grammar} {inner : Grammar}

/-! ## Conditions and bodies -/

theorem built_blockOf {xs : List Node} {i : Nat} (hxs : AllBuilt doc.text h xs) :
    Built doc.text (h + 1) (blockOf xs i) := built_make hxs rfl trivial rfl

theorem blockUntil_gives (hinner : Grammar.Builds doc h inner) (stops : List StopAt) :
    Gives doc (blockUntil inner stops) s (Built doc.text (h + 1)) :=
  (hinner.statements stops false s).bind fun _ _ hbody => .step fun _ _ =>
    .pure (built_blockOf hbody)

theorem conditionalArm_gives {keyword : String} {conditionStops bodyStops : List StopAt}
    (hinner : Grammar.Builds doc h inner) :
    Gives doc (conditionalArm inner keyword conditionStops bodyStops) s fun arm =>
      Built doc.text (h + 1) arm.condition ∧ Built doc.text (h + 1) arm.body := by
  refine .step fun paren s₁ => ?_
  split
  · refine (parenExpr_gives hinner).bind fun condition s₂ hcondition => ?_
    refine (definitionBody_gives hinner).bind fun body _ hbody => .pure ?_
    exact ⟨hcondition.mono (Nat.le_succ h), hbody.mono (Nat.le_succ h)⟩
  refine .step fun start s₂ => ?_
  refine (hinner.statements conditionStops true s₂).bind fun commands s₃ hcommands => ?_
  refine .step fun found s₄ => ?_
  split
  · refine (blockUntil_gives hinner bodyStops).bind fun body _ hbody => .pure ?_
    exact ⟨built_blockOf hcommands, hbody⟩
  refine (orFault_gives _).bind fun taken s₅ htake => ?_
  split
  · obtain ⟨hrest, hbody⟩ := Built.takeLastBlock hcommands htake
    exact .pure ⟨built_blockOf hrest, hbody.mono (Nat.le_succ h)⟩
  · refine (missing_gives _ (Nat.succ_pos h)).bind fun body _ hbody => .pure ?_
    exact ⟨built_blockOf hcommands, hbody⟩

instance (braced : Bool) (word : String) : Tame (closeBody braced word) := by
  unfold closeBody
  infer_instance

/-! ## if -/

theorem elifArm_gives (hinner : Grammar.Builds doc h inner) :
    Gives doc (elifArm inner) s (Built doc.text (h + 2)) := by
  refine .step fun start s₁ => .step fun _ s₂ => ?_
  refine (conditionalArm_gives hinner).bind fun arm s₃ harm => .step fun span _ => .pure ?_
  exact built_make (List.forall_mem_cons.2 ⟨harm.1, List.forall_mem_singleton.2 harm.2⟩) rfl
    trivial rfl

theorem elsePart_gives (hinner : Grammar.Builds doc h inner) (braced : Bool) :
    Gives doc (elsePart inner braced) s fun body? => AllBuilt doc.text (h + 1) body?.toList := by
  refine .step fun found s₁ => ?_
  split
  · split
    · exact .present ((definitionBody_gives hinner).imp fun _ hv => hv.mono (Nat.le_succ h))
    · exact .present (blockUntil_gives hinner _)
  · exact .pure nofun

/-- What a construct of control flow is made from. -/
abbrev Controls (text : String) (h : Nat) (form : Form Node) : Prop :=
  Raises text h form ∧ form.isCompound = true

theorem ifForm_gives (hinner : Grammar.Builds doc h inner) :
    Gives doc (ifForm inner) s (Controls doc.text (h + 3)) := by
  refine (conditionalArm_gives hinner).bind fun arm s₁ harm => ?_
  refine (Turns.manyWhile (atKeyword_looks _) fun _ _ => elifArm_gives hinner).bind
    fun elifs s₂ helifs => ?_
  refine (elsePart_gives hinner arm.braced).bind fun body? s₃ hbody => .step fun _ _ => ?_
  refine .pure ⟨fun span => built_make ?_ rfl trivial rfl, rfl⟩
  refine List.forall_mem_cons.2 ⟨harm.1.mono (Nat.le_succ _), List.forall_mem_append.2 ⟨?_, ?_⟩⟩
  · exact List.forall_mem_cons.2 ⟨harm.2.mono (Nat.le_succ _), helifs.1⟩
  · exact fun c hc => (hbody c hc).mono (Nat.le_succ _)

/-! ## Loops -/

theorem whileForm_gives (hinner : Grammar.Builds doc h inner) (negated : Bool) :
    Gives doc (whileForm negated inner) s (Controls doc.text (h + 2)) := by
  refine (conditionalArm_gives hinner).bind fun arm s₁ harm => .step fun _ _ => ?_
  refine .pure ⟨fun span => built_make ?_ rfl trivial rfl, rfl⟩
  exact List.forall_mem_cons.2 ⟨harm.1, List.forall_mem_singleton.2 harm.2⟩

theorem loopVariables_gives :
    Gives doc loopVariables s fun names =>
      ∀ name ∈ names, name.text ≠ "" ∧ name.Traced doc.text := by
  refine .loop (fun names => ∀ name ∈ names.toList, name.text ≠ "" ∧ name.Traced doc.text) nofun
    fun names s₁ hnames => (identName_gives _).bind fun name s₂ hname => ?_
  split
  · exact .pure hnames
  rename_i hne
  have hpush := forall_mem_push hnames ⟨by simpa using hne, hname⟩
  refine .step fun comma s₃ => ?_
  split
  · exact .pure hpush
  · exact .pure hpush

/-- A word of a `for` that is not the keyword after its words. -/
theorem loopWord_looks : Looks (do return (← atWord) && !(← atKeyword "do") : Parser Bool) :=
  .bind atWord_looks fun _ => .bind (atKeyword_looks _) fun _ => .pure _

theorem loopWord_true
    (hat : (do return (← atWord) && !(← atKeyword "do") : Parser Bool) doc s = .ok true s) :
    (s.ahead doc).kind ≠ .eof := by
  have hrun : Runs doc (fun _ _ => False) (do return (← atWord) && !(← atKeyword "do")) s
      fun b _ => b = true → (s.ahead doc).kind ≠ .eof := by
    refine .look atWord_looks fun b hb => .look (atKeyword_looks _) fun c _ => .pure fun h => ?_
    rw [(Bool.and_eq_true_iff.1 h).1] at hb
    exact atWord_true hb
  exact hrun.of_ok hat rfl

theorem loopIterable_gives (hinner : Grammar.Builds doc h inner) :
    Gives doc (loopIterable inner) s fun r =>
      AllBuilt doc.text h r.2 ∧ (r.1 = .expr → r.2.length = 1) := by
  refine .step fun found s₁ => ?_
  split
  · exact .pure ⟨nofun, nofun⟩
  refine .step fun paren s₂ => ?_
  split
  · refine (parenExpr_gives hinner).bind fun v _ hv => .pure ?_
    exact ⟨List.forall_mem_singleton.2 hv, fun _ => rfl⟩
  · exact (Turns.manyWhile loopWord_looks fun s' hat => hinner.word s' (loopWord_true hat)).bind
      fun _ _ hwords => .pure ⟨hwords.1, nofun⟩

theorem forBody_gives (hinner : Grammar.Builds doc h inner) :
    Gives doc (forBody inner) s (Built doc.text (h + 1)) := by
  refine .step fun brace s₁ => ?_
  split
  · exact (hinner.block s₁).imp fun _ hv => hv.mono (Nat.le_succ h)
  refine .step fun _ s₂ => .step fun found s₃ => ?_
  split
  · exact (blockUntil_gives hinner _).bind fun v _ hv => .step fun _ _ => .pure hv
  · exact missing_gives _ (Nat.succ_pos h)

theorem forForm_gives (hinner : Grammar.Builds doc h inner) :
    Gives doc (forForm inner) s (Controls doc.text (h + 2)) := by
  refine loopVariables_gives.bind fun vars s₁ hvars => ?_
  refine (loopIterable_gives hinner).bind fun r s₂ ⟨hiterable, hone⟩ => ?_
  obtain ⟨style, iterable⟩ := r
  refine (forBody_gives hinner).bind fun body _ hbody => .pure ⟨fun span => ?_, rfl⟩
  refine built_named (List.forall_mem_append.2 ⟨?_, List.forall_mem_singleton.2 hbody⟩)
    (fun name hname => (hvars name hname).2)
    (List.forall_mem_map.2 fun name hname => (hvars name hname).1) ?_ rfl
  · exact fun c hc => (hiterable c hc).mono (Nat.le_succ h)
  · cases style with
    | expr => exact hone rfl
    | command => exact trivial

/-! ## case -/

theorem bracedPattern?_gives (hinner : Grammar.Builds doc h inner) :
    Gives doc (bracedPattern? inner) s fun pattern? => AllBuilt doc.text h pattern?.toList := by
  refine .currentKind ?_
  split
  · exact .present (parenExpr_gives hinner)
  · exact .present (regexLiteral_gives.imp fun _ hv => hv.mono hinner.pos)
  · refine .look atWord_looks fun b hb => ?_
    cases b with
    | true => exact .present (hinner.word s (atWord_true hb))
    | false => exact .pure nofun

theorem bracedPatterns_gives (hinner : Grammar.Builds doc h inner) :
    Gives doc (bracedPatterns inner) s (AllBuilt doc.text h) := by
  refine .loop (fun patterns => AllBuilt doc.text h patterns.toList) allBuilt_nil
    fun patterns s₁ hpatterns => (bracedPattern?_gives hinner).bind fun pattern? s₂ hpattern => ?_
  split
  · exact .pure hpatterns
  · have hpush := hpatterns.push (List.forall_mem_singleton.1 hpattern)
    refine .step fun bar s₃ => ?_
    split
    · exact .pure hpush
    · exact .pure hpush

theorem wordPatterns_gives (hinner : Grammar.Builds doc h inner) :
    Gives doc (wordPatterns inner) s (AllBuilt doc.text h) := by
  refine .loop (fun patterns => AllBuilt doc.text h patterns.toList) allBuilt_nil
    fun patterns s₁ hpatterns => .look atWord_looks fun b hb => ?_
  cases b with
  | false => exact .pure hpatterns
  | true =>
    refine (hinner.word s₁ (atWord_true hb)).bind fun v s₂ hv => .step fun bar s₃ => ?_
    split
    · exact .pure (hpatterns.push hv)
    · exact .pure (hpatterns.push hv)

/-- An arm over patterns and a body. -/
theorem built_caseArm {patterns : List Node} {body : Node} {span : Span}
    (hpatterns : AllBuilt doc.text h patterns) (hbody : Built doc.text (h + 1) body) :
    Built doc.text (h + 2) (.make (.caseArm patterns body) span) := by
  refine built_make (List.forall_mem_append.2 ⟨?_, List.forall_mem_singleton.2 hbody⟩) rfl
    trivial rfl
  exact fun c hc => (hpatterns c hc).mono (Nat.le_succ h)

/-- Rounds of arms keep the arms that were read. -/
abbrev ArmRound (text : String) (h : Nat) : Round (Array Node) (List Node) → Prop :=
  Brings (fun arms => AllBuilt text h arms.toList) (AllBuilt text h)

theorem bracedArmRound_gives {arms : Array Node} (hinner : Grammar.Builds doc h inner)
    (harms : AllBuilt doc.text (h + 2) arms.toList) :
    Gives doc (bracedArmRound inner arms) s (ArmRound doc.text (h + 2)) := by
  refine .step fun _ s₁ => .step fun _ s₂ => .step fun kind s₃ => ?_
  split
  · exact .pure harms
  refine .step fun start s₄ => .step fun before s₅ => ?_
  refine (bracedPatterns_gives hinner).bind fun patterns s₆ hpatterns => .step fun i s₇ => ?_
  split
  · exact (forceAdvance_gives _ (Nat.succ_pos _)).bind fun v _ hv => .pure (harms.push hv.1)
  · refine (definitionBody_gives hinner).bind fun body s₈ hbody => .step fun span _ => .pure ?_
    exact harms.push (built_caseArm hpatterns (hbody.mono (Nat.le_succ h)))

theorem wordArmRound_gives {arms : Array Node} (hinner : Grammar.Builds doc h inner)
    (harms : AllBuilt doc.text (h + 2) arms.toList) :
    Gives doc (wordArmRound inner arms) s (ArmRound doc.text (h + 2)) := by
  refine .step fun _ s₁ => .step fun _ s₂ => .step fun eof s₃ => .step fun esac s₄ =>
    .step fun brace s₅ => ?_
  split
  · exact .pure harms
  refine .step fun start s₆ => .step fun before s₇ => .step fun _ s₈ => ?_
  refine (wordPatterns_gives hinner).bind fun patterns s₉ hpatterns => .step fun i s₁₀ => ?_
  split
  · exact (forceAdvance_gives _ (Nat.succ_pos _)).bind fun v _ hv => .pure (harms.push hv.1)
  · refine .step fun _ s₁₁ => (blockUntil_gives hinner _).bind fun body s₁₂ hbody => ?_
    exact .step fun _ _ => .step fun span _ => .pure (harms.push (built_caseArm hpatterns hbody))

/-- A `case` over its arms. -/
theorem controls_caseOf {style : ConditionStyle} {subject : Node} {arms : List Node}
    (hsubject : Built doc.text h subject) (harms : AllBuilt doc.text (h + 2) arms) :
    Controls doc.text (h + 3) (.caseOf style subject arms) :=
  ⟨fun _ => built_make (List.forall_mem_cons.2 ⟨hsubject.mono (by omega), harms⟩) rfl trivial rfl,
    rfl⟩

theorem bracedCase_gives (hinner : Grammar.Builds doc h inner) :
    Gives doc (bracedCase inner) s (Controls doc.text (h + 3)) := by
  refine (parenExpr_gives hinner).bind fun subject s₁ hsubject => .step fun brace s₂ => ?_
  split
  · refine (Turns.loop (fun arms : Array Node => AllBuilt doc.text (h + 2) arms.toList) allBuilt_nil
      fun arms s' harms => bracedArmRound_gives hinner harms).bind fun arms s₃ harms => ?_
    exact .step fun _ _ => .pure (controls_caseOf hsubject harms)
  · exact .step fun _ _ => .pure (controls_caseOf hsubject nofun)

theorem wordSubject_gives (hinner : Grammar.Builds doc h inner) :
    Gives doc (wordSubject inner) s (Built doc.text h) := by
  refine .look atWord_looks fun b hb => ?_
  cases b with
  | true => exact hinner.word s (atWord_true hb)
  | false => exact missing_gives _ hinner.pos

theorem wordCase_gives (hinner : Grammar.Builds doc h inner) :
    Gives doc (wordCase inner) s (Controls doc.text (h + 3)) := by
  refine (wordSubject_gives hinner).bind fun subject s₁ hsubject => ?_
  refine .step fun _ s₂ => .step fun _ s₃ => ?_
  refine (Turns.loop (fun arms : Array Node => AllBuilt doc.text (h + 2) arms.toList) allBuilt_nil
    fun arms s' harms => wordArmRound_gives hinner harms).bind fun arms s₄ harms => ?_
  exact .step fun _ _ => .pure (controls_caseOf hsubject harms)

theorem caseForm_gives (hinner : Grammar.Builds doc h inner) :
    Gives doc (caseForm inner) s (Controls doc.text (h + 3)) := by
  refine .step fun paren s₁ => ?_
  split
  · exact bracedCase_gives hinner
  · exact wordCase_gives hinner

end

end ShellAnalysis.Parse
