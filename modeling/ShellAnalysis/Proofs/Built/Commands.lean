import ShellAnalysis.Proofs.Built.Expressions

/-!
# Commands and definitions that are built

Typed arguments and a block are read only for a command that has a word, and
what is read later leaves the words (`Draft.Fine`).
-/

namespace ShellAnalysis.Parse

open Text Node

section

variable {doc : Document} {s : State} {h k : Nat} {enter : Parser Grammar} {inner : Grammar}

/-! ## Redirects -/

instance (piece : Scanned) (heredoc : Heredoc) : Tame (announce piece heredoc) := by
  have := tame_modify (fun s => { s with pending := s.pending ++ [heredoc] }) (fun _ => rfl)
    (fun _ => rfl) (fun _ => rfl)
  unfold announce
  split <;> infer_instance

theorem heredocRedirect_gives (start : Nat) (fd : Option Nat) :
    Gives doc (heredocRedirect start fd) s (Built doc.text 2) := by
  refine .step fun text s₁ => .step fun i s₂ => .step fun found s₃ => ?_
  split
  · exact .step fun _ _ => .step fun span _ => .pure (built_leaf rfl rfl trivial rfl)
  · refine (pieceOf_gives _).bind fun _ s₄ _ => .step fun quoted s₅ => .step fun _ s₆ =>
      .step fun span _ => .pure ?_
    exact built_make (List.forall_mem_singleton.2 (built_leaf rfl rfl trivial rfl)) rfl trivial rfl

instance : Tame redirectDescriptor := by
  unfold redirectDescriptor
  infer_instance

theorem redirectTarget_gives (he : Opens doc h enter) :
    Gives doc (redirectTarget enter) s fun target? => AllBuilt doc.text (h + 3) target?.toList := by
  refine .look atWord_looks fun b hb => ?_
  cases b with
  | true => exact .present (word_gives he (atWord_true hb))
  | false => exact .step fun _ _ => .pure nofun

theorem redirect_gives (he : Opens doc h enter) :
    Gives doc (redirect enter) s (Built doc.text (h + 4)) := by
  refine .step fun start s₁ => .step fun fd s₂ => .step fun op s₃ => ?_
  split
  · exact (heredocRedirect_gives start fd).imp fun _ hv => hv.mono (by omega)
  · refine (redirectTarget_gives he).bind fun target s₄ htarget => .step fun span _ => .pure ?_
    exact built_make htarget rfl trivial rfl

/-! ## Assignments -/

theorem arrayLiteral_gives (he : Opens doc h enter) :
    Gives doc (arrayLiteral enter) s (Built doc.text (h + 1)) :=
  bracketed_gives (Q := AllBuilt doc.text h) he
    (fun _ _ hinner => (Turns.manyWhile atWord_looks fun s' hword =>
      hinner.word s' (atWord_true hword)).imp fun _ hitems => hitems.1)
    fun _ _ hitems => built_make hitems rfl trivial rfl

theorem assignedValue_gives (he : Opens doc h enter) :
    Gives doc (assignedValue enter) s fun value? => AllBuilt doc.text (h + 3) value?.toList := by
  refine .step fun glued s₁ => ?_
  split
  · exact .pure nofun
  refine .step fun paren s₂ => ?_
  split
  · exact .present ((arrayLiteral_gives he).imp fun _ hv => hv.mono (by omega))
  refine .look atWord_looks fun b hb => ?_
  cases b with
  | true => exact .present (word_gives he (atWord_true hb))
  | false => exact .pure nofun

theorem assignment_gives (he : Opens doc h enter) (hkind : (s.ahead doc).kind = .ident) :
    Gives doc (assignment enter) s (Built doc.text (h + 4)) := by
  have hne : (s.ahead doc).text doc.text ≠ "" := ahead_text_ne_empty (by rw [hkind]; decide)
  refine bump_gives.bind fun name s₁ hname => .step fun op s₂ => ?_
  refine (assignedValue_gives he).bind fun value s₃ hvalue => .tokenText (.step fun span _ => ?_)
  refine .pure (built_named hvalue (fun n hn => ?_) ?_ trivial rfl)
  · rw [List.mem_singleton.1 hn]
    rfl
  · exact List.forall_mem_singleton.2 (hname ▸ hne)

/-! ## Blocks and functions -/

theorem enclosed_gives {stop : StopAt} {close : TokenKind} {what : String}
    {form : List Node → Form Node} (he : Opens doc h enter) :
    Gives doc (enclosed enter stop close what form) s fun v => ∃ body span,
      v = .make (form body) span ∧ AllBuilt doc.text h body := by
  refine .step fun start s₁ => (he s₁).enter fun inner s₂ hinner => .step fun _ s₃ => ?_
  refine (hinner.statements _ _ s₃).bind fun body s₄ hbody => .step fun _ s₅ => .ascend fun s₆ => ?_
  exact .step fun span _ => .pure ⟨body, span, rfl, hbody⟩

/-- A compound command, after which redirects may stand. -/
def Compound (text : String) (h : Nat) (v : Node) : Prop :=
  Built text h v ∧ v.form.isCompound = true

theorem braceBlock_gives (he : Opens doc h enter) :
    Gives doc (braceBlock enter) s (Compound doc.text (h + 1)) := by
  refine (enclosed_gives he).imp ?_
  rintro _ ⟨body, span, rfl, hbody⟩
  exact ⟨built_make hbody rfl trivial rfl, rfl⟩

theorem subshell_gives (he : Opens doc h enter) :
    Gives doc (subshell enter) s (Compound doc.text (h + 1)) := by
  refine (enclosed_gives he).imp ?_
  rintro _ ⟨body, span, rfl, hbody⟩
  exact ⟨built_make hbody rfl trivial rfl, rfl⟩

theorem functionBody_gives (he : Opens doc h enter) :
    Gives doc (functionBody enter) s (Built doc.text (h + 1)) := by
  refine .step fun kind s₁ => ?_
  split
  · exact (braceBlock_gives he).imp fun _ hv => hv.1
  · exact (subshell_gives he).imp fun _ hv => hv.1
  · exact missing_gives _ (Nat.succ_pos h)

theorem shellFunction_gives {start : Nat} {name : Name} (he : Opens doc h enter)
    (hname : name.Traced doc.text) :
    Gives doc (shellFunction enter start name) s (Built doc.text (h + 2)) := by
  refine .step fun _ s₁ => (functionBody_gives he).bind fun body s₂ hbody => .step fun span _ => ?_
  refine .pure (built_named (List.forall_mem_singleton.2 hbody) (fun n hn => ?_) nofun trivial rfl)
  exact List.mem_singleton.1 hn ▸ hname

/-! ## Simple commands -/

/-- A command as far as it is read. -/
structure Draft.Fine (text : String) (h : Nat) (d : Draft) : Prop where
  assignments : AllBuilt text h d.assignments.toList
  words : AllBuilt text h d.words.toList
  redirects : AllBuilt text h d.redirects.toList
  typedArgs : AllBuilt text h d.typedArgs.toList
  block : AllBuilt text h d.block.toList
  named : d.typedArgs.isSome = true ∨ d.block.isSome = true → d.words.isEmpty = false

theorem Draft.Fine.built {d : Draft} {span : Span} (hd : d.Fine doc.text h) :
    Built doc.text (h + 1) (.make (.command d.toCommand) span) := by
  refine built_make ?_ rfl ?_ rfl
  · simp only [Form.children, Draft.toCommand, List.forall_mem_append]
    exact ⟨⟨⟨⟨hd.assignments, hd.words⟩, hd.redirects⟩, hd.typedArgs⟩, hd.block⟩
  · intro hargs hnil
    have hne := hd.named hargs
    rw [show d.words = #[] from Array.toList_eq_nil_iff.1 hnil] at hne
    cases hne

instance (d : Draft) : Tame (functionName? d) := by
  unfold functionName?
  infer_instance

/-- What a round of a command gives. -/
def Drafts (text : String) (h : Nat) : CommandRound → Prop
  | .again d | .finish d => d.Fine text h
  | .function _ => True

theorem commandWord_gives {d : Draft} (he : Opens doc h enter) (hd : d.Fine doc.text (h + 4)) :
    Gives doc (commandWord enter d) s (Drafts doc.text (h + 4)) := by
  refine .look atWord_looks fun b hb => ?_
  cases b with
  | false => exact .pure hd
  | true =>
    refine .look atAssignment_looks fun assigns hassigns => ?_
    split
    · rename_i hgo
      rw [(Bool.and_eq_true_iff.1 hgo).2] at hassigns
      refine (assignment_gives he (atAssignment_true hassigns).1).bind fun v _ hv => .pure ?_
      exact { hd with assignments := hd.assignments.push hv }
    · refine (word_gives he (atWord_true hb)).bind fun v _ hv => .pure ?_
      exact { hd with
        words := hd.words.push (hv.mono (Nat.le_succ _))
        named := fun _ => by simp }

theorem commandRound_gives {d : Draft} (he : Opens doc h enter) (hd : d.Fine doc.text (h + 4)) :
    Gives doc (commandRound enter d) s (Drafts doc.text (h + 4)) := by
  refine .step fun redirects s₁ => ?_
  split
  · refine (redirect_gives he).bind fun v _ hv => .pure ?_
    exact { hd with redirects := hd.redirects.push hv }
  refine .step fun kind s₂ => ?_
  split
  · refine .step fun name? s₃ => ?_
    split
    · exact .pure trivial
    split
    · exact .pure hd
    · rename_i hgo
      have hwords : d.words.isEmpty = false := by simp_all
      refine (argList_gives he).bind fun v _ hv => .pure ?_
      exact { hd with
        typedArgs := List.forall_mem_singleton.2 (hv.mono (by omega))
        named := fun _ => hwords }
  · refine .step fun isBlock s₃ => ?_
    split
    · split
      · exact .pure hd
      · rename_i hwords
        refine (braceBlock_gives he).bind fun v _ hv => .pure ?_
        exact { hd with
          block := List.forall_mem_singleton.2 (hv.1.mono (by omega))
          named := fun _ => by simpa using hwords }
    · exact commandWord_gives he hd
  · exact commandWord_gives he hd

theorem simpleCommand_gives (he : Opens doc h enter) :
    Gives doc (simpleCommand enter) s (Built doc.text (h + 5)) := by
  refine .step fun start s₁ => .loop (Draft.Fine doc.text (h + 4)) ?_ fun d s₂ hd => ?_
  · exact ⟨nofun, nofun, nofun, nofun, nofun, nofun⟩
  refine (commandRound_gives he hd).bind fun r s₃ hr => ?_
  split
  · exact .pure hr
  · exact .step fun span _ => .pure hr.built
  · rename_i word
    refine (pieceOf_gives word.span).bind fun name s₄ hname => ?_
    refine .step fun _ s₅ => .step fun _ s₆ => ?_
    refine (shellFunction_gives he (slice_of_slice? hname)).bind fun v _ hv => .pure ?_
    exact hv.mono (by omega)

/-! ## Callables -/

theorem nameWord_gives (what : String) : Gives doc (nameWord what) s (Name.Traced doc.text) := by
  refine .current ?_
  split
  · refine .step fun _ s₁ => .step fun _ s₂ => .step fun span s₃ => ?_
    exact (pieceOf_gives span).bind fun name _ hname => .pure (slice_of_slice? hname)
  · exact .step fun _ _ => .step fun i _ => .pure (slice_self doc.text i)

theorem identName?_gives : Gives doc identName? s fun name? =>
    ∀ name ∈ name?.toList, name.Traced doc.text := by
  refine .current ?_
  split
  · exact .step fun _ _ => .tokenText (.pure (List.forall_mem_singleton.2 rfl))
  · exact .pure nofun

theorem param_gives (hinner : Grammar.Builds doc h inner) (group : ParamGroup) :
    Gives doc (param inner group) s fun v =>
      Built doc.text (h + 1) v ∧ v.form.isParam = true := by
  refine .step fun start s₁ => .step fun rest s₂ => (identName_gives _).bind fun name s₃ hname => ?_
  refine identName?_gives.bind fun type s₄ htype => ?_
  refine (afterEaten?_gives fun s' => hinner.expression 0 s').bind fun fallback s₅ hfallback => ?_
  refine .step fun span _ => .pure ⟨built_named hfallback ?_ nofun trivial rfl, rfl⟩
  exact List.forall_mem_cons.2 ⟨hname, htype⟩

theorem paramRound_gives {params : Array Node} {group : ParamGroup}
    (hinner : Grammar.Builds doc h inner) (hparams : Kept doc.text (h + 1) Form.isParam params) :
    Gives doc (paramRound inner params group) s
      (Brings (fun r => Kept doc.text (h + 1) Form.isParam r.1)
        fun params => Kept doc.text (h + 1) Form.isParam params.toArray) := by
  refine .step fun kind s₁ => ?_
  split
  · exact .pure hparams
  · exact .pure hparams
  · exact .step fun _ _ => .pure hparams
  · exact .step fun _ _ => .pure hparams
  · exact (param_gives hinner group).bind fun v _ hv => .pure (hparams.push hv.1 hv.2)
  · exact (param_gives hinner group).bind fun v _ hv => .pure (hparams.push hv.1 hv.2)
  · refine (forceAdvance_gives _ (Nat.succ_pos h)).bind fun v _ ⟨hv, herror⟩ => ?_
    exact .pure (hparams.push hv (by rw [herror]; rfl))

theorem signature_gives (hinner : Grammar.Builds doc h inner) (group : ParamGroup)
    (required : Bool) :
    Gives doc (signature inner group required) s fun params =>
      Kept doc.text (h + 1) Form.isParam params.toArray := by
  refine .step fun paren s₁ => ?_
  split
  · refine .step fun _ s₂ => closedBy_gives fun s₃ => ?_
    exact .loop (fun r => Kept doc.text (h + 1) Form.isParam r.1) kept_nil
      fun r s₄ hr => paramRound_gives hinner hr
  · exact .step fun _ _ => .pure kept_nil

theorem definitionBody_gives (hinner : Grammar.Builds doc h inner) :
    Gives doc (definitionBody inner) s (Built doc.text h) := by
  refine .step fun brace s₁ => ?_
  split
  · exact hinner.block s₁
  · exact missing_gives _ hinner.pos

/-- A construct that a keyword opens. -/
theorem construct_gives {form : Grammar → Parser (Form Node)} {P : Form Node → Prop}
    (he : Opens doc h enter)
    (hform : ∀ inner s', Grammar.Builds doc h inner → Gives doc (form inner) s' fun f =>
      Raises doc.text k f ∧ P f) :
    Gives doc (construct enter form) s fun v => Built doc.text k v ∧ P v.form := by
  refine .step fun start s₁ => .step fun _ s₂ => (he s₂).enter fun inner s₃ hinner => ?_
  refine (hform inner s₃ hinner).bind fun f s₄ hf => .ascend fun s₅ => ?_
  exact .step fun span _ => .pure ⟨hf.1 span, hf.2⟩

theorem callable_gives {kind : CallableKind} {name : Parser Name} {group : ParamGroup}
    {required : Bool} (hinner : Grammar.Builds doc h inner)
    (hname : ∀ s', Gives doc name s' (Name.Traced doc.text)) :
    Gives doc (callable kind name group required inner) s (Raises doc.text (h + 2)) := by
  refine (hname s).bind fun name s₁ hname => ?_
  refine (signature_gives hinner group required).bind fun params s₂ hparams => ?_
  refine (definitionBody_gives hinner).bind fun body _ hbody => .pure fun span => ?_
  refine built_named (List.forall_mem_append.2 ⟨hparams.1, ?_⟩)
    (List.forall_mem_singleton.2 hname) nofun hparams.2 rfl
  exact List.forall_mem_singleton.2 (hbody.mono (Nat.le_succ h))

theorem callableDef_gives {kind : CallableKind} {name : Parser Name} {group : ParamGroup}
    {required : Bool} (he : Opens doc h enter)
    (hname : ∀ s', Gives doc name s' (Name.Traced doc.text)) :
    Gives doc (construct enter (callable kind name group required)) s (Built doc.text (h + 2)) :=
  (construct_gives (P := fun _ => True) he fun _ _ hinner =>
    (callable_gives hinner hname).imp fun _ hf => ⟨hf, trivial⟩).imp fun _ hv => hv.1

theorem procDef_gives (he : Opens doc h enter) :
    Gives doc (procDef enter) s (Built doc.text (h + 2)) :=
  callableDef_gives he fun _ => nameWord_gives _

theorem funcDef_gives (he : Opens doc h enter) :
    Gives doc (funcDef enter) s (Built doc.text (h + 2)) :=
  callableDef_gives he fun _ => identName_gives _

instance : Tame eatParens := by
  unfold eatParens
  infer_instance

theorem functionKeyword_gives (he : Opens doc h enter) :
    Gives doc (functionKeyword enter) s (Built doc.text (h + 2)) := by
  refine .step fun start s₁ => .step fun _ s₂ => (nameWord_gives _).bind fun name s₃ hname => ?_
  exact .step fun _ s₄ => shellFunction_gives he hname

/-! ## Variables -/

theorem typedNames_gives : Gives doc typedNames s fun names => ∀ n ∈ names,
    n.name.text ≠ "" ∧ ∀ name ∈ n.name :: n.type.toList, name.Traced doc.text := by
  refine .loop (fun names => ∀ n ∈ names.toList,
    n.name.text ≠ "" ∧ ∀ name ∈ n.name :: n.type.toList, name.Traced doc.text) nofun
    fun names s₁ hnames => ?_
  refine (identName_gives _).bind fun name s₂ hname => ?_
  split
  · exact .pure hnames
  rename_i hne
  refine identName?_gives.bind fun type s₃ htype => .step fun comma s₄ => ?_
  have hpush := forall_mem_push (x := TypedName.mk name type) hnames
    ⟨by simpa using hne, List.forall_mem_cons.2 ⟨hname, htype⟩⟩
  split
  · exact .pure hpush
  · exact .pure hpush

theorem varDecl_gives (he : Opens doc h enter) (keyword : DeclKeyword) :
    Gives doc (varDecl enter keyword) s (Built doc.text (h + 2)) := by
  refine .step fun start s₁ => .step fun _ s₂ => typedNames_gives.bind fun names s₃ hnames => ?_
  refine (afterEaten?_gives fun _ => exprOrTuple_gives he).bind fun value s₄ hvalue => ?_
  refine .step fun span _ => .pure (built_named hvalue (fun name hname => ?_) ?_ trivial rfl)
  · obtain ⟨n, hn, hname⟩ := List.mem_flatMap.1 hname
    exact (hnames n hn).2 name hname
  · exact List.forall_mem_map.2 fun n hn => (hnames n hn).1

theorem mutationTargets_gives (he : Opens doc h enter) :
    Gives doc (mutationTargets enter) s (AllBuilt doc.text h) := by
  refine .loop (fun targets => AllBuilt doc.text h targets.toList) allBuilt_nil
    fun targets s₁ htargets => ?_
  refine .step fun before s₂ => (expression_gives he _).bind fun target s₃ htarget => ?_
  refine .step fun i s₄ => ?_
  split
  · exact .pure htargets
  refine .step fun comma s₅ => ?_
  split
  · exact .pure (htargets.push htarget)
  · exact .pure (htargets.push htarget)

instance (keyword : MutationKeyword) : Tame (mutationOpener keyword) := by
  unfold mutationOpener
  infer_instance

theorem mutationValue_gives (he : Opens doc h enter) :
    Gives doc (mutationValue enter) s fun r => Built doc.text (h + 1) r.2 := by
  refine .step fun kind s₁ => ?_
  split
  · exact .step fun _ _ => (exprOrTuple_gives he).bind fun _ _ hv => .pure hv
  · exact (missing_gives _ (Nat.succ_pos h)).bind fun _ _ hv => .pure hv

theorem mutation_gives (he : Opens doc h enter) (keyword : MutationKeyword) :
    Gives doc (mutation enter keyword) s (Built doc.text (h + 2)) := by
  refine .step fun start s₁ => .step fun _ s₂ => ?_
  refine (mutationTargets_gives he).bind fun targets s₃ htargets => ?_
  refine (mutationValue_gives he).bind fun r s₄ hvalue => .step fun span _ => .pure ?_
  refine built_make ?_ rfl trivial rfl
  refine List.forall_mem_append.2 ⟨fun c hc => (htargets c hc).mono (Nat.le_succ h), ?_⟩
  exact List.forall_mem_singleton.2 hvalue

theorem exprStatement_gives (he : Opens doc h enter) (keyword : ExprKeyword) :
    Gives doc (exprStatement enter keyword) s (Built doc.text (h + 1)) := by
  refine .step fun start s₁ => .step fun _ s₂ => (expression_gives he 0).bind fun v s₃ hv => ?_
  exact .step fun span _ => .pure (built_make (List.forall_mem_singleton.2 hv) rfl trivial rfl)

end

end ShellAnalysis.Parse
