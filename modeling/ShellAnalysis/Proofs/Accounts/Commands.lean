import ShellAnalysis.Proofs.Accounts.Expressions
import ShellAnalysis.Proofs.Built.Commands

/-!
# Accounts of commands and definitions

A command collects its pieces by kind, so they are put in another order than
they were read in.  Its first word may turn out to name a function, so of every
word it is kept that it does not start before the command does (`Phrases`).  A
heredoc is announced only where `<<` stands (`tokenAt_lessLess`), and then
nothing is said of where nodes lie.
-/

namespace ShellAnalysis.Parse

open Text Node

/-! ## Heredocs -/

theorem spelled?_lessLess {text : String} {i stop : Nat}
    (h : Lexer.spelled? text i = some (.lessLess, stop)) : hasPiece text i "<<" = true := by
  have hspellings : ∀ b, ∀ s ∈ TokenKind.spellings b, s.2 = .lessLess → s.1 = "<<" := by
    intro b
    unfold TokenKind.spellings
    split <;> decide
  unfold Lexer.spelled? at h
  split at h
  · obtain ⟨s, hs, heq⟩ := Option.map_eq_some_iff.1 h
    have hkind : s.2 = .lessLess := congrArg Prod.fst heq
    have hpiece := List.find?_some hs
    rwa [hspellings _ s (List.mem_of_find?_eq_some hs) hkind] at hpiece
  · cases h

theorem punctuation_lessLess {text : String} {i : Nat}
    (h : (Lexer.punctuation text i).1 = .lessLess) : hasPiece text i "<<" = true := by
  unfold Lexer.punctuation at h
  cases hs : Lexer.spelled? text i with
  | none =>
    rw [hs] at h
    cases h
  | some m =>
    rw [hs, Option.getD_some] at h
    exact spelled?_lessLess (hs.trans (congrArg some (Prod.ext h rfl)))

theorem munch_lessLess {text : String} {i : Nat} {b : UInt8}
    (h : (Lexer.munch text i b).1 = .lessLess) : hasPiece text i "<<" = true := by
  unfold Lexer.munch at h
  split at h
  · unfold Lexer.word at h
    cases hs : Lexer.spelled? text i with
    | none =>
      rw [hs] at h
      cases h
    | some m =>
      rw [hs, Option.getD_some] at h
      exact spelled?_lessLess (hs.trans (congrArg some (Prod.ext h rfl)))
  split at h
  · unfold Lexer.number at h
    simp only at h
    split at h <;> cases h
  split at h
  · cases h
  split at h
  · unfold Lexer.dollar at h
    split at h
    · cases h
    split at h
    · cases h
    · exact punctuation_lessLess h
  split at h
  · unfold Lexer.atSign at h
    split at h
    · cases h
    · exact punctuation_lessLess h
  split at h
  · unfold Lexer.hash at h
    split at h <;> cases h
  split at h
  · unfold Lexer.backslash at h
    split at h
    · split at h <;> cases h
    · cases h
  · exact punctuation_lessLess h

/-- A heredoc operator is spelled like one. -/
theorem tokenAt_lessLess {text : String} {i : Nat} (h : (Lexer.tokenAt text i).kind = .lessLess) :
    hasPiece text (Lexer.tokenAt text i).span.start "<<" = true := by
  rw [Lexer.tokenAt_span_start]
  unfold Lexer.tokenAt at h
  simp only at h
  split at h
  · cases h
  · exact munch_lessLess h

section

variable {doc : Document} {s s₀ s₁ : State} {xs : List Node} {enter : Parser Grammar}
  {inner : Grammar}

/-- Where there is a heredoc, nothing is said of where nodes lie. -/
theorem Explains.beside (h : Explains s xs s₁) (hk : (s₀.ahead doc).kind = .lessLess) :
    Accounts doc s xs s₁ := by
  have hpiece : hasPiece doc.text (Lexer.tokenAt doc.text (s₀.front doc)).span.start "<<" = true :=
    tokenAt_lessLess (by rwa [tokenAt_front])
  have hloud : ¬ Quiet doc s s₁ := fun q => by
    rw [q.lacks] at hpiece
    cases hpiece
  exact ⟨⟨h, (absurd · hloud)⟩, (absurd · hloud)⟩

instance (what : String) : Grows (reportExpected what) := by
  unfold reportExpected
  infer_instance

instance (piece : Scanned) (heredoc : Heredoc) : Grows (announce piece heredoc) := by
  have : Grows
      (modify fun s : State => { s with pending := s.pending ++ [heredoc] } : Parser Unit) :=
    ⟨fun _ _ => Nat.le_refl _⟩
  unfold announce
  split <;> infer_instance

instance (start : Nat) (fd : Option Nat) : Grows (heredocRedirect start fd) := by
  unfold heredocRedirect
  refine Grows.bind (k := fun text => Grows.bind (k := fun i => Grows.bind (k := fun found => ?_)))
  split <;> infer_instance

theorem heredocRedirect_answers (start : Nat) (fd : Option Nat) (ht : s.Tidy) :
    Answers doc s (heredocRedirect start fd) s fun v s' => Explains s [v] s' := by
  have hgives : Gives doc (heredocRedirect start fd) s fun v => v.errors = 0 := by
    refine .step fun text s₁ => .step fun i s₂ => .step fun found s₃ => ?_
    split
    · exact .step fun _ _ => .step fun span _ => .pure (errors_of_form rfl rfl)
    · refine (pieceOf_gives _).bind fun _ s₄ _ => .step fun quoted s₅ => .step fun _ s₆ =>
        .step fun span _ => .pure ?_
      rw [errors_of_form (make_form _ _) rfl]
      refine (errorsIn_cons _ _).trans ?_
      rw [errors_of_form (make_form _ _) rfl]
      rfl
  have hruns : Runs doc (fun _ _ => True) (heredocRedirect start fd) s fun _ _ => True := by
    unfold Runs
    split <;> trivial
  refine (hgives.explains hruns ht).imp ?_
  rintro v s' ⟨h, hv, -⟩
  refine { h with explained := ?_ }
  rw [errorsIn_cons, hv, Nat.zero_add]
  exact h.explained

/-! ## Redirects -/

instance : Silent redirectDescriptor := by
  unfold redirectDescriptor
  infer_instance

theorem redirectTarget_gathers (he : Deepens doc enter) :
    Gathers doc (redirectTarget enter) s Option.toList := by
  refine fun ht => (Accounts.refl ht).step fun more s₁ h₁ => ?_
  split
  · exact h₁.last ((word_gathers he).present h₁.tidy) fun _ _ h => h₁.trans h
  · exact h₁.step fun _ s₂ h₂ => .pure h₂

theorem redirect_gathers (he : Deepens doc enter) :
    Gathers doc (redirect enter) s fun v => [v] := by
  refine fun ht => runs_startOffset.2 ((Accounts.refl ht).step fun fd s₁ h₁ => ?_)
  refine h₁.bind (bump_answers h₁.tidy) ?_
  rintro _ s₂ ⟨rfl, hop, -⟩
  have h₂ := h₁.trans hop.toAccounts
  split
  · rename_i hk
    refine ((heredocRedirect_answers _ fd h₂.tidy).imp_fail fun _ _ => h₂.upholds.trans).imp
      fun v s₃ h₃ => ?_
    exact (h₂.append h₃).beside (beq_iff_eq.1 hk)
  · refine h₂.take (redirectTarget_gathers he) fun target s₃ h₃ => ?_
    exact runs_spanFrom.2 (.pure (h₃.make (f := .redirect fd _ target) rfl))

/-! ## Assignments -/

theorem arrayLiteral_gathers (he : Deepens doc enter) :
    Gathers doc (arrayLiteral enter) s fun v => [v] :=
  (bracketed_frames he (fun _ _ hinner => .manyWhile atWord_looks fun s' _ => hinner.word s')
    fun _ => rfl).gathers

theorem assignedValue_gathers (he : Deepens doc enter) :
    Gathers doc (assignedValue enter) s Option.toList := by
  refine fun ht => (Accounts.refl ht).step fun glued s₁ h₁ => ?_
  split
  · exact .pure h₁
  refine h₁.step fun paren s₂ h₂ => ?_
  split
  · exact h₂.last ((arrayLiteral_gathers he).present h₂.tidy) fun _ _ h => h₂.trans h
  refine h₂.step fun word s₃ h₃ => ?_
  split
  · exact h₃.last ((word_gathers he).present h₃.tidy) fun _ _ h => h₃.trans h
  · exact .pure h₃

theorem assignment_gathers (he : Deepens doc enter) :
    Gathers doc (assignment enter) s fun v => [v] := by
  refine fun ht => runs_startOffset.2 ((bump_picks ht).bind fun name s₁ h₁ => ?_)
  refine h₁.step fun op s₂ h₂ => h₂.take (assignedValue_gathers he) fun value s₃ h₃ => ?_
  refine runs_tokenText.2 (runs_spanFrom.2 (.pure ?_))
  exact h₃.make (f := .shellAssignment ⟨_, _⟩ _ value) rfl

/-! ## Blocks and functions -/

theorem enclosed_gathers {stop : StopAt} {close : TokenKind} {what : String}
    {form : List Node → Form Node} (he : Deepens doc enter)
    (hchildren : ∀ body, (form body).children = body)
    (hform : ∀ body, (form body).isOrdinary = true) :
    Gathers doc (enclosed enter stop close what form) s fun v => [v] := by
  refine fun ht => runs_startOffset.2 ((Accounts.refl ht).deeper he fun inner s₁ h₁ hinner => ?_)
  refine h₁.step fun _ s₂ h₂ => h₂.take (hinner.statements _ _ s₂) fun body s₃ h₃ => ?_
  refine h₃.step fun _ s₄ h₄ => h₄.step fun _ s₅ h₅ => runs_spanFrom.2 (.pure ?_)
  exact ((hchildren body).symm ▸ h₅ : Accounts doc s (form body).children s₅).make (hform body)

theorem braceBlock_gathers (he : Deepens doc enter) :
    Gathers doc (braceBlock enter) s fun v => [v] :=
  enclosed_gathers he (fun _ => rfl) fun _ => rfl

theorem subshell_gathers (he : Deepens doc enter) :
    Gathers doc (subshell enter) s fun v => [v] :=
  enclosed_gathers he (fun _ => rfl) fun _ => rfl

theorem functionBody_gathers (he : Deepens doc enter) :
    Gathers doc (functionBody enter) s fun v => [v] := by
  refine fun ht => runs_currentKind.2 ?_
  split
  · exact braceBlock_gathers he ht
  · exact subshell_gathers he ht
  · exact missing_gathers _ ht

/-- A function whose name was read since `s₀`. -/
theorem shellFunction_answers {name : Name} (he : Deepens doc enter)
    (h : Mentions doc s₀ [] [name] s) :
    Answers doc s₀ (shellFunction enter (s₀.front doc) name) s fun v s' =>
      Accounts doc s₀ [v] s' := by
  refine h.step fun _ s₁ h₁ => h₁.take (functionBody_gathers he) fun body s₂ h₂ => ?_
  exact runs_spanFrom.2 (.pure (h₂.make (f := .shellFunction name body) rfl))

/-! ## Simple commands -/

/-- The pieces of a command that were read. -/
def Draft.nodes (d : Draft) : List Node := (Form.command d.toCommand).children

section

variable {d : Draft} {v : Node}

theorem Accounts.pushAssignment (h : Accounts doc s₀ d.nodes s) (h' : Accounts doc s [v] s₁) :
    Accounts doc s₀ { d with assignments := d.assignments.push v : Draft }.nodes s₁ := by
  refine (h.trans h').perm ?_
  have := perm_insert d.assignments.toList
    (d.words.toList ++ (d.redirects.toList ++ (d.typedArgs.toList ++ d.block.toList))) v
  simpa [Draft.nodes, Draft.toCommand, Form.children] using this

theorem Accounts.pushWord (h : Accounts doc s₀ d.nodes s) (h' : Accounts doc s [v] s₁) :
    Accounts doc s₀ { d with words := d.words.push v : Draft }.nodes s₁ := by
  refine (h.trans h').perm ?_
  have := perm_insert (d.assignments.toList ++ d.words.toList)
    (d.redirects.toList ++ (d.typedArgs.toList ++ d.block.toList)) v
  simpa [Draft.nodes, Draft.toCommand, Form.children] using this

theorem Accounts.pushRedirect (h : Accounts doc s₀ d.nodes s) (h' : Accounts doc s [v] s₁) :
    Accounts doc s₀ { d with redirects := d.redirects.push v : Draft }.nodes s₁ := by
  refine (h.trans h').perm ?_
  have := perm_insert (d.assignments.toList ++ d.words.toList ++ d.redirects.toList)
    (d.typedArgs.toList ++ d.block.toList) v
  simpa [Draft.nodes, Draft.toCommand, Form.children] using this

/-- Typed arguments; those that were there before are dropped. -/
theorem Accounts.setArgs (h : Accounts doc s₀ d.nodes s) (h' : Accounts doc s [v] s₁) :
    Accounts doc s₀ { d with typedArgs := some v : Draft }.nodes s₁ := by
  refine (h.trans h').among ?_ ?_
  · simp only [Draft.nodes, Draft.toCommand, Form.children]
    grind
  · simp only [Draft.nodes, Draft.toCommand, Form.children, errorsIn_append, errorsIn_cons,
      errorsIn_nil, Option.toList_some]
    omega

theorem Accounts.setBlock (h : Accounts doc s₀ d.nodes s) (h' : Accounts doc s [v] s₁) :
    Accounts doc s₀ { d with block := some v : Draft }.nodes s₁ := by
  refine (h.trans h').among ?_ ?_
  · simp only [Draft.nodes, Draft.toCommand, Form.children]
    grind
  · simp only [Draft.nodes, Draft.toCommand, Form.children, errorsIn_append, errorsIn_cons,
      errorsIn_nil, Option.toList_some]
    omega

end

/-- A command as far as it was read; no word stands before its first token. -/
structure Phrases (doc : Document) (s₀ : State) (d : Draft) (s : State) : Prop
    extends Accounts doc s₀ d.nodes s where
  words : Quiet doc s₀ s → ∀ w ∈ d.words.toList, s₀.front doc ≤ w.start

section

variable {α : Type} {β : Type} {p : Parser α} {f : α → Parser β} {Q : β → State → Prop}
  {d d' : Draft}

theorem Phrases.step [hp : Silent p] (h : Phrases doc s₀ d s)
    (hf : ∀ a s', Phrases doc s₀ d s' → Answers doc s₀ (f a) s' Q) :
    Answers doc s₀ (p >>= f) s Q :=
  h.bind (hp.silent doc s h.tidy) fun a s' ha =>
    hf a s' ⟨h.then ha, fun q => h.words (q.first h.errors_le ha.errors_le)⟩

/-- A piece more that is no word. -/
theorem Phrases.keep (h : Phrases doc s₀ d s) (h' : Accounts doc s₀ d'.nodes s₁)
    (hle : s.errors ≤ s₁.errors) (hwords : d'.words = d.words) : Phrases doc s₀ d' s₁ :=
  ⟨h', fun q => hwords ▸ h.words (q.first h.errors_le hle)⟩

/-- What one round of a command comes to.  The word that names a function ends before the token
ahead. -/
def Pieces (doc : Document) (s₀ : State) : CommandRound → State → Prop
  | .again d, s | .finish d, s => Phrases doc s₀ d s
  | .function w, s => Accounts doc s₀ [] s ∧
      (Quiet doc s₀ s → s₀.front doc ≤ w.start ∧ w.stop ≤ s.front doc)

end

theorem functionName?_mem {d : Draft} {fail : Stopped → State → Prop} :
    Runs doc fail (functionName? d) s fun name? s' =>
      s' = s ∧ ∀ w, name? = some w → w ∈ d.words.toList := by
  unfold functionName?
  rw [runs_peek]
  split
  · exact .pure ⟨rfl, fun w hw => Array.mem_toList_iff.2 (Array.mem_of_back? hw)⟩
  · exact .pure ⟨rfl, nofun⟩

theorem commandWord_answers {d : Draft} (he : Deepens doc enter) (h : Phrases doc s₀ d s) :
    Answers doc s₀ (commandWord enter d) s (Pieces doc s₀) := by
  refine h.step fun more s₁ h₁ => ?_
  split
  · exact .pure h₁
  refine h₁.step fun assigns s₂ h₂ => ?_
  split
  · exact h₂.bind (assignment_gathers he h₂.tidy) fun v _ hv =>
      .pure (h₂.keep (h₂.pushAssignment hv) hv.errors_le rfl)
  · refine h₂.bind (word_answers he h₂.tidy) fun v s₃ ⟨hv, hstart⟩ => .pure ?_
    refine ⟨h₂.pushWord hv, fun q => ?_⟩
    have q₁ := q.first h₂.errors_le hv.errors_le
    have q₂ := q.second h₂.errors_le hv.errors_le (h₂.drift q₁).neat
    rw [Array.toList_push]
    refine List.forall_mem_append.2 ⟨h₂.words q₁, List.forall_mem_singleton.2 ?_⟩
    exact Nat.le_trans (h₂.front_le q₁) (Nat.le_of_eq (hstart q₂).symm)

theorem commandRound_answers {d : Draft} (he : Deepens doc enter) (h : Phrases doc s₀ d s) :
    Answers doc s₀ (commandRound enter d) s (Pieces doc s₀) := by
  refine h.step fun redirects s₁ h₁ => ?_
  split
  · exact h₁.bind (redirect_gathers he h₁.tidy) fun v _ hv =>
      .pure (h₁.keep (h₁.pushRedirect hv) hv.errors_le rfl)
  refine h₁.step fun kind s₂ h₂ => ?_
  split
  · refine functionName?_mem.bind ?_
    rintro name? _ ⟨rfl, hmem⟩
    split
    · rename_i w
      refine .pure ⟨h₂.among (List.nil_subset _) (Nat.zero_le _), fun q => ?_⟩
      have hw := hmem w rfl
      refine ⟨h₂.words q w hw, ((h₂.drift q).lies w ?_).stop⟩
      simp only [Draft.nodes, Draft.toCommand, Form.children, List.mem_append]
      exact .inl (.inl (.inl (.inr hw)))
    split
    · exact .pure h₂
    · exact h₂.bind (argList_gathers he h₂.tidy) fun v _ hv =>
        .pure (h₂.keep (h₂.setArgs hv) hv.errors_le rfl)
  · refine h₂.step fun isBlock s₃ h₃ => ?_
    split
    · split
      · exact .pure h₃
      · exact h₃.bind (braceBlock_gathers he h₃.tidy) fun v _ hv =>
          .pure (h₃.keep (h₃.setBlock hv) hv.errors_le rfl)
    · exact commandWord_answers he h₃
  · exact commandWord_answers he h₂

/-- The word before `()` is the name of a function. -/
theorem Pieces.mention {w : Node} {name : Name} (h : Pieces doc s₀ (.function w) s)
    (hname : name.span = w.span) (h' : Consumes doc s s₁) : Mentions doc s₀ [] [name] s₁ where
  toAccounts := h.1.then h'.toAccounts
  between q := by
    have q₁ := q.first h.1.errors_le h'.errors_le
    have q₂ := q.second h.1.errors_le h'.errors_le (h.1.drift q₁).neat
    obtain ⟨hstart, hstop⟩ := h.2 q₁
    rw [List.forall_mem_singleton, hname]
    exact ⟨hstart, Nat.le_trans hstop (h'.past q₂)⟩

theorem simpleCommand_gathers (he : Deepens doc enter) :
    Gathers doc (simpleCommand enter) s fun v => [v] := by
  refine fun ht => runs_startOffset.2 (Answers.repeat (I := Phrases doc s) (fun _ _ h => h.upholds)
    ⟨.refl ht, nofun⟩ fun d s₁ h₁ => ?_)
  refine (commandRound_answers he h₁).bind fun r s₂ h₂ => ?_
  split
  · exact .pure h₂
  · rename_i d'
    exact runs_spanFrom.2 (.pure (h₂.make (f := .command d'.toCommand) rfl))
  · rename_i w
    refine h₂.1.bind (pieceOf_answers _ h₂.1.tidy) ?_
    rintro text _ rfl
    refine h₂.1.bind (discard_bump_answers h₂.1.tidy) fun _ s₃ h₃ => ?_
    have hname : Mentions doc s [] [⟨text, w.span⟩] s₃ := Pieces.mention h₂ rfl h₃
    refine hname.step fun _ s₄ h₄ => ?_
    exact (shellFunction_answers he h₄).bind fun v _ hv => .pure hv

/-! ## Callables -/

/-- A name of glued pieces reaches from the token ahead to the position. -/
theorem nameWord_picks (what : String) : Picks doc (nameWord what) s fun name => [name] := by
  refine fun ht => runs_current.2 ?_
  split
  · refine (discard_bump_answers ht).bind fun _ s₁ h₁ => ?_
    refine h₁.bind (Silent.silent doc s₁ h₁.tidy) fun _ s₂ h₂ => runs_spanFrom.2 ?_
    have h := h₁.then h₂
    refine h.bind (pieceOf_answers _ h.tidy) ?_
    rintro piece _ rfl
    refine .pure ⟨h.toAccounts, fun q => List.forall_mem_singleton.2 ⟨Nat.le_refl _, ?_⟩⟩
    exact Nat.le_of_eq (Span.stop_upTo (h.past q))
  · refine (reportExpected_answers what ht).bind fun _ s₁ ⟨h₁, _, hmore⟩ => ?_
    exact runs_position.2 (.pure (h₁.loud (by omega)))

instance : Silent eatParens := by
  unfold eatParens
  infer_instance

theorem param_gathers (hinner : inner.Honest doc) (group : ParamGroup) :
    Gathers doc (param inner group) s fun v => [v] := by
  refine fun ht => runs_startOffset.2 ((Accounts.refl ht).step fun rest s₁ h₁ => ?_)
  refine h₁.nameless.read (identName_picks _) fun name s₂ h₂ => ?_
  refine h₂.read identName?_picks fun type s₃ h₃ => ?_
  refine h₃.take (afterEaten?_gathers (hinner.expression 0)) fun fallback s₄ h₄ => ?_
  exact runs_spanFrom.2 (.pure (h₄.make (f := .param name type fallback group rest) rfl))

theorem paramRound_answers {params : Array Node} {group : ParamGroup} (hinner : inner.Honest doc)
    (h : Accounts doc s₀ params.toList s) :
    Answers doc s₀ (paramRound inner params group) s
      (Next (fun r s' => Accounts doc s₀ r.1.toList s') (Accounts doc s₀)) := by
  refine runs_currentKind.2 ?_
  split
  · exact .pure h
  · exact .pure h
  · exact h.step fun _ _ h₁ => .pure h₁
  · exact h.step fun _ _ h₁ => .pure h₁
  · exact h.bind (param_gathers hinner group h.tidy) fun v _ hv => .pure (h.push hv)
  · exact h.bind (param_gathers hinner group h.tidy) fun v _ hv => .pure (h.push hv)
  · exact h.bind (forceAdvance_gathers _ h.tidy) fun v _ hv => .pure (h.push hv)

theorem signature_gathers (hinner : inner.Honest doc) (group : ParamGroup) (required : Bool) :
    Gathers doc (signature inner group required) s id := by
  refine fun ht => runs_atKind.2 ?_
  split
  · refine (discard_bump_answers ht).bind fun _ s₁ h₁ => ?_
    refine ((closedBy_answers (fun s₂ ht₂ => Answers.loop (fun r => r.1.toList) (.refl ht₂)
      fun r s₃ h₃ => paramRound_answers hinner h₃) h₁.tidy).imp_fail
        fun _ _ => h₁.upholds.trans).imp fun params s₂ h₂ => ?_
    exact h₁.around h₂.toExplains (h₁.inside h₂)
  · exact (Accounts.refl ht).step fun _ s₁ h₁ => .pure h₁

theorem definitionBody_gathers (hinner : inner.Honest doc) :
    Gathers doc (definitionBody inner) s fun v => [v] := by
  refine fun ht => runs_atKind.2 ?_
  split
  · exact hinner.block s ht
  · exact missing_gathers _ ht

/-- A construct that a keyword opens. -/
theorem construct_gathers {form : Grammar → Parser (Form Node)} (he : Deepens doc enter)
    (hform : ∀ inner s', inner.Honest doc → s'.Tidy →
      Answers doc s' (form inner) s' (Assembles doc s')) :
    Gathers doc (construct enter form) s fun v => [v] := by
  refine fun ht => runs_startOffset.2 ((Accounts.refl ht).step fun _ s₁ h₁ => ?_)
  refine h₁.deeper he fun inner s₂ h₂ hinner => ?_
  refine h₂.bind (hform inner s₂ hinner h₂.tidy) fun f s₃ h₃ => ?_
  refine (h₂.nameless.trans h₃.toMentions).step fun _ s₄ h₄ => runs_spanFrom.2 (.pure ?_)
  exact h₄.make h₃.loose

theorem callableDef_gathers {kind : CallableKind} {name : Parser Name} {group : ParamGroup}
    {required : Bool} (he : Deepens doc enter) (hname : ∀ s, Picks doc name s fun name => [name]) :
    Gathers doc (construct enter (callable kind name group required)) s fun v => [v] := by
  refine construct_gathers he fun inner s₁ hinner ht => (hname s₁ ht).bind fun name s₂ h₂ => ?_
  refine h₂.take (signature_gathers hinner group required) fun params s₃ h₃ => ?_
  exact h₃.take (definitionBody_gathers hinner) fun body s₄ h₄ => .pure ⟨h₄, rfl⟩

theorem procDef_gathers (he : Deepens doc enter) :
    Gathers doc (procDef enter) s fun v => [v] := callableDef_gathers he fun _ => nameWord_picks _

theorem funcDef_gathers (he : Deepens doc enter) :
    Gathers doc (funcDef enter) s fun v => [v] := callableDef_gathers he fun _ => identName_picks _

theorem functionKeyword_gathers (he : Deepens doc enter) :
    Gathers doc (functionKeyword enter) s fun v => [v] := by
  refine fun ht => runs_startOffset.2 ((Accounts.refl ht).step fun _ s₁ h₁ => ?_)
  refine h₁.nameless.read (nameWord_picks _) fun name s₂ h₂ => ?_
  exact h₂.step fun _ s₃ h₃ => shellFunction_answers he h₃

/-! ## Variables -/

theorem typedNames_picks :
    Picks doc typedNames s fun names => names.flatMap fun n => n.name :: n.type.toList := by
  refine fun ht => Mentions.loop (fun names : Array TypedName =>
    names.toList.flatMap fun n => n.name :: n.type.toList) (Accounts.refl ht).nameless
    fun names s₁ h₁ => h₁.read (identName_picks _) fun name s₂ h₂ => ?_
  split
  · exact .pure (h₂.among (List.subset_append_left _ _))
  refine h₂.read identName?_picks fun type s₃ h₃ => h₃.step fun comma s₄ h₄ => ?_
  have hnames : Mentions doc s [] ((names.push ⟨name, type⟩).toList.flatMap
      fun n => n.name :: n.type.toList) s₄ := by
    simpa using h₄
  split
  · exact .pure hnames
  · exact .pure hnames

theorem varDecl_gathers (he : Deepens doc enter) (keyword : DeclKeyword) :
    Gathers doc (varDecl enter keyword) s fun v => [v] := by
  refine fun ht => runs_startOffset.2 ((Accounts.refl ht).step fun _ s₁ h₁ => ?_)
  refine h₁.nameless.read typedNames_picks fun names s₂ h₂ => ?_
  refine h₂.take (afterEaten?_gathers fun _ => exprOrTuple_gathers he) fun value s₃ h₃ => ?_
  exact runs_spanFrom.2 (.pure (h₃.make (f := .varDecl keyword names value) rfl))

/-- A target that consumes nothing is dropped. -/
theorem mutationTargets_gathers (he : Deepens doc enter) :
    Gathers doc (mutationTargets enter) s id := by
  refine fun ht => .loop Array.toList (.refl ht) fun targets s₁ h₁ => ?_
  refine h₁.step fun before s₂ h₂ => ?_
  refine h₂.bind (expression_gathers he _ h₂.tidy) fun target s₃ h₃ => ?_
  refine runs_position.2 ?_
  split
  · exact .pure (h₂.trans h₃).drop
  refine (h₂.push h₃).step fun comma s₄ h₄ => ?_
  split
  · exact .pure h₄
  · exact .pure h₄

theorem mutationValue_gathers (he : Deepens doc enter) :
    Gathers doc (mutationValue enter) s fun r => [r.2] := by
  refine fun ht => (Accounts.refl ht).step fun kind s₁ h₁ => ?_
  split
  · exact h₁.step fun _ s₂ h₂ => h₂.take (exprOrTuple_gathers he) fun v _ h₃ => .pure h₃
  · exact h₁.take (missing_gathers _) fun v _ h₂ => .pure h₂

instance (keyword : MutationKeyword) : Silent (mutationOpener keyword) := by
  unfold mutationOpener
  infer_instance

theorem mutation_gathers (he : Deepens doc enter) (keyword : MutationKeyword) :
    Gathers doc (mutation enter keyword) s fun v => [v] := by
  refine fun ht => runs_startOffset.2 ((Accounts.refl ht).step fun _ s₁ h₁ => ?_)
  refine h₁.take (mutationTargets_gathers he) fun targets s₂ h₂ => ?_
  refine h₂.take (mutationValue_gathers he) fun r s₃ h₃ => runs_spanFrom.2 (.pure ?_)
  exact h₃.make (f := .mutation keyword targets r.1 r.2) rfl

theorem exprStatement_gathers (he : Deepens doc enter) (keyword : ExprKeyword) :
    Gathers doc (exprStatement enter keyword) s fun v => [v] := by
  refine fun ht => runs_startOffset.2 ((Accounts.refl ht).step fun _ s₁ h₁ => ?_)
  refine h₁.take (expression_gathers he 0) fun v s₂ h₂ => runs_spanFrom.2 (.pure ?_)
  exact h₂.make (f := .exprStatement keyword v) rfl

end

end ShellAnalysis.Parse
