import ShellAnalysis.Proofs.Built.Words

/-!
# Expressions that are built

An expression is read one level further in, so an operand is no higher than the
trees of that level and two nodes more.  Every operator folded into it adds one
node.  The chain limit bounds their number, and it counts the operators of all
open expressions, so one expression gets no more than the limit
(`operators_gives`).
-/

namespace ShellAnalysis.Parse

open Text Node

section

variable {doc : Document} {s : State} {h k : Nat} {enter : Parser Grammar} {inner : Grammar}

/-! ## Literals -/

theorem intLiteral_gives : Gives doc intLiteral s (Built doc.text 1) := by
  refine .step fun t s₁ => .step fun text s₂ => ?_
  split
  · exact .pure (built_leaf rfl rfl trivial rfl)
  · exact .step fun _ _ => .pure (built_error _)

theorem floatLiteral_gives : Gives doc floatLiteral s (Built doc.text 1) :=
  .step fun _ _ => .step fun _ _ => .pure (built_leaf rfl rfl trivial rfl)

instance (start : Nat) : Tame (regexContent start) := by
  unfold regexContent
  refine Tame.bind (k := fun text => Tame.bind (k := fun i => Tame.bind (k := fun found => ?_)))
  split
  · infer_instance
  · refine Tame.bind (k := fun _ => ?_)
    split <;> infer_instance

instance : Tame regexClose := by
  unfold regexClose
  infer_instance

theorem regexLiteral_gives : Gives doc regexLiteral s (Built doc.text 1) :=
  .step fun _ _ => .step fun _ _ => .step fun _ _ => .step fun _ _ => .step fun _ _ =>
    .pure (built_leaf rfl rfl trivial rfl)

/-! ## Operands -/

theorem expression_gives (he : Opens doc h enter) (power : Nat) :
    Gives doc (expression enter power) s (Built doc.text h) :=
  (he s).enter fun _ s₁ hinner => hinner.operators power s₁

theorem unary_gives (he : Opens doc h enter) (op : UnaryOp) (power : Nat) :
    Gives doc (unary enter op power) s (Built doc.text (h + 1)) := by
  refine .step fun start s₁ => .step fun _ s₂ => ?_
  refine (expression_gives he power).bind fun v s₃ hv => .step fun span _ => .pure ?_
  exact built_make (List.forall_mem_singleton.2 hv) rfl trivial rfl

theorem moreItems_gives {first : Node} (he : Opens doc h enter) (hfirst : Built doc.text h first) :
    Gives doc (moreItems enter first) s (AllBuilt doc.text h) := by
  refine .loop (fun items => AllBuilt doc.text h items.toList) (.push allBuilt_nil hfirst)
    fun items s₁ hitems => .step fun more s₂ => ?_
  split
  · exact .pure hitems
  refine .step fun start s₃ => ?_
  split
  · exact .pure hitems
  · exact (expression_gives he 0).bind fun v _ hv => .pure (hitems.push hv)

theorem parenOrTuple_gives (he : Opens doc h enter) :
    Gives doc (parenOrTuple enter) s (Built doc.text (h + 1)) := by
  refine .step fun start s₁ => .step fun _ s₂ => .skippingNewlines fun s₃ => ?_
  refine .step fun closed s₄ => ?_
  split
  · exact .step fun span _ => .pure (built_leaf rfl rfl trivial rfl)
  refine (expression_gives he 0).bind fun first s₅ hfirst => .step fun comma s₆ => ?_
  split
  · exact .step fun _ _ => .pure (hfirst.mono (Nat.le_succ h))
  · refine (moreItems_gives he hfirst).bind fun items s₇ hitems => ?_
    exact .step fun _ _ => .step fun span _ => .pure (built_make hitems rfl trivial rfl)

theorem listRound_gives {items : Array Node} (hinner : Grammar.Builds doc h inner)
    (hitems : AllBuilt doc.text h items.toList) :
    Gives doc (listRound inner items) s (Brings (fun items => AllBuilt doc.text h items.toList)
      (AllBuilt doc.text h)) := by
  refine .step fun done s₁ => ?_
  split
  · exact .pure hitems
  refine .step fun _ s₂ => .step fun start s₃ => ?_
  split
  · exact (forceAdvance_gives _ hinner.pos).bind fun v _ hv => .pure (hitems.push hv.1)
  · refine (hinner.expression 0 s₃).bind fun v s₄ hv => .step fun comma s₅ => ?_
    split
    · exact .pure (hitems.push hv)
    · exact .pure (hitems.push hv)

theorem listLiteral_gives (he : Opens doc h enter) :
    Gives doc (listLiteral enter) s (Built doc.text (h + 1)) :=
  bracketed_gives he
    (fun _ _ hinner => .loop (fun items : Array Node => AllBuilt doc.text h items.toList)
      allBuilt_nil
      fun _ _ hitems => listRound_gives hinner hitems)
    fun _ _ hitems => built_make hitems rfl trivial rfl

/-- A key makes an entry with any value. -/
theorem dictKey?_gives (hinner : Grammar.Builds doc h inner) :
    Gives doc (dictKey? inner) s fun key? => ∀ key, key? = some key → ∀ value span,
      AllBuilt doc.text h value.toList →
        Built doc.text (h + 1) (.make (.dictEntry key value) span) := by
  refine .step fun kind s₁ => ?_
  split
  · refine .step fun t s₂ => .tokenText (.pure ?_)
    rintro _ ⟨⟩ value span hvalue
    refine built_named hvalue (fun name hname => ?_) nofun trivial rfl
    rw [List.mem_singleton.1 hname]
    rfl
  split
  · refine .step fun _ s₂ => (hinner.expression 0 s₂).bind fun v s₃ hv => .step fun _ _ => .pure ?_
    rintro _ ⟨⟩ value span hvalue
    exact built_make (List.forall_mem_cons.2 ⟨hv, hvalue⟩) rfl trivial rfl
  split
  · refine (hinner.stringLiteral s₁).bind fun v _ hv => .pure ?_
    rintro _ ⟨⟩ value span hvalue
    exact built_make (List.forall_mem_cons.2 ⟨hv, hvalue⟩) rfl trivial rfl
  · exact .pure nofun

theorem afterEaten?_gives {α : Type} {kind : TokenKind} {p : Parser α} {Q : α → Prop}
    (hp : ∀ s', Gives doc p s' Q) :
    Gives doc (afterEaten? kind p) s fun a? => ∀ a ∈ a?.toList, Q a := by
  refine .step fun eaten s₁ => ?_
  split
  · exact .present (hp s₁)
  · exact .pure nofun

/-- All nodes of a list are built, and each is of one of the kinds that may stand there. -/
def Kept (text : String) (h : Nat) (isKind : Form Node → Bool) (xs : Array Node) : Prop :=
  AllBuilt text h xs.toList ∧ ∀ x ∈ xs.toList, isKind x.form = true

theorem Kept.push {text : String} {isKind : Form Node → Bool} {xs : Array Node} {x : Node}
    (hxs : Kept text h isKind xs) (hx : Built text h x) (hkind : isKind x.form = true) :
    Kept text h isKind (xs.push x) := ⟨hxs.1.push hx, forall_mem_push hxs.2 hkind⟩

theorem kept_nil {text : String} {isKind : Form Node → Bool} : Kept text h isKind #[] :=
  ⟨allBuilt_nil, nofun⟩

theorem dictRound_gives {entries : Array Node} (hinner : Grammar.Builds doc h inner)
    (hentries : Kept doc.text (h + 1) Form.isEntry entries) :
    Gives doc (dictRound inner entries) s (Brings (Kept doc.text (h + 1) Form.isEntry)
      fun entries => Kept doc.text (h + 1) Form.isEntry entries.toArray) := by
  refine .step fun done s₁ => ?_
  split
  · exact .pure hentries
  refine .step fun _ s₂ => .step fun start s₃ => ?_
  refine (dictKey?_gives hinner).bind fun key? s₄ hkey => ?_
  split
  · refine (forceAdvance_gives _ (Nat.succ_pos h)).bind fun v _ ⟨hv, herror⟩ => ?_
    exact .pure (hentries.push hv (by rw [herror]; rfl))
  · rename_i key
    refine (afterEaten?_gives fun s' => hinner.expression 0 s').bind fun value s₅ hvalue => ?_
    refine .step fun span s₆ => .step fun comma s₇ => ?_
    have hpush := hentries.push (hkey key rfl value span hvalue) rfl
    split
    · exact .pure hpush
    · exact .pure hpush

theorem dictLiteral_gives (he : Opens doc h enter) :
    Gives doc (dictLiteral enter) s (Built doc.text (h + 2)) :=
  bracketed_gives he
    (fun _ _ hinner => .loop (Kept doc.text (h + 1) Form.isEntry) kept_nil
      fun _ _ hentries => dictRound_gives hinner hentries)
    fun _ _ hentries => built_make hentries.1 rfl hentries.2 rfl

theorem namedArg_gives (hinner : Grammar.Builds doc h inner) :
    Gives doc (namedArg inner) s fun v =>
      Built doc.text (h + 1) v ∧ v.form.isNamedArg = true := by
  refine .step fun start s₁ => .step fun t s₂ => .step fun _ s₃ => ?_
  refine (hinner.expression 0 s₃).bind fun v s₄ hv => .tokenText (.step fun span _ => .pure ?_)
  refine ⟨built_named (List.forall_mem_singleton.2 hv) (fun name hname => ?_) nofun trivial rfl, rfl⟩
  rw [List.mem_singleton.1 hname]
  rfl

/-- The arguments that were read. -/
structure Arguments.Kept (text : String) (h : Nat) (args : Arguments) : Prop where
  positional : AllBuilt text h args.positional.toList
  named : Parse.Kept text h Form.isNamedArg args.named

theorem argument_gives {args : Arguments} (hinner : Grammar.Builds doc h inner)
    (hargs : args.Kept doc.text (h + 1)) :
    Gives doc (argument inner args) s (Arguments.Kept doc.text (h + 1)) := by
  refine .step fun kind s₁ => .step fun next s₂ => ?_
  split
  · refine (namedArg_gives hinner).bind fun v _ hv => .pure ?_
    exact ⟨hargs.positional, hargs.named.push hv.1 hv.2⟩
  refine .step fun start s₃ => ?_
  split
  · refine (hinner.expression 0 s₃).bind fun v _ hv => .pure ?_
    exact ⟨hargs.positional.push (hv.mono (Nat.le_succ h)), hargs.named⟩
  · refine (forceAdvance_gives _ (Nat.succ_pos h)).bind fun v _ hv => .pure ?_
    exact ⟨hargs.positional.push hv.1, hargs.named⟩

theorem argRound_gives {args : Arguments} (hinner : Grammar.Builds doc h inner)
    (hargs : args.Kept doc.text (h + 1)) :
    Gives doc (argRound inner args) s
      (Brings (Arguments.Kept doc.text (h + 1)) (Arguments.Kept doc.text (h + 1))) := by
  refine .step fun _ s₁ => .step fun before s₂ => .step fun kind s₃ => .step fun done s₄ => ?_
  split
  · exact .pure hargs
  split
  · exact .step fun _ _ => .pure hargs
  refine (argument_gives hinner hargs).bind fun args' s₅ hargs' => .step fun i s₆ => ?_
  split
  · refine (forceAdvance_gives _ (Nat.succ_pos h)).bind fun v _ hv => .pure ?_
    exact ⟨hargs'.positional.push hv.1, hargs'.named⟩
  · exact .pure hargs'

theorem argList_gives (he : Opens doc h enter) :
    Gives doc (argList enter) s (Built doc.text (h + 2)) :=
  bracketed_gives he
    (fun _ _ hinner => .loop (Arguments.Kept doc.text (h + 1)) ⟨allBuilt_nil, kept_nil⟩
      fun _ _ hargs => argRound_gives hinner hargs)
    fun _ _ hargs => built_make (List.forall_mem_append.2 ⟨hargs.positional, hargs.named.1⟩)
      rfl hargs.named.2 rfl

theorem nameOperand_gives (he : Opens doc h enter) (hkind : (s.ahead doc).kind = .ident) :
    Gives doc (nameOperand enter) s (Built doc.text (h + 1)) := by
  refine .current (.tokenText ?_)
  split
  · exact unary_gives he _ _
  · refine .step fun _ _ => .pure (Built.mono ?_ (Nat.succ_pos h))
    split
    · exact built_leaf rfl rfl trivial rfl
    · exact built_leaf rfl rfl trivial rfl
    · exact built_leaf rfl rfl trivial rfl
    · have hne : (s.ahead doc).text doc.text ≠ "" := ahead_text_ne_empty (by rw [hkind]; decide)
      exact built_spelled rfl (List.forall_mem_singleton.2 hne) rfl

theorem operand_gives (he : Opens doc h enter) :
    Gives doc (operand enter) s (Built doc.text (h + 2)) := by
  have hone : ∀ {p : Parser Node} {s : State}, Gives doc p s (Built doc.text 1) →
      Gives doc p s (Built doc.text (h + 2)) := fun hp => hp.imp fun _ hv => hv.mono (by omega)
  have hnext : ∀ {p : Parser Node} {s : State}, Gives doc p s (Built doc.text (h + 1)) →
      Gives doc p s (Built doc.text (h + 2)) := fun hp => hp.imp fun _ hv => hv.mono (Nat.le_succ _)
  refine .currentKind ?_
  split
  · exact hone intLiteral_gives
  · exact hone floatLiteral_gives
  · rename_i hkind
    exact hnext (nameOperand_gives he hkind)
  · exact hnext (parenOrTuple_gives he)
  · exact hnext (listLiteral_gives he)
  · exact dictLiteral_gives he
  · exact hone regexLiteral_gives
  · exact hnext (unary_gives he _ _)
  · exact hnext (unary_gives he _ _)
  · exact hnext (unary_gives he _ _)
  · exact hnext (unary_gives he _ _)
  · exact hnext (unary_gives he _ _)
  split
  · exact stringLiteral_gives he
  · refine (substitution?_gives he).bind fun sub? s₂ hsub => ?_
    split
    · exact .pure ((hsub _ rfl).mono (Nat.le_succ _))
    · exact missing_gives _ (Nat.succ_pos _)

/-! ## Operators -/

theorem subscriptIndex_gives (he : Opens doc h enter) :
    Gives doc (subscriptIndex enter) s (Built doc.text (h + 1)) := by
  refine .step fun start s₁ => (expression_gives he 0).bind fun index s₂ hindex => ?_
  refine .step fun colon s₃ => ?_
  split
  · exact .pure (hindex.mono (Nat.le_succ h))
  refine .step fun more s₄ => ?_
  split
  · exact .pure (hindex.mono (Nat.le_succ h))
  · refine (expression_gives he 0).bind fun last s₅ hlast => .step fun span _ => .pure ?_
    refine built_make (fun c hc => ?_) rfl trivial rfl
    rcases List.mem_cons.1 hc with rfl | hc
    · exact hindex
    · exact List.mem_singleton.1 hc ▸ hlast

theorem eatComparison?_gives : Gives doc eatComparison? s fun op? =>
    AtComparison doc s → op?.isSome = true := by
  intro ht
  refine comparison?_runs.bind fun found s₁ ⟨hs₁, _, hat⟩ => ?_
  subst s₁
  split
  · exact Turns.pure hat ht
  · exact Turns.step (fun _ _ => .pure fun _ => rfl) ht

/-- The construct is built over any span. -/
def Raises (text : String) (h : Nat) (form : Form Node) : Prop :=
  ∀ span, Built text h (.make form span)

/-- Items that were read with operators between them. -/
structure Joined {ω : Type} (text : String) (h : Nat) (ops : Array ω) (items : Array Node) :
    Prop where
  length : items.toList.length = ops.toList.length + 1
  built : AllBuilt text h items.toList

theorem joined_first {ω : Type} {text : String} {first : Node} (hfirst : Built text h first) :
    Joined text h (#[] : Array ω) #[first] := ⟨rfl, .push allBuilt_nil hfirst⟩

theorem Joined.push {ω : Type} {text : String} {ops : Array ω} {items : Array Node} {v : Node}
    (hr : Joined text h ops items) (hv : Built text h v) (op : ω) :
    Joined text h (ops.push op) (items.push v) where
  length := by
    have := hr.length
    simp only [Array.toList_push, List.length_append, List.length_singleton]
    omega
  built := hr.built.push hv

/-- A round reads one more comparison, unless there is one already. -/
theorem comparisonRound_gives {ops : Array CompareOp} {operands : Array Node}
    (he : Opens doc h enter) (hle : h ≤ k) (hr : Joined doc.text k ops operands)
    (hmore : ops.toList ≠ [] ∨ AtComparison doc s) :
    Gives doc (do
      match ← eatComparison? with
      | some op => return .again (ops.push op, operands.push (← expression enter comparePower))
      | none => return .finish (.compare ops.toList operands.toList)) s
      (Brings (fun r => r.1.toList ≠ [] ∧ Joined doc.text k r.1 r.2)
        (Raises doc.text (k + 1))) := by
  refine eatComparison?_gives.bind fun op? s₁ hop => ?_
  split
  · refine (expression_gives he _).bind fun v s₂ hv => .pure ?_
    exact ⟨by simp, hr.push (hv.mono hle) _⟩
  · refine .pure fun span => ?_
    have hne : ops.toList ≠ [] := hmore.resolve_right fun hat => nomatch hop hat
    exact built_make hr.built rfl ⟨hne, hr.length⟩ rfl

theorem comparisonChain_gives {first : Node} (he : Opens doc h enter) (hle : h ≤ k)
    (hfirst : Built doc.text k first) (hat : AtComparison doc s) :
    Gives doc (comparisonChain enter first) s (Raises doc.text (k + 1)) :=
  .loopFrom (fun r => r.1.toList ≠ [] ∧ Joined doc.text k r.1 r.2)
    (comparisonRound_gives he hle (joined_first hfirst) (.inr hat))
    fun _ _ hr => comparisonRound_gives he hle hr.2 (.inl hr.1)

theorem elseOperand_gives (he : Opens doc h enter) (hpos : 0 < k) (hle : h ≤ k) :
    Gives doc (elseOperand enter) s (Built doc.text k) := by
  refine .step fun found s₁ => ?_
  split
  · exact (expression_gives he _).imp fun _ hv => hv.mono hle
  · exact missing_gives _ hpos

theorem identName_gives (what : String) :
    Gives doc (identName what) s (Name.Traced doc.text) := by
  refine .current ?_
  split
  · exact .step fun _ _ => .tokenText (.pure rfl)
  · exact .step fun _ _ => .step fun i _ => .pure (slice_self doc.text i)

/-- One operator is folded around the operand on its left. -/
theorem foldOperator_gives {op : Infix} {lhs : Node} (he : Opens doc h enter) (hle : h + 2 ≤ k)
    (hlhs : Built doc.text k lhs) (hat : op = .compare → AtComparison doc s) :
    Gives doc (foldOperator enter op lhs) s (Raises doc.text (k + 1)) := by
  have hh : h ≤ k := by omega
  have hpair : ∀ {rhs : Node}, Built doc.text k rhs → AllBuilt doc.text k [lhs, rhs] :=
    fun hrhs => List.forall_mem_cons.2 ⟨hlhs, List.forall_mem_singleton.2 hrhs⟩
  unfold foldOperator
  split
  · refine (argList_gives he).bind fun args _ hargs => .pure fun span => ?_
    exact built_make (hpair (hargs.mono hle)) rfl trivial rfl
  · refine .step fun _ s₁ => ?_
    refine (closedBy_gives fun _ => subscriptIndex_gives he).bind fun index _ hindex => ?_
    exact .pure fun span => built_make (hpair (hindex.mono (by omega))) rfl trivial rfl
  · refine .step fun _ s₁ => (identName_gives _).bind fun name _ hname => .pure fun span => ?_
    refine built_named (List.forall_mem_singleton.2 hlhs) (fun n hn => ?_) nofun trivial rfl
    exact List.mem_singleton.1 hn ▸ hname
  · refine .step fun _ s₁ => (expression_gives he _).bind fun rhs _ hrhs => .pure fun span => ?_
    exact built_make (hpair (hrhs.mono hh)) rfl trivial rfl
  · exact comparisonChain_gives he hh hlhs (hat rfl)
  · refine .step fun _ s₁ => (expression_gives he _).bind fun condition s₂ hcondition => ?_
    refine (elseOperand_gives he hlhs.pos hh).bind fun value _ hvalue => .pure fun span => ?_
    exact built_make (List.forall_mem_cons.2 ⟨hlhs, List.forall_mem_cons.2
      ⟨hcondition.mono hh, List.forall_mem_singleton.2 hvalue⟩⟩) rfl trivial rfl
  · refine .step fun _ s₁ => (expression_gives he _).bind fun last _ hlast => .pure fun span => ?_
    exact built_make (hpair (hlast.mono hh)) rfl trivial rfl

/-! ## The chain limit -/

/-- An operator is counted, if the limit leaves room for it. -/
theorem fold_rests (ht : s.Tidy) : Runs doc (fun _ => Rests s) fold s fun _ s' =>
    s' = s.nest (fun n => { n with chain := n.chain + 1 }) ∧
      s.nesting.chain + 1 ≤ doc.limits.chain := by
  show Runs doc _ (if doc.limits.chain < s.nesting.chain + 1 then _ else _) _ _
  split
  · exact ⟨rfl, ht⟩
  · exact ⟨rfl, by omega⟩

/-- An expression with this many operators folded into it, as seen from where it began. -/
structure Chained (doc : Document) (h : Nat) (s : State) (r : Node × Nat) (s' : State) : Prop where
  rests : Rests s s'
  nesting : s'.nesting = { s.nesting with chain := s.nesting.chain + r.2 }
  room : r.2 ≤ doc.limits.chain
  built : Built doc.text (h + 2 + r.2) r.1

theorem operatorRound_chained {power start : Nat} {s₁ : State} {r : Node × Nat}
    (he : Opens doc h enter) (hr : Chained doc h s r s₁) :
    Runs doc (fun _ => Rests s) (operatorRound enter power start r.1 r.2) s₁
      (Next (Chained doc h s) (Chained doc h s)) := by
  refine infixOp?_runs.bind fun op? s' h' => ?_
  obtain ⟨hs', hop⟩ := h'
  subst s'
  cases op? with
  | none => exact hr
  | some op =>
    simp only
    split
    · exact hr
    · refine ((fold_rests hr.rests.tidy).imp_fail fun _ _ => hr.rests.trans).bind ?_
      rintro _ _ ⟨rfl, hroom⟩
      have hrests : ∀ {s' : State}, Rests (s₁.nest fun n => { n with chain := n.chain + 1 }) s' →
          Rests s s' := fun h => hr.rests.trans ⟨h.statements, h.tidy⟩
      have hform := foldOperator_gives (s := s₁.nest fun n => { n with chain := n.chain + 1 }) he
        (Nat.le_add_right (h + 2) r.2) hr.built fun heq => ((hop op rfl).2 heq).congr rfl rfl
      refine ((hform hr.rests.tidy).imp_fail fun _ _ => hrests).bind
        fun form s₂ ⟨hrests₂, hnesting, hraises⟩ => ?_
      rw [runs_spanFrom]
      have hroom : s.nesting.chain + r.2 + 1 ≤ doc.limits.chain := by
        rw [hr.nesting] at hroom
        exact hroom
      refine .pure ⟨hrests hrests₂, ?_, by show r.2 + 1 ≤ _; omega, hraises _⟩
      rw [hnesting]
      show { s₁.nesting with chain := s₁.nesting.chain + 1 } = _
      rw [hr.nesting]
      rfl

theorem operators_gives (he : Opens doc h enter) (power : Nat) :
    Leaves doc (operators enter power) s (Built doc.text (h + 2 + doc.limits.chain)) := by
  refine .step fun start s₁ => (operand_gives he).bind fun first s₂ hfirst => ?_
  intro ht
  refine Runs.bind (Runs.loop (Chained doc h s₂) (fun _ _ hr => hr.rests)
    (operatorRound_chained he (r := (first, 0)) ⟨ht.rests, rfl, Nat.zero_le _, hfirst⟩)
    fun r s₃ hr => operatorRound_chained he hr) fun r s₃ hr => ?_
  rw [runs_releaseFolds, runs_ascend]
  refine .pure ⟨⟨hr.rests.statements, hr.rests.tidy⟩, ?_, hr.built.mono ?_⟩
  · show Nesting.outward { s₃.nesting with chain := s₃.nesting.chain - r.2 } = _
    rw [hr.nesting]
    simp only [Nat.add_sub_cancel]
  · have := hr.room
    omega

/-! ## Around expressions -/

theorem exprOrTuple_gives (he : Opens doc h enter) :
    Gives doc (exprOrTuple enter) s (Built doc.text (h + 1)) := by
  refine .step fun start s₁ => (expression_gives he 0).bind fun first s₂ hfirst => ?_
  refine .step fun comma s₃ => ?_
  split
  · exact .pure (hfirst.mono (Nat.le_succ h))
  · refine (moreItems_gives he hfirst).bind fun items s₄ hitems => ?_
    exact .step fun span _ => .pure (built_make hitems rfl trivial rfl)

theorem parenExpr_gives (hinner : Grammar.Builds doc h inner) :
    Gives doc (parenExpr inner) s (Built doc.text h) :=
  .step fun _ _ => closedBy_gives fun s₁ => hinner.expression 0 s₁

end

end ShellAnalysis.Parse
