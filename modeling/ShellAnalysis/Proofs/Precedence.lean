import ShellAnalysis.Proofs.Printing
import ShellAnalysis.Proofs.Reading

/-!
# Reading by binding powers

An expression is an operand and the operators folded into it by one loop.
`Reads w k M power close` says what that loop does with a text `w` of `k`
tokens: started with any binding power up to `power`, and where nothing follows
that binds as strongly as `close`, it comes to a point right behind `w` with a
tree that is as `M` says.  What it does from there is left open, so that `w` may
be the left operand of what follows.

    Reads w k M power close → p ≤ power → p ≤ close → Closes p rest →
      `expression p` reads exactly `w` from `w ++ rest`          (Reads.expression)

There is one rule for operands (`Reads.of_operand`) and one for an operator with
what stands on its right (`Reads.fold`).
-/

namespace ShellAnalysis.Parse

open Text Lexer

/-! ## Room for the work -/

/-- The limits leave room for `count` more tokens and as many operators, and for `levels` more
constructs. -/
structure Room (doc : Document) (levels : Nat) (s : State) (count : Nat) : Prop where
  tokens : s.tokens + count ≤ doc.limits.tokens
  chain : s.nesting.chain + count ≤ doc.limits.chain
  depth : s.nesting.depth + levels ≤ doc.limits.depth

section

variable {doc : Document} {s : State} {n k l m folds : Nat}

theorem Room.mono (h : Room doc n s k) (hmk : m ≤ k) : Room doc n s m where
  tokens := Nat.le_trans (Nat.add_le_add_left hmk _) h.tokens
  chain := Nat.le_trans (Nat.add_le_add_left hmk _) h.chain
  depth := h.depth

/-- What was read is taken off. -/
theorem Room.reach (h : Room doc n s k) (i : Nat) (hle : m + l ≤ k) (hfolds : folds ≤ m) :
    Room doc n (s.reach i m folds) l where
  tokens := by
    have := h.tokens
    show s.tokens + m + l ≤ _
    omega
  chain := by
    have := h.chain
    show s.nesting.chain + folds + l ≤ _
    omega
  depth := h.depth

theorem Room.skipping (h : Room doc n s k) : Room doc n s.skipping k :=
  ⟨h.tokens, h.chain, h.depth⟩

theorem fold_eq (h : s.nesting.chain + 1 ≤ doc.limits.chain) :
    fold doc s = .ok () (s.reach s.pos 0 1) := by
  show (if doc.limits.chain < s.nesting.chain + 1 then _ else _ : Parser Unit) doc _ = _
  rw [if_neg (by omega)]
  rfl

theorem enterLevel_eq (h : s.nesting.depth + 1 ≤ doc.limits.depth) :
    enterLevel (n + 1) doc s = .ok (.over (enterLevel n)) s.deeper := by
  have hdescend : descend doc s = .ok () s.deeper := by
    show (if doc.limits.depth < s.nesting.depth + 1 then _ else _ : Parser Unit) doc _ = _
    rw [if_neg (by omega)]
    rfl
  exact bind_of_eq (f := fun _ => (pure (Grammar.over (enterLevel n)) : Parser Grammar)) hdescend

/-- A construct is left in the state that it was entered in, but for what was read. -/
theorem shallower_release (s : State) (i count folds : Nat) :
    ((s.deeper.reach i count folds).nest fun n =>
      { n with chain := n.chain - folds }).shallower = s.reach i count 0 := by
  simp [State.deeper, State.shallower, State.nest, State.reach]

end

/-- The result is as `M` says, and `count` tokens were read up to `rest`, with `folds` more
operators open. -/
def Arrives {α : Type} (doc : Document) (s : State) (count folds : Nat) (rest : String)
    (M : α → Prop) (a : α) (s' : State) : Prop :=
  M a ∧ ∃ j, Rest doc.text j rest ∧ s' = s.reach j count folds

/-- What was read before is counted too. -/
theorem Arrives.trans {α : Type} {doc : Document} {s s' : State} {i m n k l : Nat} {rest : String}
    {M : α → Prop} {a : α} (h : Arrives doc (s.reach i m k) n l rest M a s') :
    Arrives doc s (m + n) (k + l) rest M a s' := by
  obtain ⟨ha, j, hj, rfl⟩ := h
  exact ⟨ha, j, hj, State.reach_reach ..⟩

/-! ## The loop over operators -/

/-- One round of the loop at a level with `n` more below it. -/
def operatorLoop (n power start : Nat) : Node × Nat → Parser (Round (Node × Nat) (Node × Nat)) :=
  fun (lhs, folds) => operatorRound (enterLevel n) power start lhs folds

/-- An operand and the loop after it. -/
def folding (n power start : Nat) : Parser (Node × Nat) := do
  let first ← operand (enterLevel n)
  repeatRounds (first, 0) (operatorLoop n power start)

/-- The loop comes to an end before what does not bind strongly enough. -/
theorem Closes.loops {doc : Document} {s : State} {n power start folds : Nat} {rest : String}
    {v : Node} {Q : Node × Nat → State → Prop} (h : Closes power rest)
    (hrest : Rest doc.text s.pos rest) (hQ : Q (v, folds) s) :
    Loops doc (operatorLoop n power start) (v, folds) s Q := by
  obtain ⟨-, op?, hfinds, hlt⟩ := h
  refine .step ?_
  show Runs doc Never (operatorRound (enterLevel n) power start v folds) s _
  unfold operatorRound
  rw [runs_of_eq (hfinds.infixOp hrest)]
  cases op? with
  | none => exact .pure hQ
  | some op =>
    simp only [if_pos (hlt op rfl)]
    exact .pure hQ

/-- What the loop does with a text, whatever follows that binds less. -/
structure Reads (w : String) (k : Nat) (M : Node → Prop) (power close : Nat) : Prop where
  pos : 0 < k
  reads : ∀ {doc n s rest p start} {Q : Node × Nat → State → Prop},
    Comes doc.text s.pos (w ++ rest) → Closes close rest → p ≤ power → Room doc n s k →
    k ≤ n + 1 →
    (∀ v j folds, M v → folds ≤ k → Rest doc.text j rest →
      Loops doc (operatorLoop n p start) (v, folds) (s.reach j k folds) Q) →
    Runs doc Never (folding n p start) s Q

section

variable {w : String} {k power close : Nat} {M : Node → Prop}

theorem Reads.mono {power' close' : Nat} (h : Reads w k M power close) (hpower : power' ≤ power)
    (hclose : close' ≤ close) : Reads w k M power' close' where
  pos := h.pos
  reads := fun hf hc hp => h.reads hf (hc.mono hclose) (Nat.le_trans hp hpower)

/-- A text that is read as an operand is read with any binding power. -/
theorem Reads.of_operand (hpos : 0 < k)
    (h : ∀ {doc n s rest}, Comes doc.text s.pos (w ++ rest) → Closes close rest →
      Room doc n s k → k ≤ n + 1 →
      Runs doc Never (operand (enterLevel n)) s (Arrives doc s k 0 rest M)) :
    Reads w k M power close where
  pos := hpos
  reads := by
    intro doc n s rest p start Q hf hc _ hroom hk hloops
    refine (h hf hc hroom hk).bind ?_
    rintro v _ ⟨hv, j, hj, rfl⟩
    exact (hloops v j 0 hv (Nat.zero_le k) hj).repeatRounds

theorem Runs.bind_bind {α β γ : Type} {doc : Document} {fail : Stopped → State → Prop}
    {p : Parser α} {f : α → Parser β} {g : β → Parser γ} {s : State} {R : β → State → Prop}
    {Q : γ → State → Prop} (h : Runs doc fail (p >>= f) s R)
    (hg : ∀ b s', R b s' → Runs doc fail (g b) s' Q) :
    Runs doc fail (p >>= fun a => f a >>= g) s Q := by
  have := h.bind hg
  rwa [bind_assoc] at this

/-- A whole expression: it ends where nothing follows that binds as strongly as it was asked for. -/
theorem Reads.expression {doc : Document} {n p : Nat} {s : State} {rest : String}
    (h : Reads w k M power close) (hpower : p ≤ power) (hclose : p ≤ close)
    (hf : Comes doc.text s.pos (w ++ rest)) (hc : Closes p rest) (hroom : Room doc n s k)
    (hk : k ≤ n) :
    Runs doc Never (expression (enterLevel n) p) s (Arrives doc s k 0 rest M) := by
  have hpos := h.pos
  have hdepth := hroom.depth
  obtain ⟨m, rfl⟩ : ∃ m, n = m + 1 := ⟨n - 1, by omega⟩
  unfold Parse.expression
  rw [runs_of_eq (enterLevel_eq (by omega))]
  show Runs doc Never (operators (enterLevel m) p) s.deeper _
  unfold operators
  rw [runs_startOffset]
  have hinner : Room doc m s.deeper k :=
    ⟨hroom.tokens, hroom.chain, show s.nesting.depth + 1 + m ≤ _ by omega⟩
  refine Runs.bind_bind (R := fun r s' => M r.1 ∧ ∃ j, Rest doc.text j rest ∧
    s' = s.deeper.reach j k r.2) ?_ ?_
  · refine h.reads hf (hc.mono hclose) hpower hinner hk fun v j folds hv _ hj => ?_
    exact hc.loops hj ⟨hv, j, hj, rfl⟩
  · rintro ⟨v, folds⟩ _ ⟨hv, j, hj, rfl⟩
    rw [runs_releaseFolds, runs_ascend, shallower_release]
    exact .pure ⟨hv, j, hj, rfl⟩

/-! ## Operators with what stands on their right -/

/-- What folding an operator into `lhs` does with the text from the operator on. -/
structure Folds (tail : String) (k : Nat) (op : Infix) (lhs : Node → Prop) (M : Form Node → Prop)
    (close : Nat) : Prop where
  pos : 0 < k
  finds : ∀ rest, Finds (" " ++ (tail ++ rest)) (some op)
  gives : ∀ {doc n s rest v}, lhs v → Rest doc.text s.pos (" " ++ (tail ++ rest)) →
    Closes close rest → Room doc n s k → k ≤ n + 1 →
    Runs doc Never (fold >>= fun _ => foldOperator (enterLevel n) op v) s
      (Arrives doc s k 1 rest M)

/-- A left operand that binds strongly enough is folded into the operator after it. -/
theorem Reads.fold {tail : String} {k' close' : Nat} {op : Infix} {M' : Form Node → Prop}
    (h : Reads w k M power close) (hop : Folds tail k' op M M' close')
    (hpower : op.powers.1 ≤ power) (hclose : op.powers.1 < close) :
    Reads (w ++ (" " ++ tail)) (k + k') (fun v => M' v.form) op.powers.1 close' where
  pos := Nat.lt_of_lt_of_le h.pos (Nat.le_add_right k k')
  reads := by
    intro doc n s rest p start Q hf hc hp hroom hk hloops
    rw [String.append_assoc, String.append_assoc] at hf
    -- The loop reads the left operand and stands in front of the operator: one more round.
    refine h.reads hf ((hop.finds rest).closes hclose) (Nat.le_trans hp hpower)
      (hroom.mono (Nat.le_add_right k k')) (by omega) fun v j folds hv hfolds hj => ?_
    refine .step ?_
    show Runs doc Never (operatorRound (enterLevel n) p start v folds) _ _
    unfold operatorRound
    rw [runs_of_eq ((hop.finds rest).infixOp hj)]
    simp only [if_neg (Nat.not_lt.2 hp)]
    refine Runs.bind_bind (hop.gives hv hj hc (hroom.reach j (Nat.le_refl _) hfolds) (by omega)) ?_
    rintro f _ ⟨hf', j', hj', rfl⟩
    rw [runs_spanFrom, State.reach_reach]
    have hfolds' : folds + 1 ≤ k + k' := Nat.add_le_add hfolds hop.pos
    exact .pure ⟨⟨hj'.le_size, hloops _ j' (folds + 1) hf' hfolds' hj'⟩, hj.lt_of_space hj'⟩

end

/-! ## Operands -/

section

variable {w : String} {k power close : Nat} {M : Node → Prop}

theorem reads_int {value : Nat} (h : value ≤ maxInt) :
    Reads value.repr 1 (fun v => v.form = .literal (.int value)) power close :=
  .of_operand Nat.one_pos fun {doc n s rest} hf hc hroom _ => by
    have hsees := sees_word hf (spells_digits (isDigits_repr value) hc.1)
    unfold operand
    rw [runs_currentKind, hsees.kind]
    show Runs doc Never intLiteral s _
    unfold intLiteral
    rw [runs_of_eq (bump_eq (by rw [hsees.kind]; decide) hroom.tokens), runs_tokenText, hsees.text]
    simp only [intValue?_repr h]
    exact .pure ⟨rfl, _, hsees.rest, rfl⟩

/-- A variable is an operand. -/
theorem operand_var {doc : Document} {n : Nat} {s : State} {rest : String} (x : Variable)
    (hf : Comes doc.text s.pos (x.name ++ rest)) (hended : Ended rest)
    (hroom : s.tokens + 1 ≤ doc.limits.tokens) :
    Runs doc Never (operand (enterLevel n)) s
      (Arrives doc s 1 0 rest fun v => v.form = .var x.name) := by
  have hsees := sees_word hf (spells_name x.isName hended)
  have hfree := x.free
  simp only [reservedNames, List.mem_cons, not_or] at hfree
  obtain ⟨htrue, hfalse, hnull, hnot, -⟩ := hfree
  unfold operand
  rw [runs_currentKind, hsees.kind]
  show Runs doc Never (nameOperand (enterLevel n)) s _
  unfold nameOperand
  rw [runs_current, runs_tokenText, hsees.text, if_neg (by simpa using hnot),
    runs_of_eq (discard_bump_eq (by rw [hsees.kind]; decide) hroom)]
  refine .pure ⟨?_, _, hsees.rest, rfl⟩
  simp only [Node.make, Node.form]

theorem reads_var (x : Variable) :
    Reads x.name 1 (fun v => v.form = .var x.name) power close :=
  .of_operand Nat.one_pos fun hf hc hroom _ => operand_var x hf hc.1 hroom.tokens

/-- The first token of the text does not close a parenthesis, and it is the word `not` only if the
text binds loosely. -/
def Begins (w : String) (loose : Prop) : Prop :=
  ∀ tail, Ended tail → ∃ word kind tail', w ++ tail = word ++ tail' ∧ Spells word kind tail' ∧
    kind ≠ .parenClose ∧ (kind = .ident → word = "not" → loose)

/-- What stands behind a space does not change the first token. -/
theorem Begins.append {loose : Prop} (h : Begins w loose) (more : String) :
    Begins (w ++ (" " ++ more)) loose := by
  intro tail _
  obtain ⟨word, kind, tail', heq, hrest⟩ := h (" " ++ (more ++ tail)) (ended_space _)
  exact ⟨word, kind, tail', by rw [String.append_assoc, String.append_assoc, heq], hrest⟩

theorem Begins.imp {w : String} {loose loose' : Prop} (h : Begins w loose)
    (himp : loose → loose') : Begins w loose' := by
  intro tail hended
  obtain ⟨word, kind, tail', heq, hword, hkind, hnot⟩ := h tail hended
  exact ⟨word, kind, tail', heq, hword, hkind, fun hident hw => himp (hnot hident hw)⟩

/-- A parser that gives a result in a nesting gives it in the nesting that it is left for. -/
theorem within_of_ok {α : Type} {doc : Document} {enter : Nesting → Nesting}
    {leave : Nesting → Option Nesting} {p : Parser α} {s s' : State} {a : α} {nesting : Nesting}
    (hp : p doc (s.nest enter) = .ok a s') (hleave : leave s'.nesting = some nesting) :
    within enter leave p doc s = .ok a { s' with nesting } := by
  have hp' : p doc { s with nesting := enter s.nesting } = .ok a s' := hp
  simp only [within, hp', hleave]

/-- Brackets in which newlines are blanks leave no trace. -/
theorem skippingNewlines_arrives {α : Type} {doc : Document} {p : Parser α} {s : State}
    {rest : String} {N : α → Prop}
    (h : Runs doc Never p s.skipping (Arrives doc s.skipping k 0 rest N)) :
    Runs doc Never (skippingNewlines p) s (Arrives doc s k 0 rest N) := by
  unfold Runs at h ⊢
  cases hp : p doc s.skipping with
  | ok a s' =>
    rw [hp] at h
    obtain ⟨hN, j, hj, rfl⟩ := h
    have hrun : skippingNewlines p doc s = .ok a (s.reach j k 0) := within_of_ok hp rfl
    rw [hrun]
    exact ⟨hN, j, hj, rfl⟩
  | error e s' =>
    rw [hp] at h
    exact h.elim

/-- An expression in parentheses is an operand, and has the tree of the expression. -/
theorem operand_paren {doc : Document} {n : Nat} {s : State} {rest : String} {loose : Prop}
    (hf : Comes doc.text s.pos ("(" ++ (w ++ (")" ++ rest)))) (hended : Ended rest)
    (hbegins : Begins w loose) (hroom : s.tokens + (k + 2) ≤ doc.limits.tokens)
    (hinner : ∀ j, Rest doc.text j (w ++ (")" ++ rest)) →
      Runs doc Never (expression (enterLevel n) 0) (s.reach j 1 0).skipping
        (Arrives doc (s.reach j 1 0).skipping k 0 (")" ++ rest) M)) :
    Runs doc Never (operand (enterLevel n)) s (Arrives doc s (k + 2) 0 rest M) := by
  have hopen := spells_parenOpen (w ++ (")" ++ rest))
  obtain ⟨j, hj, hbump⟩ := discard_bump_word hopen hf (by omega)
  unfold operand
  rw [runs_currentKind, (sees_word hf hopen).kind]
  show Runs doc Never (parenOrTuple (enterLevel n)) s _
  unfold parenOrTuple
  rw [runs_startOffset, runs_of_eq hbump]
  have hsum : k + 2 = 1 + (k + 1) := by omega
  rw [hsum]
  refine (skippingNewlines_arrives ?_).imp fun _ _ => Arrives.trans
  -- What follows is no `)`, so this is not the empty tuple.
  obtain ⟨word, kind, tail, heq, hw, hkind, -⟩ := hbegins (")" ++ rest) (ended_parenClose rest)
  have hfirst := sees_word (s := (s.reach j 1 0).skipping) (.inl (heq ▸ hj)) hw
  rw [runs_of_eq (eat_false (by rw [hfirst.kind]; exact hkind)), if_neg (by decide)]
  refine (hinner j hj).bind ?_
  rintro v _ ⟨hv, i, hi, rfl⟩
  have hclose := spells_fixed (show Fixed ")" .parenClose by decide) hended
  have hsees := sees_word (s := (s.reach j 1 0).skipping.reach i k 0) (.inl hi) hclose
  have hlast : s.tokens + 1 + k + 1 ≤ doc.limits.tokens := by omega
  obtain ⟨i', hi', hexpect⟩ :=
    expect_true (s := (s.reach j 1 0).skipping.reach i k 0) "`)`" hclose (.inl hi) hlast
  rw [runs_atKind, hsees.kind, if_pos (by decide), runs_of_eq hexpect, State.reach_reach]
  exact .pure ⟨hv, i', hi', rfl⟩

theorem Reads.paren {loose : Prop} {power' close' : Nat} (h : Reads w k M power close)
    (hbegins : Begins w loose) : Reads ("(" ++ (w ++ ")")) (k + 2) M power' close' :=
  .of_operand (Nat.succ_pos _) fun {doc n s rest} hf hc hroom hk => by
    rw [String.append_assoc, String.append_assoc] at hf
    have hclosing : Closes 0 (")" ++ rest) :=
      (finds_parenClose rest hc.1).closes_none (ended_parenClose rest)
    refine operand_paren hf hc.1 hbegins hroom.tokens fun j hj => ?_
    have hinner : Room doc n (s.reach j 1 0).skipping k :=
      (hroom.reach j (by omega) (Nat.zero_le 1)).skipping
    exact h.expression (Nat.zero_le _) (Nat.zero_le _) (.inl hj) hclosing hinner (by omega)

/-! ### Prefix operators -/

/-- The power of the operand of a prefix operator. -/
def signPower : Sign → Nat
  | .not => notPower
  | _ => unaryPower

theorem spells_sign (sign : Sign) (tail : String) :
    ∃ kind, Spells sign.symbol kind (" " ++ tail) := by
  cases sign with
  | neg => exact ⟨.minus, spells_fixed (by decide) (ended_space tail)⟩
  | pos => exact ⟨.plus, spells_fixed (by decide) (ended_space tail)⟩
  | bitNot => exact ⟨.tilde, spells_fixed (by decide) (ended_space tail)⟩
  | not => exact ⟨.ident, spells_name (by decide) (ended_space tail)⟩

/-- A prefix operator makes a unary expression. -/
theorem runs_operand_sign {doc : Document} {fail : Stopped → State → Prop} {s : State}
    {enter : Parser Grammar} {sign : Sign} {tail : String} {Q : Node → State → Prop}
    (hf : Comes doc.text s.pos (sign.symbol ++ (" " ++ tail))) :
    Runs doc fail (operand enter) s Q ↔
      Runs doc fail (unary enter sign.op (signPower sign)) s Q := by
  have hfixed : ∀ {word} kind, Fixed word kind → Comes doc.text s.pos (word ++ (" " ++ tail)) →
      (s.ahead doc).kind = kind :=
    fun _ hword h => (sees_word h (spells_fixed hword (ended_space tail))).kind
  unfold operand
  rw [runs_currentKind]
  cases sign with
  | neg =>
    rw [hfixed .minus (by decide) hf]
    rfl
  | pos =>
    rw [hfixed .plus (by decide) hf]
    rfl
  | bitNot =>
    rw [hfixed .tilde (by decide) hf]
    rfl
  | not =>
    have hsees := sees_word hf (spells_name (by decide) (ended_space tail))
    rw [hsees.kind]
    show Runs doc fail (nameOperand enter) s Q ↔ _
    unfold nameOperand
    rw [runs_current, runs_tokenText, hsees.text, if_pos (by decide)]
    rfl

theorem Reads.unary {power' : Nat} (sign : Sign) (h : Reads w k M power close)
    (hpower : signPower sign ≤ power) (hclose : signPower sign ≤ close) :
    Reads (sign.symbol ++ (" " ++ w)) (1 + k) (fun v => ∃ x, v.form = .unary sign.op x ∧ M x)
      power' (signPower sign) :=
  .of_operand (Nat.add_pos_left Nat.one_pos k) fun {doc n s rest} hf hc hroom hk => by
    rw [String.append_assoc, String.append_assoc] at hf
    obtain ⟨kind, hsign⟩ := spells_sign sign (w ++ rest)
    obtain ⟨j, hj, hbump⟩ :=
      discard_bump_word hsign hf (hroom.mono (Nat.le_add_right 1 k)).tokens
    rw [runs_operand_sign hf]
    unfold Parse.unary
    rw [runs_startOffset, runs_of_eq hbump]
    refine (h.expression hpower hclose (.inr hj) hc
      (hroom.reach j (Nat.le_refl _) (Nat.zero_le 1)) (by omega)).bind ?_
    rintro x _ ⟨hx, i, hi, rfl⟩
    rw [runs_spanFrom, State.reach_reach]
    exact .pure ⟨⟨x, rfl, hx⟩, i, hi, rfl⟩

end

/-! ## Operators between operands -/

/-- Between spaces the word stands for the operator. -/
structure Marks (word : String) (op : Infix) : Prop where
  spells : ∀ tail, ∃ kind, Spells word kind (" " ++ tail)
  finds : ∀ tail, Finds (" " ++ (word ++ (" " ++ tail))) (some op)

theorem marks_fixed {word : String} {op : Infix} (kind : TokenKind) (hword : Fixed word kind)
    (hop : infixOfKind? kind = some op)
    (hkind : kind ≠ .ident ∧ kind ≠ .parenOpen ∧ kind ≠ .bracketOpen) : Marks word op where
  spells := fun tail => ⟨kind, spells_fixed hword (ended_space tail)⟩
  finds := fun _ => hop ▸ finds_fixed hword hkind

theorem marks_word {word : String} {op : Infix} (hname : IsName word)
    (hop : infixOfWord? word = some op) : Marks word op where
  spells := fun tail => ⟨.ident, spells_name hname (ended_space tail)⟩
  finds := fun tail => by
    have hnot : word ≠ "not" := by
      rintro rfl
      cases hop
    exact hop ▸ finds_word hname hnot

/-- The token of a binary operator. -/
def binaryKind : BinaryOp → TokenKind
  | .or | .and => .ident
  | .bitOr => .pipe
  | .bitXor => .caret
  | .bitAnd => .amp
  | .shl => .lessLess
  | .shr => .greaterGreater
  | .add => .plus
  | .sub => .minus
  | .concat => .plusPlus
  | .mul => .star
  | .div => .slash
  | .floorDiv => .slashSlash
  | .mod => .percent
  | .pow => .starStar

theorem fixed_binary (op : BinaryOp) (h : binaryKind op ≠ .ident) :
    Fixed op.symbol (binaryKind op) ∧ infixOfKind? (binaryKind op) = some (.binary op) ∧
      binaryKind op ≠ .parenOpen ∧ binaryKind op ≠ .bracketOpen := by
  revert h
  cases op <;> decide

theorem marks_binary (op : BinaryOp) : Marks op.symbol (.binary op) := by
  by_cases h : binaryKind op = .ident
  · cases op <;> first | exact marks_word (by decide) rfl | cases h
  · obtain ⟨hword, hop, hkind⟩ := fixed_binary op h
    exact marks_fixed _ hword hop ⟨h, hkind⟩

theorem marks_range (mark : RangeMark) : Marks mark.symbol (.range mark.op) := by
  cases mark with
  | plain => exact marks_fixed .dotDot (by decide) rfl (by decide)
  | exclusive => exact marks_fixed .dotDotLess (by decide) rfl (by decide)
  | inclusive => exact marks_fixed .dotDotEqual (by decide) rfl (by decide)

theorem marks_if : Marks "if" .ternary := marks_word (by decide) rfl

section

variable {w word : String} {k power close : Nat} {op : Infix} {A B C : Node → Prop}

/-- The operator is counted and consumed. -/
theorem Marks.enters {doc : Document} {s : State} {n : Nat} {tail : String} (h : Marks word op)
    (hrest : Rest doc.text s.pos (" " ++ (word ++ (" " ++ tail)))) (hroom : Room doc n s 1) :
    ∃ j, Rest doc.text j (" " ++ tail) ∧ ∀ {β : Type} {f : Unit → Parser β}
      {Q : β → State → Prop}, Runs doc Never (fold >>= fun _ => discard bump >>= f) s Q ↔
        Runs doc Never (f ()) (s.reach j 1 1) Q := by
  obtain ⟨kind, hword⟩ := h.spells tail
  obtain ⟨j, hj, hbump⟩ :=
    discard_bump_word (s := s.reach s.pos 0 1) hword (.inr hrest) hroom.tokens
  refine ⟨j, hj, fun {β f Q} => ?_⟩
  rw [runs_of_eq (fold_eq hroom.chain), runs_of_eq hbump, State.reach_reach]

/-- An operator with one operand on its right. -/
theorem Reads.folds {form : Node → Node → Form Node} (h : Reads w k B power close)
    (hmark : Marks word op)
    (hfold : ∀ enter v, foldOperator enter op v =
      discard bump >>= fun _ => Parse.expression enter op.powers.2 >>= fun y => pure (form v y))
    (hpower : op.powers.2 ≤ power) (hclose : op.powers.2 ≤ close) :
    Folds (word ++ (" " ++ w)) (1 + k) op A (fun f => ∃ x y, f = form x y ∧ A x ∧ B y)
      op.powers.2 where
  pos := Nat.add_pos_left Nat.one_pos k
  finds := fun rest => by
    rw [String.append_assoc, String.append_assoc]
    exact hmark.finds (w ++ rest)
  gives := by
    intro doc n s rest v hv hrest hc hroom hk
    rw [String.append_assoc, String.append_assoc] at hrest
    obtain ⟨j, hj, henters⟩ := hmark.enters hrest (hroom.mono (Nat.le_add_right 1 k))
    rw [hfold, henters]
    refine (h.expression hpower hclose (.inr hj) hc
      (hroom.reach j (Nat.le_refl _) (Nat.le_refl 1)) (by omega)).bind ?_
    rintro y _ ⟨hy, i, hi, rfl⟩
    rw [State.reach_reach]
    exact .pure ⟨⟨v, y, rfl, hv, hy⟩, i, hi, rfl⟩

/-- A ternary: the condition ends before `else`. -/
theorem folds_ternary {wc wb : String} {kc kb pc pb cc cb : Nat} (hcond : Reads wc kc C pc cc)
    (helse : Reads wb kb B pb cb) (hpc : 3 ≤ pc) (hcc : 3 ≤ cc) (hpb : 2 ≤ pb) (hcb : 2 ≤ cb) :
    Folds ("if" ++ (" " ++ (wc ++ (" " ++ ("else" ++ (" " ++ wb)))))) (1 + (kc + (1 + kb)))
      .ternary A (fun f => ∃ x z y, f = .ternary x z y ∧ A x ∧ C z ∧ B y) 2 where
  pos := Nat.add_pos_left Nat.one_pos _
  finds := fun rest => by
    rw [String.append_assoc, String.append_assoc]
    exact marks_if.finds _
  gives := by
    intro doc n s rest v hv hrest hc hroom hk
    simp only [String.append_assoc] at hrest
    obtain ⟨j, hj, henters⟩ := marks_if.enters hrest (hroom.mono (by omega))
    unfold foldOperator
    rw [henters]
    have hwords : Closes 3 (" " ++ ("else" ++ (" " ++ (wb ++ rest)))) :=
      Finds.closes_none (finds_word (show IsName "else" by decide) (by decide)) (ended_space _)
    refine (hcond.expression hpc hcc (.inr hj) hwords
      (hroom.reach j (by omega) (Nat.le_refl 1)) (by omega)).bind ?_
    rintro z _ ⟨hz, i, hi, rfl⟩
    rw [State.reach_reach]
    have hroom' : Room doc n (s.reach i (1 + kc) 1) (1 + kb) :=
      hroom.reach i (by omega) (by omega)
    obtain ⟨i', hi', heat⟩ := eatKeyword_true (show IsName "else" by decide) hi
      (hroom'.mono (Nat.le_add_right 1 kb)).tokens
    unfold elseOperand
    refine Runs.bind (R := Arrives doc s (1 + (kc + (1 + kb))) 1 rest B) ?_ ?_
    · rw [runs_of_eq heat, if_pos rfl]
      refine (helse.expression hpb hcb (.inr hi') hc
        (hroom'.reach i' (Nat.le_refl _) (Nat.zero_le 1)) (by omega)).imp fun y s' hy => ?_
      have hsum : 1 + (kc + (1 + kb)) = 1 + kc + (1 + kb) := by omega
      rw [hsum]
      exact hy.trans.trans
    · rintro y _ ⟨hy, i'', hi'', rfl⟩
      exact .pure ⟨⟨v, z, y, rfl, hv, hz, hy⟩, i'', hi'', rfl⟩

end

/-! ## Comparisons -/

/-- The token of a comparison that is not made of names. -/
def compareKind : CompareOp → TokenKind
  | .identical => .equalEqualEqual
  | .notIdentical => .bangEqualEqual
  | .eq => .equalEqual
  | .notEq => .bangEqual
  | .approxEq => .tildeEqualEqual
  | .less => .less
  | .lessEq => .lessEqual
  | .greater => .greater
  | .greaterEq => .greaterEqual
  | .matches => .tilde
  | .notMatches => .bangTilde
  | .isIn | .notIn | .is | .isNot => .ident

theorem fixed_compare (op : CompareOp) (h : compareKind op ≠ .ident) :
    Fixed op.symbol (compareKind op) ∧ compareOfKind? (compareKind op) = some op ∧
      op.width = 1 ∧ infixOfKind? (compareKind op) = some .compare ∧
      compareKind op ≠ .parenOpen ∧ compareKind op ≠ .bracketOpen := by
  revert h
  cases op <;> decide

/-- Operators of two words. -/
theorem symbol_notIn (tail : String) :
    CompareOp.notIn.symbol ++ tail = "not" ++ (" " ++ ("in" ++ tail)) := by
  rw [← String.append_assoc, ← String.append_assoc]
  rfl

theorem symbol_isNot (tail : String) :
    CompareOp.isNot.symbol ++ tail = "is" ++ (" " ++ ("not" ++ tail)) := by
  rw [← String.append_assoc, ← String.append_assoc]
  rfl

theorem finds_compare (op : CompareOp) (tail : String) :
    Finds (" " ++ (op.symbol ++ (" " ++ tail))) (some .compare) := by
  by_cases h : compareKind op = .ident
  · cases op <;> first
      | exact finds_word (show IsName "in" by decide) (by decide)
      | exact finds_word (show IsName "is" by decide) (by decide)
      | (rw [symbol_notIn]; exact finds_not_in)
      | (rw [symbol_isNot]; exact finds_word (show IsName "is" by decide) (by decide))
      | cases h
  · obtain ⟨hword, -, -, hop, hkind⟩ := fixed_compare op h
    exact hop ▸ finds_fixed hword ⟨h, hkind⟩

section

variable {doc : Document} {s : State} {w word rest : String}

theorem skipTokens_one {tail : String} {kind : TokenKind} (hw : Spells word kind tail)
    (h : Comes doc.text s.pos (word ++ tail)) (hroom : s.tokens + 1 ≤ doc.limits.tokens) :
    ∃ j, Rest doc.text j tail ∧ skipTokens 1 doc s = .ok () (s.reach j 1 0) := by
  obtain ⟨j, hj, hbump⟩ := discard_bump_word hw h hroom
  exact ⟨j, hj, bind_of_eq hbump⟩

theorem skipTokens_two {next tail : String} {kind kind' : TokenKind}
    (hw : Spells word kind (" " ++ (next ++ tail))) (hnext : Spells next kind' tail)
    (h : Comes doc.text s.pos (word ++ (" " ++ (next ++ tail))))
    (hroom : s.tokens + 2 ≤ doc.limits.tokens) :
    ∃ j, Rest doc.text j tail ∧ skipTokens 2 doc s = .ok () (s.reach j 2 0) := by
  obtain ⟨j, hj, hbump⟩ := discard_bump_word hw h (by omega)
  obtain ⟨j', hj', hskip⟩ := skipTokens_one (s := s.reach j 1 0) hnext (.inr hj) hroom
  refine ⟨j', hj', ?_⟩
  show (discard bump >>= fun _ => skipTokens 1) doc s = _
  rw [bind_of_eq hbump, hskip, State.reach_reach]

/-- The comparison at the current token and where it ends. -/
theorem eatComparison?_of_skip {op : CompareOp} {width : Nat} {tail : String}
    (hop : comparison? doc s = .ok (some (op, width)) s)
    (hskip : ∃ j, Rest doc.text j tail ∧ skipTokens width doc s = .ok () (s.reach j width 0)) :
    ∃ j, Rest doc.text j tail ∧ eatComparison? doc s = .ok (some op) (s.reach j width 0) := by
  obtain ⟨j, hj, hskip⟩ := hskip
  refine ⟨j, hj, ?_⟩
  unfold eatComparison?
  rw [bind_of_eq hop]
  exact bind_of_eq hskip

/-- A comparison that is one name. -/
theorem eatComparison?_name {op : CompareOp} {tail : String} (hname : IsName word)
    (h : Rest doc.text s.pos (" " ++ (word ++ (" " ++ tail))))
    (hop : comparisonOfWord? doc s word = some (op, 1))
    (hroom : s.tokens + 1 ≤ doc.limits.tokens) :
    ∃ j, Rest doc.text j (" " ++ tail) ∧
      eatComparison? doc s = .ok (some op) (s.reach j 1 0) := by
  have hw := spells_name hname (ended_space tail)
  have hsees := sees_word (.inr h) hw
  refine eatComparison?_of_skip ?_ (skipTokens_one hw (.inr h) hroom)
  rw [comparison?_of_word hsees.kind, hsees.text, hop]

/-- A comparison that is two names. -/
theorem eatComparison?_names {op : CompareOp} {next tail : String} (hname : IsName word)
    (hnext : IsName next)
    (h : Rest doc.text s.pos (" " ++ (word ++ (" " ++ (next ++ (" " ++ tail))))))
    (hop : (s.second doc).isWord doc.text next = true →
      comparisonOfWord? doc s word = some (op, 2))
    (hroom : s.tokens + 2 ≤ doc.limits.tokens) :
    ∃ j, Rest doc.text j (" " ++ tail) ∧
      eatComparison? doc s = .ok (some op) (s.reach j 2 0) := by
  have hw := spells_name hname (ended_space (next ++ (" " ++ tail)))
  have hw' := spells_name hnext (ended_space tail)
  have hsees := sees_word (.inr h) hw
  have hsecond := second_word h hw hw'
  refine eatComparison?_of_skip ?_ (skipTokens_two hw hw' (.inr h) hroom)
  rw [comparison?_of_word hsees.kind, hsees.text, hop]
  simp [hsecond.isWord_eq]

/-- A comparison operator is consumed whole.  After `is` the operand must not look like the rest of
`is not`. -/
theorem eatComparison?_some (op : CompareOp) (hbegins : Begins w False) (hended : Ended rest)
    (h : Rest doc.text s.pos (" " ++ (op.symbol ++ (" " ++ (w ++ rest)))))
    (hroom : s.tokens + op.width ≤ doc.limits.tokens) :
    ∃ j, Rest doc.text j (" " ++ (w ++ rest)) ∧
      eatComparison? doc s = .ok (some op) (s.reach j op.width 0) := by
  by_cases hident : compareKind op = .ident
  · cases op with
    | isIn => exact eatComparison?_name (show IsName "in" by decide) h rfl hroom
    | notIn =>
      rw [symbol_notIn] at h
      exact eatComparison?_names (by decide) (by decide) h (fun hin => if_pos hin) hroom
    | is =>
      refine eatComparison?_name (show IsName "is" by decide) h (if_neg ?_) hroom
      -- The second word is the first of the operand.
      obtain ⟨next, kind, tail, heq, hnext, -, hnot⟩ := hbegins rest hended
      have his := spells_name (show IsName "is" by decide) (ended_space (w ++ rest))
      have hsecond := second_word (heq ▸ h) (heq ▸ his) hnext
      rw [hsecond.isWord_eq]
      simpa using hnot
    | isNot =>
      rw [symbol_isNot] at h
      exact eatComparison?_names (by decide) (by decide) h (fun hnot => if_pos hnot) hroom
    | _ => cases hident
  · obtain ⟨hword, hop, hwidth, -⟩ := fixed_compare op hident
    have hw := spells_fixed hword (ended_space (w ++ rest))
    have hsees := sees_word (.inr h) hw
    rw [hwidth] at hroom ⊢
    refine eatComparison?_of_skip ?_ (skipTokens_one hw (.inr h) hroom)
    rw [comparison?_of_kind (by rw [hsees.kind]; exact hident), hsees.kind, hop]
    rfl

end

/-! ### Chains -/

/-- One round of a comparison chain at a level with `n` more below it. -/
def chainLoop (n : Nat) :
    Array CompareOp × Array Node → Parser (Round (Array CompareOp × Array Node) (Form Node)) :=
  fun (ops, operands) => do
    match ← eatComparison? with
    | some op =>
      return .again (ops.push op, operands.push (← expression (enterLevel n) comparePower))
    | none => return .finish (.compare ops.toList operands.toList)

/-- The comparison with more operators and operands, which are as `C` says. -/
def Extends (ops : Array CompareOp) (operands : Array Node)
    (C : List CompareOp → List Node → Prop) (f : Form Node) : Prop :=
  ∃ ops' ys, f = .compare (ops.toList ++ ops') (operands.toList ++ ys) ∧ C ops' ys

/-- What a comparison chain does with the text from its first operator on.  The operator is counted
before. -/
structure ReadsChain (w : String) (k : Nat) (C : List CompareOp → List Node → Prop) : Prop where
  pos : 0 < k
  finds : ∀ rest, Finds (" " ++ (w ++ rest)) (some .compare)
  reads : ∀ {doc n s rest} ops operands, Rest doc.text s.pos (" " ++ (w ++ rest)) →
    Closes Infix.compare.powers.1 rest → Room doc n s k → k ≤ n + 1 →
    Loops doc (chainLoop n) (ops, operands) (s.reach s.pos 0 1)
      (Arrives doc s k 1 rest (Extends ops operands C))

section

variable {w : String} {k power close : Nat} {B : Node → Prop}

/-- One round of a chain: an operator and an operand. -/
theorem Reads.chain_step {doc : Document} {n : Nat} {s : State} {rest : String}
    {ops : Array CompareOp} {operands : Array Node} {Q : Form Node → State → Prop}
    (h : Reads w k B power close) (op : CompareOp) (hpower : comparePower ≤ power)
    (hclose : comparePower ≤ close) (hbegins : Begins w False)
    (hrest : Rest doc.text s.pos (" " ++ (op.symbol ++ (" " ++ (w ++ rest)))))
    (hc : Closes comparePower rest) (hroom : Room doc n s (op.width + k))
    (hk : op.width + k ≤ n + 1)
    (hQ : ∀ y j, B y → Rest doc.text j rest → Loops doc (chainLoop n)
      (ops.push op, operands.push y) (s.reach j (op.width + k) 1) Q) :
    Loops doc (chainLoop n) (ops, operands) (s.reach s.pos 0 1) Q := by
  have hwidth : 1 ≤ op.width := by cases op <;> decide
  obtain ⟨j, hj, heat⟩ := eatComparison?_some (s := s.reach s.pos 0 1) op hbegins hc.1 hrest
    (hroom.mono (Nat.le_add_right _ k)).tokens
  refine .step ?_
  unfold chainLoop
  simp only
  rw [runs_of_eq heat, State.reach_reach]
  refine (h.expression hpower hclose (.inr hj) hc
    (hroom.reach j (Nat.le_of_eq (by omega)) (by omega)) (by omega)).bind ?_
  rintro y _ ⟨hy, i, hi, rfl⟩
  rw [State.reach_reach, Nat.zero_add]
  have hwhole : Rest doc.text s.pos (" " ++ (op.symbol ++ (" " ++ w) ++ rest)) := by
    simpa only [String.append_assoc] using hrest
  exact .pure ⟨⟨hi.le_size, hQ y i hy hi⟩, hwhole.lt_of_space hi⟩

theorem Reads.chain_last (h : Reads w k B power close) (op : CompareOp)
    (hpower : comparePower ≤ power) (hclose : comparePower ≤ close) (hbegins : Begins w False) :
    ReadsChain (op.symbol ++ (" " ++ w)) (op.width + k)
      (fun ops ys => ∃ y, ops = [op] ∧ ys = [y] ∧ B y) where
  pos := Nat.lt_of_lt_of_le h.pos (Nat.le_add_left k op.width)
  finds := fun rest => by
    rw [String.append_assoc, String.append_assoc]
    exact finds_compare op (w ++ rest)
  reads := by
    intro doc n s rest ops operands hrest hc hroom hk
    rw [String.append_assoc, String.append_assoc] at hrest
    refine h.chain_step op hpower hclose hbegins hrest (hc.mono (by decide)) hroom hk
      fun y j hy hj => ?_
    have hnone : eatComparison? doc (s.reach j (op.width + k) 1) =
        .ok none (s.reach j (op.width + k) 1) :=
      bind_of_eq (hc.comparison (Nat.le_refl _) hj)
    refine .step ?_
    unfold chainLoop
    simp only
    rw [runs_of_eq hnone]
    refine .pure ⟨⟨[op], [y], ?_, y, rfl, rfl, hy⟩, j, hj, rfl⟩
    rw [Array.toList_push, Array.toList_push]

theorem Reads.chain_more {w' : String} {k' : Nat} {C : List CompareOp → List Node → Prop}
    (h : Reads w k B power close) (op : CompareOp) (hpower : comparePower ≤ power)
    (hclose : comparePower ≤ close) (hbegins : Begins w False) (hchain : ReadsChain w' k' C) :
    ReadsChain (op.symbol ++ (" " ++ (w ++ (" " ++ w')))) (op.width + (k + k'))
      (fun ops ys => ∃ y ops' ys', ops = op :: ops' ∧ ys = y :: ys' ∧ B y ∧ C ops' ys') where
  pos := Nat.lt_of_lt_of_le hchain.pos (by omega)
  finds := fun rest => by
    rw [String.append_assoc, String.append_assoc]
    exact finds_compare op _
  reads := by
    intro doc n s rest ops operands hrest hc hroom hk
    simp only [String.append_assoc] at hrest
    have hnext : Closes comparePower (" " ++ (w' ++ rest)) :=
      (hchain.finds rest).closes (by decide)
    refine h.chain_step op hpower hclose hbegins hrest hnext (hroom.mono (by omega)) (by omega)
      fun y j hy hj => ?_
    -- The chain was counted as one operator already, which `hchain` counts itself.
    have hmore := hchain.reads (s := s.reach j (op.width + k) 0) (ops.push op) (operands.push y) hj
      hc (hroom.reach j (by omega) (Nat.zero_le _)) (by omega)
    rw [State.reach_reach] at hmore
    refine hmore.imp ?_
    rintro _ _ ⟨⟨ops', ys, rfl, hC⟩, i, hi, rfl⟩
    refine ⟨⟨op :: ops', y :: ys, ?_, y, ops', ys, rfl, rfl, hy, hC⟩, i, hi, ?_⟩
    · simp only [Array.toList_push, List.append_assoc, List.singleton_append]
    · rw [State.reach_reach, Nat.add_assoc]

/-- A chain is folded around its first operand. -/
theorem ReadsChain.folds {A : Node → Prop} {C : List CompareOp → List Node → Prop}
    (h : ReadsChain w k C) :
    Folds w k .compare A (fun f => ∃ ops x ys, f = .compare ops (x :: ys) ∧ A x ∧ C ops ys)
      Infix.compare.powers.1 where
  pos := h.pos
  finds := h.finds
  gives := by
    intro doc n s rest v hv hrest hc hroom hk
    rw [runs_of_eq (fold_eq (hroom.mono h.pos).chain)]
    show Runs doc Never (repeatRounds ((#[], #[v]) : Array CompareOp × Array Node) (chainLoop n))
      (s.reach s.pos 0 1) _
    refine (h.reads #[] #[v] hrest hc hroom hk).repeatRounds.imp ?_
    rintro _ _ ⟨⟨ops, ys, rfl, hC⟩, j, hj, rfl⟩
    exact ⟨⟨ops, v, ys, rfl, hv, hC⟩, j, hj, rfl⟩

end

end ShellAnalysis.Parse
