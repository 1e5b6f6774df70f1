import ShellAnalysis.Proofs.Expressions
import ShellAnalysis.Proofs.Lexemes

/-!
# Reading words within the limits

Where the text goes on with a known word and the limits leave room for it, the
small parsers have one result, and it is stated as an equation: they give it in
the state `s.reach j count folds`, which is `s` at `j` with `count` more tokens
counted and `folds` more operators open.

    Spells word kind tail → Comes doc.text s.pos (word ++ tail) →
      s.tokens + 1 ≤ doc.limits.tokens →
        ∃ j, Rest doc.text j tail ∧ eat kind doc s = .ok true (s.reach j 1 0)

`Runs doc Never p s Q` says that `p` does not stop, and `Loops` the same of a
loop.  `Finds rest op?` says which operator is found in front of `rest`, and
`Closes power rest` that a loop over operators which asks for `power` ends there.
-/

namespace ShellAnalysis.Parse

open Text Lexer

/-! ## Parsers that do not stop -/

/-- The parser does not stop. -/
def Never : Stopped → State → Prop := fun _ _ => False

/-- The state after `count` more tokens up to `i`, with more operators folded. -/
def State.reach (s : State) (i count folds : Nat) : State :=
  { s with
    pos := i
    tokens := s.tokens + count
    nesting := { s.nesting with chain := s.nesting.chain + folds } }

theorem State.reach_reach (s : State) (i j m n k l : Nat) :
    (s.reach i m k).reach j n l = s.reach j (m + n) (k + l) := by
  simp only [State.reach, Nat.add_assoc]

section

variable {α β σ : Type} {doc : Document} {fail : Stopped → State → Prop} {s s' : State}
  {p : Parser α} {f : α → Parser β} {Q : α → State → Prop} {Q' : β → State → Prop}

theorem bind_of_eq {a : α} (h : p doc s = .ok a s') : (p >>= f) doc s = f a doc s' := by
  show EStateM.bind (p doc) (fun a => f a doc) s = _
  unfold EStateM.bind
  rw [h]

/-- A parser whose result is known goes on with it. -/
theorem runs_of_eq {a : α} (h : p doc s = .ok a s') :
    Runs doc fail (p >>= f) s Q' ↔ Runs doc fail (f a) s' Q' := by
  unfold Runs
  rw [bind_of_eq h]

/-- A loop in this state ends as `Q` says. -/
def Loops (doc : Document) (round : σ → Parser (Round σ α)) (state : σ) (s : State)
    (Q : α → State → Prop) : Prop :=
  ∀ fuel, size doc.text - s.pos < fuel → Runs doc Never (rounds round fuel state) s Q

/-- One round, after which the loop goes on or ends as it should. -/
theorem Loops.step {round : σ → Parser (Round σ α)} {state : σ}
    (h : Runs doc Never (round state) s
      (Goes (fun state s' => s'.pos ≤ size doc.text ∧ Loops doc round state s' Q) Q s)) :
    Loops doc round state s Q := by
  intro fuel hfuel
  cases fuel with
  | zero => omega
  | succ fuel =>
    refine h.bind fun r s' hr => ?_
    cases r with
    | again state' =>
      obtain ⟨⟨hle, hloops⟩, hlt⟩ := hr
      exact hloops fuel (by omega)
    | finish a => exact hr

theorem Loops.imp {round : σ → Parser (Round σ α)} {state : σ} {R : α → State → Prop}
    (h : Loops doc round state s R) (hR : ∀ a s', R a s' → Q a s') : Loops doc round state s Q :=
  fun fuel hfuel => (h fuel hfuel).imp hR

theorem Loops.repeatRounds {round : σ → Parser (Round σ α)} {init : σ}
    (h : Loops doc round init s Q) : Runs doc Never (repeatRounds init round) s Q :=
  h _ (Nat.lt_succ_self _)

/-! ## Limits that are wide enough -/

theorem countToken_eq (h : s.tokens + 1 ≤ doc.limits.tokens) :
    countToken doc s = .ok () { s with tokens := s.tokens + 1 } := by
  show (if doc.limits.tokens < s.tokens + 1 then _ else _ : Parser Unit) doc _ = _
  rw [if_neg (by omega)]
  rfl

theorem bump_eq (hk : (s.ahead doc).kind ≠ .newline) (h : s.tokens + 1 ≤ doc.limits.tokens) :
    bump doc s = .ok (s.ahead doc) (s.reach (s.ahead doc).span.stop 1 0) := by
  unfold bump
  rw [bind_of_eq (countToken_eq h)]
  show (if (s.ahead doc).kind == .newline then _ else _ : Parser Token) doc _ = _
  rw [if_neg (by simpa using hk)]
  rfl

theorem discard_bump_eq (hk : (s.ahead doc).kind ≠ .newline)
    (h : s.tokens + 1 ≤ doc.limits.tokens) :
    discard bump doc s = .ok () (s.reach (s.ahead doc).span.stop 1 0) := by
  show EStateM.map (fun _ => ()) (bump doc) s = _
  unfold EStateM.map
  rw [bump_eq hk h]

/-- The next token is known. -/
theorem sees_word {word tail : String} {kind : TokenKind}
    (h : Comes doc.text s.pos (word ++ tail)) (hw : Spells word kind tail) :
    (s.ahead doc).Is doc.text word kind tail := h.token hw

theorem discard_bump_word {word tail : String} {kind : TokenKind} (hw : Spells word kind tail)
    (h : Comes doc.text s.pos (word ++ tail)) (hroom : s.tokens + 1 ≤ doc.limits.tokens) :
    ∃ j, Rest doc.text j tail ∧ discard bump doc s = .ok () (s.reach j 1 0) := by
  have hsees := sees_word h hw
  exact ⟨_, hsees.rest, discard_bump_eq (by rw [hsees.kind]; exact hw.significant.2) hroom⟩

theorem eat_true {kind : TokenKind} {word tail : String} (hw : Spells word kind tail)
    (h : Comes doc.text s.pos (word ++ tail)) (hroom : s.tokens + 1 ≤ doc.limits.tokens) :
    ∃ j, Rest doc.text j tail ∧ eat kind doc s = .ok true (s.reach j 1 0) := by
  obtain ⟨j, hrest, hbump⟩ := discard_bump_word hw h hroom
  refine ⟨j, hrest, ?_⟩
  unfold eat
  show (if (s.ahead doc).kind == kind then _ else _ : Parser Bool) doc s = _
  rw [if_pos (beq_iff_eq.2 (sees_word h hw).kind), bind_of_eq hbump]
  rfl

theorem eat_false {kind : TokenKind} (h : (s.ahead doc).kind ≠ kind) :
    eat kind doc s = .ok false s := by
  unfold eat
  show (if (s.ahead doc).kind == kind then _ else _ : Parser Bool) doc s = _
  rw [if_neg (by simpa using h)]
  rfl

theorem expect_true {kind : TokenKind} {word tail : String} (what : String)
    (hw : Spells word kind tail) (h : Comes doc.text s.pos (word ++ tail))
    (hroom : s.tokens + 1 ≤ doc.limits.tokens) :
    ∃ j, Rest doc.text j tail ∧ expect kind what doc s = .ok () (s.reach j 1 0) := by
  obtain ⟨j, hrest, heat⟩ := eat_true hw h hroom
  refine ⟨j, hrest, ?_⟩
  unfold expect
  rw [bind_of_eq heat]
  rfl

/-- A keyword between spaces stands alone. -/
theorem eatKeyword_true {word tail : String} (hname : IsName word)
    (h : Rest doc.text s.pos (" " ++ (word ++ (" " ++ tail))))
    (hroom : s.tokens + 1 ≤ doc.limits.tokens) :
    ∃ j, Rest doc.text j (" " ++ tail) ∧ eatKeyword word doc s = .ok true (s.reach j 1 0) := by
  have hw := spells_name hname (ended_space tail)
  have hsees := sees_word (.inr h) hw
  obtain ⟨j, hrest, hbump⟩ := discard_bump_word hw (.inr h) hroom
  refine ⟨j, hrest, ?_⟩
  have hword : (s.ahead doc).isWord doc.text word = true := by
    simp [hsees.isWord_eq]
  have hnext : gluedTo (s.ahead doc) doc s = .ok none s := by
    have hne := hsees.rest.not_glued
    show EStateM.Result.ok (gluedToken? doc.text (s.ahead doc)) s = _
    simp [gluedToken?, hne]
  have hglued : gluedAfter (s.ahead doc) doc s = .ok false s := by
    unfold gluedAfter
    exact bind_of_eq hnext
  have hat : atKeyword word doc s = .ok true s := by
    show ((gluedAfter (s.ahead doc)) >>= fun b =>
      pure ((s.ahead doc).isWord doc.text word && !b)) doc s = _
    rw [bind_of_eq hglued, hword]
    rfl
  unfold eatKeyword
  rw [bind_of_eq hat, if_pos rfl, bind_of_eq hbump]
  rfl

end

/-! ## Operators -/

section

variable {doc : Document} {s : State} {kind : TokenKind}

/-- The operator that a token stands for which is neither a name nor a bracket. -/
def infixOfKind? : TokenKind → Option Infix
  | .dot => some (.member .dot)
  | .thinArrow => some (.member .arrow)
  | .fatArrow => some (.member .fatArrow)
  | .dotDot | .dotDotLess => some (.range .exclusive)
  | .dotDotEqual => some (.range .inclusive)
  | kind =>
    match binaryOfKind? kind with
    | some op => some (.binary op)
    | none => (compareOfKind? kind).map fun _ => .compare

/-- The operator that a name other than `not` stands for. -/
def infixOfWord? : String → Option Infix
  | "or" => some (.binary .or)
  | "and" => some (.binary .and)
  | "in" | "is" => some .compare
  | "if" => some .ternary
  | _ => none

theorem infixOp?_of_kind (hident : (s.ahead doc).kind ≠ .ident)
    (hparen : (s.ahead doc).kind ≠ .parenOpen) (hbracket : (s.ahead doc).kind ≠ .bracketOpen) :
    infixOp? doc s = .ok (infixOfKind? (s.ahead doc).kind) s := by
  unfold infixOp?
  rw [bind_of_eq (show current doc s = .ok (s.ahead doc) s from rfl)]
  cases hk : (s.ahead doc).kind <;> first | contradiction | rfl

theorem infixOp?_of_word (hk : (s.ahead doc).kind = .ident)
    (hnot : (s.ahead doc).text doc.text ≠ "not") :
    infixOp? doc s = .ok (infixOfWord? ((s.ahead doc).text doc.text)) s := by
  unfold infixOp?
  rw [bind_of_eq (show current doc s = .ok (s.ahead doc) s from rfl)]
  simp only [hk]
  rw [bind_of_eq (show tokenText (s.ahead doc) doc s = .ok _ s from rfl)]
  unfold infixOfWord?
  split <;> simp_all only [] <;> rfl

/-- After `not` comes `in`. -/
theorem infixOp?_of_not (hk : (s.ahead doc).kind = .ident)
    (hnot : (s.ahead doc).text doc.text = "not")
    (hin : (s.second doc).isWord doc.text "in" = true) :
    infixOp? doc s = .ok (some .compare) s := by
  unfold infixOp?
  rw [bind_of_eq (show current doc s = .ok (s.ahead doc) s from rfl)]
  simp only [hk]
  rw [bind_of_eq (show tokenText (s.ahead doc) doc s = .ok _ s from rfl), hnot]
  show (pure (if (s.second doc).isWord doc.text "in" then some .compare else none) :
    Parser (Option Infix)) doc s = _
  rw [if_pos hin]
  rfl

theorem comparison?_of_kind (hk : (s.ahead doc).kind ≠ .ident) :
    comparison? doc s = .ok ((compareOfKind? (s.ahead doc).kind).map fun op => (op, 1)) s := by
  unfold comparison?
  rw [bind_of_eq (show current doc s = .ok (s.ahead doc) s from rfl), if_neg (by simpa using hk)]
  rfl

/-- The comparison that a name starts, which depends on the name after it. -/
def comparisonOfWord? (doc : Document) (s : State) : String → Option (CompareOp × Nat)
  | "in" => some (.isIn, 1)
  | "is" => if (s.second doc).isWord doc.text "not" then some (.isNot, 2) else some (.is, 1)
  | "not" => if (s.second doc).isWord doc.text "in" then some (.notIn, 2) else none
  | _ => none

theorem comparison?_of_word (hk : (s.ahead doc).kind = .ident) :
    comparison? doc s = .ok (comparisonOfWord? doc s ((s.ahead doc).text doc.text)) s := by
  unfold comparison?
  rw [bind_of_eq (show current doc s = .ok (s.ahead doc) s from rfl), if_pos (beq_iff_eq.2 hk),
    bind_of_eq (show tokenText (s.ahead doc) doc s = .ok _ s from rfl)]
  generalize (s.ahead doc).text doc.text = word
  by_cases hin : word = "in"
  · subst hin
    rfl
  by_cases his : word = "is"
  · subst his
    rfl
  by_cases hnot : word = "not"
  · subst hnot
    rfl
  simp only [comparisonOfWord?]
  rfl

end

/-! ## What stands behind an operand -/

/-- Wherever the text goes on like this, an operator loop finds this operator; a comparison chain
goes on only if it is a comparison. -/
structure Finds (rest : String) (op? : Option Infix) : Prop where
  infixOp : ∀ {doc s}, Rest doc.text s.pos rest → infixOp? doc s = .ok op? s
  comparison : op? ≠ some .compare → ∀ {doc s}, Rest doc.text s.pos rest →
    comparison? doc s = .ok none s

theorem compareOfKind?_eq_none {kind : TokenKind} (h : infixOfKind? kind ≠ some .compare) :
    compareOfKind? kind = none := by
  cases kind <;> first | rfl | exact absurd rfl h

/-- A token that is neither a name nor an opening bracket. -/
theorem finds_of_kind {rest : String} (kind : TokenKind)
    (h : ∀ {doc : Document} {s : State}, Rest doc.text s.pos rest → (s.ahead doc).kind = kind)
    (hkind : kind ≠ .ident ∧ kind ≠ .parenOpen ∧ kind ≠ .bracketOpen) :
    Finds rest (infixOfKind? kind) where
  infixOp hrest := by
    have hk := h hrest
    rw [← hk] at hkind ⊢
    exact infixOp?_of_kind hkind.1 hkind.2.1 hkind.2.2
  comparison hne := fun hrest => by
    have hk := h hrest
    rw [comparison?_of_kind (by rw [hk]; exact hkind.1), hk, compareOfKind?_eq_none hne]
    rfl

theorem finds_end : Finds "" none :=
  finds_of_kind .eof (fun h => h.end_of_text) (by decide)

theorem finds_parenClose (tail : String) (hended : Ended tail) : Finds (")" ++ tail) none :=
  finds_of_kind .parenClose
    (fun h => (sees_word (.inl h) (spells_fixed (by decide) hended)).kind) (by decide)

section

variable {word tail : String}

/-- An operator of fixed spelling between spaces. -/
theorem finds_fixed {kind : TokenKind} (hw : Fixed word kind)
    (hkind : kind ≠ .ident ∧ kind ≠ .parenOpen ∧ kind ≠ .bracketOpen) :
    Finds (" " ++ (word ++ (" " ++ tail))) (infixOfKind? kind) :=
  finds_of_kind kind
    (fun h => (sees_word (.inr h) (spells_fixed hw (ended_space tail))).kind) hkind

/-- A name between spaces. -/
theorem finds_word (hname : IsName word) (hnot : word ≠ "not") :
    Finds (" " ++ (word ++ (" " ++ tail))) (infixOfWord? word) where
  infixOp h := by
    have hsees := sees_word (.inr h) (spells_name hname (ended_space tail))
    rw [infixOp?_of_word hsees.kind (by rwa [hsees.text]), hsees.text]
  comparison hne := fun {doc s} h => by
    have hsees := sees_word (.inr h) (spells_name hname (ended_space tail))
    have hnone : comparisonOfWord? doc s word = none := by
      unfold comparisonOfWord?
      split <;> first | contradiction | rfl
    rw [comparison?_of_word hsees.kind, hsees.text, hnone]

/-- The word after the next one. -/
theorem second_word {doc : Document} {s : State} {next tail : String} {kind kind' : TokenKind}
    (h : Rest doc.text s.pos (" " ++ (word ++ (" " ++ (next ++ tail)))))
    (hw : Spells word kind (" " ++ (next ++ tail))) (hnext : Spells next kind' tail) :
    (s.second doc).Is doc.text next kind' tail :=
  Comes.token (.inr (sees_word (.inr h) hw).rest) hnext

theorem finds_not_in :
    Finds (" " ++ ("not" ++ (" " ++ ("in" ++ (" " ++ tail))))) (some .compare) where
  infixOp h := by
    have hnot := spells_name (show IsName "not" by decide) (ended_space ("in" ++ (" " ++ tail)))
    have hsees := sees_word (.inr h) hnot
    have hsecond := second_word h hnot (spells_name (show IsName "in" by decide) (ended_space tail))
    exact infixOp?_of_not hsees.kind hsees.text (hsecond.isWord_eq "in")
  comparison hne := absurd rfl hne

/-- Nothing that binds as strongly as `power` follows, and nothing that makes a word longer. -/
def Closes (power : Nat) (rest : String) : Prop :=
  Ended rest ∧ ∃ op?, Finds rest op? ∧ ∀ op ∈ op?, op.powers.1 < power

theorem Closes.mono {rest : String} {p q : Nat} (h : Closes p rest) (hpq : p ≤ q) :
    Closes q rest := by
  obtain ⟨hended, op?, hfinds, hlt⟩ := h
  exact ⟨hended, op?, hfinds, fun op hop => Nat.lt_of_lt_of_le (hlt op hop) hpq⟩

/-- Before an operator that binds less. -/
theorem Finds.closes {rest : String} {op : Infix} {power : Nat}
    (h : Finds (" " ++ rest) (some op)) (hlt : op.powers.1 < power) : Closes power (" " ++ rest) :=
  ⟨ended_space rest, some op, h, fun _ hop => Option.some.inj hop ▸ hlt⟩

/-- Where no operator follows, whatever the power. -/
theorem Finds.closes_none {rest : String} {power : Nat} (h : Finds rest none)
    (hended : Ended rest) : Closes power rest := ⟨hended, none, h, nofun⟩

/-- After a comparison chain. -/
theorem Closes.comparison {doc : Document} {s : State} {rest : String} {power : Nat}
    (h : Closes power rest) (hpower : power ≤ Infix.compare.powers.1)
    (hrest : Rest doc.text s.pos rest) : comparison? doc s = .ok none s := by
  obtain ⟨-, op?, hfinds, hlt⟩ := h
  refine hfinds.comparison (fun hop => ?_) hrest
  have := hlt .compare hop
  omega

end

end ShellAnalysis.Parse
