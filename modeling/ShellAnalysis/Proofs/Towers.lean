import ShellAnalysis.Proofs.Built.Parses
import ShellAnalysis.Proofs.RoundTrip

/-!
# Chains in each other

A limit on the chain of operators holds for the expressions that are open at
once.  What was folded into an expression is released at its end, so the
expression around it has the whole limit again:

    tower 2 0      x . a . a
    tower 2 1      (x . a . a) . a . a
    tower 2 2      ((x . a . a) . a . a) . a . a

Under limits that leave room for `chain` operators and `levels + 1` constructs
`tower chain levels` is read as one expression with all of its operators
(`height_tower`).  So the height of trees grows with the product of the two
limits, and not only with their sum.
-/

namespace ShellAnalysis

open Text Lexer Parse Node

/-! ## Towers -/

/-- This many times `. a`. -/
def accesses : Nat → String
  | 0 => ""
  | n + 1 => " " ++ ("." ++ (" " ++ ("a" ++ accesses n)))

/-- An expression in `levels` pairs of parentheses, with a chain of accesses in each of them and one
behind the last. -/
def tower (chain : Nat) : (levels : Nat) → String
  | 0 => "x" ++ accesses chain
  | levels + 1 => "(" ++ (tower chain levels ++ (")" ++ accesses chain))

/-- The number of tokens of a tower. -/
def towerSize (chain : Nat) : (levels : Nat) → Nat
  | 0 => 1 + 2 * chain
  | levels + 1 => towerSize chain levels + 2 + 2 * chain

theorem towerSize_eq (chain levels : Nat) :
    towerSize chain levels + 1 = 2 * ((levels + 1) * (chain + 1)) := by
  induction levels with
  | zero =>
    rw [towerSize]
    omega
  | succ levels ih =>
    rw [towerSize, Nat.succ_mul (levels + 1), Nat.mul_add 2, ← ih]
    omega

theorem ended_accesses (n : Nat) {rest : String} (h : Ended rest) : Ended (accesses n ++ rest) := by
  cases n with
  | zero => rwa [accesses, String.empty_append]
  | succ n =>
    rw [accesses, String.append_assoc]
    exact ended_space _

namespace Parse

section

variable {doc : Document} {s : State} {n k chain levels start folds : Nat} {rest : String}
  {v : Node}

/-! ## One chain -/

theorem identName_eq {word : String} (what : String) (hname : IsName word)
    (h : Comes doc.text s.pos (word ++ rest)) (hended : Ended rest)
    (hroom : s.tokens + 1 ≤ doc.limits.tokens) :
    ∃ name j, Rest doc.text j rest ∧ identName what doc s = .ok name (s.reach j 1 0) := by
  have hw := spells_name hname hended
  obtain ⟨j, hj, hbump⟩ := discard_bump_word hw h hroom
  refine ⟨⟨(s.ahead doc).text doc.text, (s.ahead doc).span⟩, j, hj, ?_⟩
  unfold identName
  rw [bind_of_eq (show current doc s = .ok (s.ahead doc) s from rfl),
    if_pos (beq_iff_eq.2 (sees_word h hw).kind), bind_of_eq hbump]
  rfl

/-- One round of the loop over operators folds an access. -/
theorem Loops.access {Q : Node × Nat → State → Prop}
    (h : Rest doc.text s.pos (" " ++ ("." ++ (" " ++ ("a" ++ rest))))) (hended : Ended rest)
    (htokens : s.tokens + 2 ≤ doc.limits.tokens)
    (hchain : s.nesting.chain + 1 ≤ doc.limits.chain)
    (hloops : ∀ w j, v.height < w.height → Rest doc.text j rest →
      Loops doc (operatorLoop n 0 start) (w, folds + 1) (s.reach j 2 1) Q) :
    Loops doc (operatorLoop n 0 start) (v, folds) s Q := by
  have hdot : Fixed "." .dot := by decide
  obtain ⟨i, hi, hbump⟩ := discard_bump_word (s := s.reach s.pos 0 1)
    (spells_fixed hdot (ended_space ("a" ++ rest))) (.inr h)
    (show s.tokens + 1 ≤ doc.limits.tokens by omega)
  obtain ⟨name, j, hj, hname⟩ := identName_eq (s := s.reach i 1 1) "an attribute name"
    (show IsName "a" by decide) (.inr hi) hended htokens
  refine .step ?_
  show Runs doc Never (operatorRound (enterLevel n) 0 start v folds) s _
  unfold operatorRound
  rw [runs_of_eq ((finds_fixed hdot (by decide)).infixOp h)]
  show Runs doc Never (fold >>= fun _ => foldOperator (enterLevel n) (.member .dot) v >>= _) s _
  rw [runs_of_eq (fold_eq hchain)]
  refine Runs.bind (R := fun form s' => form = .member .dot v name ∧ s' = s.reach j 2 1) ?_ ?_
  · unfold foldOperator
    rw [runs_of_eq hbump, State.reach_reach, runs_of_eq hname, State.reach_reach]
    exact .pure ⟨rfl, rfl⟩
  · rintro _ _ ⟨rfl, rfl⟩
    rw [runs_spanFrom]
    have hhigher : v.height < (Node.make (.member .dot v name) (.upTo start j)).height :=
      height_lt_of_mem (List.mem_singleton_self v)
    have hwhole : Rest doc.text s.pos (" " ++ ("." ++ (" " ++ "a") ++ rest)) := by
      simpa only [String.append_assoc] using h
    exact .pure ⟨⟨hj.le_size, hloops _ j hhigher hj⟩, hwhole.lt_of_space hj⟩

/-- The loop folds a whole chain, each access one node higher. -/
theorem Loops.accesses (hc : Closes 0 rest) (h : Rest doc.text s.pos (accesses chain ++ rest))
    (htokens : s.tokens + 2 * chain ≤ doc.limits.tokens)
    (hchain : s.nesting.chain + chain ≤ doc.limits.chain) :
    Loops doc (operatorLoop n 0 start) (v, folds) s fun r s' =>
      v.height + chain ≤ r.1.height ∧ r.2 = folds + chain ∧
        ∃ j, Rest doc.text j rest ∧ s' = s.reach j (2 * chain) chain := by
  induction chain generalizing s v folds with
  | zero =>
    rw [ShellAnalysis.accesses, String.empty_append] at h
    exact hc.loops h ⟨Nat.le_refl _, rfl, s.pos, h, rfl⟩
  | succ chain ih =>
    simp only [ShellAnalysis.accesses, String.append_assoc] at h
    refine .access h (ended_accesses chain hc.1) (by omega) (by omega) fun w j hw hj => ?_
    refine (ih (s := s.reach j 2 1) hj (show s.tokens + 2 + 2 * chain ≤ _ by omega)
      (show s.nesting.chain + 1 + chain ≤ _ by omega)).imp ?_
    rintro ⟨u, _⟩ _ ⟨hu, rfl, i, hi, rfl⟩
    refine ⟨by omega, by omega, i, hi, ?_⟩
    rw [State.reach_reach, Nat.add_comm 1 chain, Nat.mul_succ, Nat.add_comm 2]

/-- An expression that is an operand and a chain.  The chain is released at its end. -/
theorem expression_accesses {h : Nat} (hc : Closes 0 rest)
    (hdepth : s.nesting.depth + 1 ≤ doc.limits.depth)
    (htokens : s.tokens + (k + 2 * chain) ≤ doc.limits.tokens)
    (hchain : s.nesting.chain + chain ≤ doc.limits.chain)
    (hoperand : Runs doc Never (operand (enterLevel n)) s.deeper
      (Arrives doc s.deeper k 0 (accesses chain ++ rest) fun v => h ≤ v.height)) :
    Runs doc Never (expression (enterLevel (n + 1)) 0) s
      (Arrives doc s (k + 2 * chain) 0 rest fun v => h + chain ≤ v.height) := by
  unfold expression
  rw [runs_of_eq (enterLevel_eq hdepth)]
  show Runs doc Never (operators (enterLevel n) 0) s.deeper _
  unfold operators
  rw [runs_startOffset]
  refine hoperand.bind ?_
  rintro v _ ⟨hv, i, hi, rfl⟩
  have hroom : s.tokens + k + 2 * chain ≤ doc.limits.tokens := by omega
  refine (Loops.accesses (s := s.deeper.reach i k 0) hc hi hroom hchain).repeatRounds.bind ?_
  rintro ⟨u, _⟩ _ ⟨hu, rfl, j, hj, rfl⟩
  rw [State.reach_reach]
  simp only [Nat.zero_add]
  rw [runs_releaseFolds, runs_ascend, shallower_release]
  exact .pure ⟨Nat.le_trans (Nat.add_le_add_right hv chain) hu, j, hj, rfl⟩

/-! ## Whole towers -/

theorem begins_tower (chain levels : Nat) : Begins (tower chain levels) False := by
  cases levels with
  | zero =>
    intro tail hended
    refine ⟨"x", .ident, accesses chain ++ tail, String.append_assoc, ?_, by decide, by decide⟩
    exact spells_name (by decide) (ended_accesses chain hended)
  | succ levels =>
    intro tail _
    exact ⟨"(", .parenOpen, _, String.append_assoc, spells_parenOpen _, by decide, nofun⟩

/-- A tower is one expression.  Inside of its parentheses the chain starts where it started
outside. -/
theorem expression_tower (hc : Closes 0 rest)
    (hf : Comes doc.text s.pos (tower chain levels ++ rest))
    (hdepth : s.nesting.depth + levels + 1 ≤ doc.limits.depth) (hn : levels ≤ n)
    (htokens : s.tokens + towerSize chain levels ≤ doc.limits.tokens)
    (hchain : s.nesting.chain + chain ≤ doc.limits.chain) :
    Runs doc Never (expression (enterLevel (n + 1)) 0) s
      (Arrives doc s (towerSize chain levels) 0 rest
        fun v => (levels + 1) * chain + 1 ≤ v.height) := by
  induction levels generalizing s n rest with
  | zero =>
    rw [tower, String.append_assoc] at hf
    rw [towerSize] at htokens
    have hx : Runs doc Never (operand (enterLevel n)) s.deeper
        (Arrives doc s.deeper 1 0 (accesses chain ++ rest) fun v => v.form = .var "x") :=
      operand_var ⟨"x", by decide, by decide⟩ hf (ended_accesses chain hc.1)
        (show s.tokens + 1 ≤ _ by omega)
    refine (expression_accesses (h := 1) hc hdepth htokens hchain
      (hx.imp fun v _ hv => ⟨?_, hv.2⟩)).imp fun v _ hv => ⟨?_, hv.2⟩
    · show 1 ≤ v.height
      rw [height_eq]
      exact Nat.succ_pos _
    · have := hv.1
      omega
  | succ levels ih =>
    obtain ⟨n, rfl⟩ : ∃ m, n = m + 1 := ⟨n - 1, by omega⟩
    simp only [tower, String.append_assoc] at hf
    rw [towerSize] at htokens
    have hended := ended_accesses chain hc.1
    have hclosing : Closes 0 (")" ++ (accesses chain ++ rest)) :=
      (finds_parenClose _ hended).closes_none (ended_parenClose _)
    have hinner := operand_paren (s := s.deeper) hf hended (begins_tower chain levels)
      (show s.tokens + (towerSize chain levels + 2) ≤ _ by omega) fun j hj =>
        ih (n := n) (s := (s.deeper.reach j 1 0).skipping) hclosing (.inl hj)
          (show s.nesting.depth + 1 + levels + 1 ≤ _ by omega) (by omega)
          (show s.tokens + 1 + towerSize chain levels ≤ _ by omega) hchain
    refine (expression_accesses hc (by omega) htokens hchain hinner).imp fun v _ hv => ⟨?_, hv.2⟩
    have := hv.1
    rw [Nat.succ_mul (levels + 1)]
    omega

theorem program_tower (htext : doc.text = "=" ++ (" " ++ tower chain levels))
    (hdepth : levels < doc.limits.depth) (hchain : chain ≤ doc.limits.chain)
    (htokens : towerSize chain levels + 1 ≤ doc.limits.tokens)
    (hiterations : 2 ≤ doc.limits.iterations) :
    Runs doc Never (program doc.limits) .initial fun _ s' =>
      ∃ v, s'.statements = #[v] ∧ (levels + 1) * chain + 2 ≤ v.height := by
  obtain ⟨n, hn⟩ : ∃ n, doc.limits.depth = n + 1 := ⟨doc.limits.depth - 1, by omega⟩
  refine (program_arrives (k := towerSize chain levels) htext (by omega) hiterations
    (M := fun v => (levels + 1) * chain + 1 ≤ v.height) fun j hj => ?_).imp ?_
  · rw [← String.append_empty (s := tower chain levels)] at hj
    rw [hn]
    exact expression_tower (finds_end.closes_none ended_empty) (.inr hj)
      (show 0 + levels + 1 ≤ doc.limits.depth by omega) (by omega)
      (show 0 + 1 + towerSize chain levels ≤ doc.limits.tokens by omega)
      (show 0 + chain ≤ doc.limits.chain by omega)
  · rintro _ s' ⟨-, -, v, hv, x, hform, hx⟩
    have hlt : x.height < v.height := height_lt_of_mem (by simp [hform, Form.children])
    exact ⟨v, hv, by omega⟩

end

end Parse

/-! ## Main result -/

/-- Under limits that leave room for its chains and for its parentheses, the tree of a tower has all
chains one below the other. -/
theorem height_tower {limits : Limits} {chain levels : Nat} (hdepth : levels < limits.depth)
    (hchain : chain ≤ limits.chain)
    (htokens : 2 * ((levels + 1) * (chain + 1)) ≤ limits.tokens)
    (hiterations : 2 ≤ limits.iterations) :
    (levels + 1) * chain + 3 ≤ (parseWith limits ("= " ++ tower chain levels)).root.height := by
  have htext : "= " ++ tower chain levels = "=" ++ (" " ++ tower chain levels) := by
    rw [← String.append_assoc]
    rfl
  rw [← towerSize_eq] at htokens
  have hruns : Runs ⟨"= " ++ tower chain levels, limits⟩ Never (program limits) .initial _ :=
    program_tower htext hdepth hchain htokens hiterations
  unfold Runs at hruns
  split at hruns
  · rename_i s hrun
    obtain ⟨v, hv, hheight⟩ := hruns
    have hstatements : (parseWith limits ("= " ++ tower chain levels)).statements = [v] := by
      rw [statements_eq, run, hrun, concludedStatements, hv]
    have hlt : v.height < (parseWith limits ("= " ++ tower chain levels)).root.height := by
      rw [root_eq, hstatements]
      exact height_lt_of_mem (List.mem_singleton_self v)
    omega
  · exact hruns.elim

/-- Three expressions in each other with thirty-nine operators each are higher than the sum of the
limits would have it. -/
theorem height_tower_three :
    ¬ (parseWith { depth := 3, chain := 39 } ("= " ++ tower 39 2)).root.height ≤
      16 * (3 + 2) + 39 := by
  have hheight : 3 * 39 + 3 ≤
      (parseWith { depth := 3, chain := 39 } ("= " ++ tower 39 2)).root.height :=
    height_tower (by decide) (by decide) (by decide) (by decide)
  omega

end ShellAnalysis
