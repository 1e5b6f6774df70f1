import ShellAnalysis.Parse.Basic
import ShellAnalysis.Proofs.Boundary
import ShellAnalysis.Scanner.Content

/-!
# Tokens and where they lie

`tokenAt_spec`: the token read at any offset is cut at character boundaries,
does not start before the offset, and is empty only at the end of the text.
`significant_spec` says the same of the tokens a parser looks at, which are
never comments.  The few kinds whose width the parser counts on are in
`Munched`.
-/

namespace ShellAnalysis

open Text

/-! ## One token -/

/-- `$name`, `$1` and `@name`: a sigil and a name. -/
def TokenKind.hasSigil : TokenKind → Bool
  | simpleVar | specialVar | splice => true
  | _ => false

/-- The kinds that are two bytes wide and pay for a second token. -/
def TokenKind.isWide : TokenKind → Bool
  | lessLess | dollarBrace => true
  | _ => false

namespace Lexer

/-- What is known of a kind and an end that were read at `i`. -/
structure Munched (text : String) (i : Nat) (m : TokenKind × Nat) : Prop where
  lt : i < m.2
  boundary : Boundary text m.2
  ne_eof : m.1 ≠ .eof
  wide : m.1.isWide = true → m.2 = i + 2
  sigil : m.1.hasSigil = true → Boundary text (i + 1)

variable {text : String} {i : Nat} {b : UInt8}

/-- What the spellings of all tokens have in common. -/
def WellSpelled (s : String × TokenKind) : Prop :=
  (byte? s.1 (size s.1 - 1)).any (fun c => decide (IsAscii c)) = true ∧ s.2 ≠ .eof ∧
    s.2.hasSigil = false ∧ (s.2.isWide = true → size s.1 = 2)

instance (s : String × TokenKind) : Decidable (WellSpelled s) :=
  inferInstanceAs (Decidable (_ ∧ _ ∧ _ ∧ _))

theorem wellSpelled : ∀ s ∈ TokenKind.spellings b, WellSpelled s := by
  unfold TokenKind.spellings
  split <;> decide

theorem spelled?_munched {m : TokenKind × Nat} (h : spelled? text i = some m) :
    Munched text i m := by
  unfold spelled? at h
  split at h
  · obtain ⟨s, hs, rfl⟩ := Option.map_eq_some_iff.1 h
    have hpiece := List.find?_some hs
    obtain ⟨hlast, heof, hsigil, hwide⟩ := wellSpelled s (List.mem_of_find?_eq_some hs)
    cases hb : byte? s.1 (size s.1 - 1) with
    | none => simp [hb] at hlast
    | some c =>
      have hlt := lt_size_of_byte? hb
      refine ⟨?_, boundary_of_hasPiece hpiece hb (by simpa [hb] using hlast), heof, ?_, ?_⟩
      · show i < i + size s.1
        omega
      · intro hw
        exact congrArg (i + ·) (hwide hw)
      · intro hg
        exact absurd (hsigil.symm.trans hg) Bool.false_ne_true
  · cases h

/-- A name, a number or a run: a plain kind, at least one byte long. -/
theorem Munched.plain {kind : TokenKind} {stop : Nat}
    (hkind : kind ≠ .eof ∧ kind.isWide = false ∧ kind.hasSigil = false) (hlt : i < stop)
    (hstop : Boundary text stop) :
    Munched text i (kind, stop) :=
  ⟨hlt, hstop, hkind.1, fun h => absurd (hkind.2.1.symm.trans h) Bool.false_ne_true,
    fun h => absurd (hkind.2.2.symm.trans h) Bool.false_ne_true⟩

theorem unknown_munched (h : Boundary text i) (hb : byte? text i = some b) :
    Munched text i (unknown text i) := by
  unfold unknown
  rw [hb]
  refine .plain (by decide) ?_ (h.add_charWidth hb)
  show i < i + charWidth b
  have := Content.charWidth_pos b
  omega

theorem punctuation_munched (h : Boundary text i) (hb : byte? text i = some b) :
    Munched text i (punctuation text i) := by
  unfold punctuation
  cases hs : spelled? text i with
  | none => exact unknown_munched h hb
  | some m => exact spelled?_munched hs

theorem word_munched (h : Boundary text i) (hb : byte? text i = some b)
    (hname : isNameStart b = true) : Munched text i (word text i) := by
  unfold word
  cases hs : spelled? text i with
  | none =>
    refine .plain (by decide) (lt_runEnd hb ?_) (runEnd_boundary_of_class (fun _ => isAscii_of_isNameByte) h)
    simp only [isNameByte, hname, Bool.true_or]
  | some m => exact spelled?_munched hs

/-! ### Numbers -/

theorem digitsEnd_boundary (h : Boundary text i) : Boundary text (digitsEnd text i) := by
  refine runEnd_boundary_of_class (fun c hc => ?_) h
  rcases Bool.or_eq_true_iff.1 hc with hd | he
  · exact isAscii_of_isDigit hd
  · rw [beq_iff_eq.1 he]
    decide

theorem digitAt_iff : digitAt text i = true ↔ ∃ b, byte? text i = some b ∧ isDigit b = true := by
  unfold digitAt
  cases byte? text i <;> simp

theorem exponentEnd_boundary (h : Boundary text i) : Boundary text (exponentEnd text i) := by
  unfold exponentEnd
  split
  · extract_lets j
    split
    · rename_i hd
      obtain ⟨c, hc, hdigit⟩ := digitAt_iff.1 hd
      exact runEnd_boundary_of_class (fun _ => isAscii_of_isDigit)
        (.of_byte hc (isAscii_of_isDigit hdigit))
    · exact h
  · exact h

theorem le_exponentEnd : i ≤ exponentEnd text i := by
  unfold exponentEnd
  split
  · extract_lets j
    have hj : i ≤ j := by
      unfold j
      split <;> omega
    split
    · exact Nat.le_trans hj (Heredoc.le_runEnd _ _ _)
    · exact Nat.le_refl _
  · exact Nat.le_refl _

theorem number_munched (h : Boundary text i) (hb : byte? text i = some b)
    (hdigit : isDigit b = true) : Munched text i (number text i) := by
  have hlt : i < digitsEnd text i := lt_runEnd hb (by simp only [hdigit, Bool.true_or])
  unfold number
  simp only
  split
  · rename_i hpoint
    rw [Bool.and_eq_true, digitAt_iff] at hpoint
    obtain ⟨-, c, hc, hd⟩ := hpoint
    have hfraction : digitsEnd text i + 1 ≤ digitsEnd text (digitsEnd text i + 1) :=
      Heredoc.le_runEnd _ _ _
    have hexponent : _ ≤ exponentEnd text (digitsEnd text (digitsEnd text i + 1)) :=
      le_exponentEnd
    refine .plain (by decide) (by omega) (exponentEnd_boundary (digitsEnd_boundary ?_))
    exact .of_byte hc (isAscii_of_isDigit hd)
  · exact .plain (by decide) hlt (digitsEnd_boundary h)

/-! ### Sigils -/

theorem isAscii_of_isSpecial {b : UInt8} (h : isSpecial b = true) : IsAscii b := by
  simp only [isSpecial, Bool.or_eq_true, beq_iff_eq] at h
  rcases h with ((((((h | rfl) | rfl) | rfl) | rfl) | rfl) | rfl) | rfl
  · exact isAscii_of_isDigit h
  all_goals decide

theorem nameAt_iff : nameAt text i = true ↔
    ∃ b, byte? text i = some b ∧ isNameStart b = true := by
  unfold nameAt
  cases byte? text i <;> simp

/-- The end of a name right after a sigil at `i`. -/
theorem sigil_name (hname : nameAt text (i + 1) = true) :
    i < runEnd text isNameByte (i + 1) ∧ Boundary text (i + 1) ∧
      Boundary text (runEnd text isNameByte (i + 1)) := by
  obtain ⟨c, hc, hstart⟩ := nameAt_iff.1 hname
  have hbyte : isNameByte c = true := by simp only [isNameByte, hstart, Bool.true_or]
  have hnext : Boundary text (i + 1) := .of_byte hc (isAscii_of_isNameByte hbyte)
  exact ⟨Nat.le_of_succ_le (lt_runEnd hc hbyte), hnext,
    runEnd_boundary_of_class (fun _ => isAscii_of_isNameByte) hnext⟩

theorem dollar_munched (h : Boundary text i) (hb : byte? text i = some b) :
    Munched text i (dollar text i) := by
  unfold dollar
  split
  · rename_i hname
    obtain ⟨hlt, hnext, hend⟩ := sigil_name hname
    exact ⟨hlt, hend, by simp, by simp [TokenKind.isWide], fun _ => hnext⟩
  · split
    · rename_i hspecial
      cases hc : byte? text (i + 1) with
      | none => simp [hc] at hspecial
      | some c =>
        have hascii : IsAscii c := isAscii_of_isSpecial (by simpa [hc] using hspecial)
        exact ⟨by simp, .succ hc hascii, by simp, by simp [TokenKind.isWide],
          fun _ => .of_byte hc hascii⟩
    · exact punctuation_munched h hb

theorem atSign_munched (h : Boundary text i) (hb : byte? text i = some b) :
    Munched text i (atSign text i) := by
  unfold atSign
  split
  · rename_i hname
    obtain ⟨hlt, hnext, hend⟩ := sigil_name hname
    exact ⟨hlt, hend, by simp, by simp [TokenKind.isWide], fun _ => hnext⟩
  · exact punctuation_munched h hb

/-! ### The rest -/

theorem backslash_munched (hb : byte? text i = some 0x5c) :
    Munched text i (backslash text i) := by
  have hnext : Boundary text (i + 1) := .succ hb (by decide)
  unfold backslash
  split
  · rename_i c hc
    split
    · exact .plain (by decide) (Nat.lt_succ_self i) hnext
    · exact .plain (by decide) (by have := Content.charWidth_pos c; omega) (hnext.add_charWidth hc)
  · exact .plain (by decide) (Nat.lt_succ_self i) hnext

theorem hash_munched (hb : byte? text i = some 0x23) : Munched text i (hash text i) := by
  unfold hash
  split
  · refine .plain (by decide) (lt_runEnd hb (by decide)) (runEnd_boundary_of_end (fun c hc => ?_) ?_)
    · rw [bne_eq_false_iff_eq.1 hc]
      decide
    · exact Nat.le_of_lt (lt_size_of_byte? hb)
  · exact .plain (by decide) (Nat.lt_succ_self i) (.succ hb (by decide))

theorem munch_munched (h : Boundary text i) (hb : byte? text i = some b) :
    Munched text i (munch text i b) := by
  unfold munch
  split
  · exact word_munched h hb ‹_›
  split
  · exact number_munched h hb ‹_›
  split
  · rename_i hhigh
    refine .plain (by decide) (lt_runEnd hb (by simpa using hhigh)) (runEnd_boundary_of_end (fun c hc => ?_) ?_)
    · simpa [IsAscii] using hc
    · exact Nat.le_of_lt (lt_size_of_byte? hb)
  split
  · exact dollar_munched h hb
  split
  · exact atSign_munched h hb
  split
  · rename_i hhash
    exact hash_munched (hb.trans (congrArg some (beq_iff_eq.1 hhash)))
  split
  · rename_i hslash
    exact backslash_munched (hb.trans (congrArg some (beq_iff_eq.1 hslash)))
  · exact punctuation_munched h hb

/-! ### Blanks -/

theorem isAscii_of_isBlank {b : UInt8} (h : isBlank b = true) : IsAscii b := by
  simp only [isBlank, Bool.or_eq_true, beq_iff_eq] at h
  rcases h with ((rfl | rfl) | rfl) | rfl <;> decide

theorem blankWidth_boundary (h : Boundary text i) : Boundary text (i + blankWidth text i) := by
  unfold blankWidth
  split
  · exact h
  · rename_i c hc
    split
    · exact .succ hc (isAscii_of_isBlank ‹_›)
    split
    · split
      · exact .succ (hasByte_iff.1 ‹_›) (by decide)
      split
      · rename_i hreturn
        exact .succ (hasByte_iff.1 (Bool.and_eq_true_iff.1 hreturn).2) (by decide)
      · exact h
    · exact h

theorem skipBlanks_boundary (h : Boundary text i) : Boundary text (skipBlanks text i) := by
  fun_induction skipBlanks text i with
  | case1 i _ width _ ih => exact ih (blankWidth_boundary h)
  | case2 => exact h
  | case3 => exact h

theorem le_skipBlanks (text : String) (i : Nat) : i ≤ skipBlanks text i := by
  fun_induction skipBlanks text i with
  | case1 i _ width _ ih => exact Nat.le_trans (Nat.le_add_right _ _) ih
  | case2 => exact Nat.le_refl _
  | case3 => exact Nat.le_refl _

/-- No blank stands where blanks were skipped. -/
theorem blankWidth_skipBlanks (text : String) (i : Nat) :
    blankWidth text (skipBlanks text i) = 0 := by
  fun_induction skipBlanks text i with
  | case1 _ _ _ _ ih => exact ih
  | case2 i _ width hwidth => exact Nat.eq_zero_of_not_pos hwidth
  | case3 i hi =>
    unfold blankWidth
    rw [byte?_eq_none.2 (Nat.le_of_not_lt hi)]

theorem skipBlanks_of_blankWidth (h : blankWidth text i = 0) : skipBlanks text i = i := by
  rw [skipBlanks.eq_def]
  simp [h]

/-- Where the token at an offset starts. -/
theorem tokenAt_span_start (text : String) (offset : Nat) :
    (tokenAt text offset).span.start = skipBlanks text (ceil text offset) := by
  have hboundary : Boundary text (skipBlanks text (ceil text offset)) :=
    skipBlanks_boundary (ceil_boundary text offset)
  unfold tokenAt
  simp only
  split
  · rename_i hnone
    exact Nat.le_antisymm (byte?_eq_none.1 hnone) hboundary.le_size
  · rfl

end Lexer

/-! ## Tokens at an offset -/

/-- What is known of a token that was read at `i` or after it. -/
structure Token.ReadFrom (text : String) (i : Nat) (t : Token) : Prop where
  cut : Cut text t.span
  le : i ≤ t.span.start
  lt : t.kind ≠ .eof → t.span.start < t.span.stop
  eof : t.kind = .eof → t.span = .empty (size text)
  wide : t.kind.isWide = true → t.span.stop = t.span.start + 2
  sigil : t.kind.hasSigil = true → Boundary text (t.span.start + 1)

namespace Token.ReadFrom

variable {text : String} {i j : Nat} {t : Token}

theorem mono (h : t.ReadFrom text j) (hij : i ≤ j) : t.ReadFrom text i :=
  { h with le := Nat.le_trans hij h.le }

/-- The token for the end of the text. -/
theorem end_of_text (h : i ≤ size text) : (⟨.eof, .empty (size text)⟩ : Token).ReadFrom text i where
  cut := cut_empty (boundary_size text)
  le := h
  lt := fun h => absurd rfl h
  eof := fun _ => rfl
  wide := fun h => by cases h
  sigil := fun h => by cases h

theorem start_eq_size (h : t.ReadFrom text i) (heof : t.kind = .eof) :
    t.span.start = size text := by
  rw [h.eof heof]
  rfl

end Token.ReadFrom

/-- The token at any offset of the text. -/
theorem Lexer.tokenAt_spec {text : String} {i : Nat} (h : i ≤ size text) :
    (tokenAt text i).ReadFrom text i := by
  have hstart : i ≤ skipBlanks text (ceil text i) :=
    Nat.le_trans (le_ceil h) (le_skipBlanks _ _)
  have hboundary : Boundary text (skipBlanks text (ceil text i)) :=
    skipBlanks_boundary (ceil_boundary text i)
  unfold tokenAt
  simp only
  split
  · exact .end_of_text h
  · rename_i b hb
    have hm := munch_munched hboundary hb
    have hstop := Span.stop_upTo (Nat.le_of_lt hm.lt)
    exact {
      cut := cut_upTo hboundary hm.boundary
      le := hstart
      lt := fun _ => by rw [hstop]; exact hm.lt
      eof := fun heof => absurd heof hm.ne_eof
      wide := fun hw => by rw [hstop]; exact hm.wide hw
      sigil := hm.sigil }

/-! ## Significant tokens -/

namespace Parse

variable {text : String} {skip : Bool} {i fuel : Nat}

theorem significantFrom_spec (h : i ≤ size text) :
    (significantFrom text skip fuel i).ReadFrom text i := by
  induction fuel generalizing i with
  | zero => exact .end_of_text h
  | succ fuel ih =>
    have ht := Lexer.tokenAt_spec h
    unfold significantFrom
    simp only
    split
    · exact (ih ht.cut.stop_le).mono (Nat.le_trans ht.le (Span.start_le_stop _))
    · exact ht

/-- The token a parser looks at from an offset. -/
theorem significant_spec (h : i ≤ size text) : (significantAt text skip i).ReadFrom text i :=
  significantFrom_spec h

/-- A token that is neither a comment nor a newline is significant. -/
theorem significantAt_eq (h : i ≤ size text) (hc : (Lexer.tokenAt text i).kind ≠ .comment)
    (hn : (Lexer.tokenAt text i).kind ≠ .newline) :
    significantAt text skip i = Lexer.tokenAt text i := by
  unfold significantAt
  rw [show size text + 1 - i = size text - i + 1 by omega]
  unfold significantFrom
  rw [if_neg]
  simp [hc, hn]

/-- Where no newline comes next, it makes no difference whether newlines count. -/
theorem significantAt_skip (h : (significantAt text false i).kind ≠ .newline) :
    significantAt text skip i = significantAt text false i := by
  suffices ∀ fuel i, (significantFrom text false fuel i).kind ≠ .newline →
      significantFrom text skip fuel i = significantFrom text false fuel i from this _ _ h
  intro fuel
  induction fuel with
  | zero => intro i _; rfl
  | succ fuel ih =>
    intro i hi
    unfold significantFrom at hi ⊢
    simp only [Bool.false_and, Bool.or_false] at hi ⊢
    split at hi
    · rename_i hcomment
      simp only [hcomment, Bool.true_or, if_true]
      exact ih _ hi
    · rename_i hcomment
      rw [if_neg, if_neg hcomment]
      simp_all

end Parse

end ShellAnalysis
