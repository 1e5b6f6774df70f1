import ShellAnalysis.Proofs.Lossless

/-!
# Tokens of a text that goes on after a line end

No token goes on behind a line end, and whether a `#` opens a comment is decided
by the one byte before it.  So a text that ends in a line feed keeps its tokens
when more text is put behind it, and what is put behind it has the tokens it has
alone, moved on (`tokenize_append`).

`Agrees text text' d i` says that two texts have the same bytes from `i` on up
to the first line feed, `d` bytes further on in the second.  Every family of
tokens reads only those bytes (`Agrees.munch`).
-/

namespace ShellAnalysis

open Text

/-- The same bytes further on. -/
def Span.shift (d : Nat) (s : Span) : Span := ⟨d + s.start, s.length⟩

/-- The same token further on. -/
def Token.shift (d : Nat) (t : Token) : Token := ⟨t.kind, t.span.shift d⟩

@[simp]
theorem Span.stop_shift (d : Nat) (s : Span) : (s.shift d).stop = d + s.stop :=
  Nat.add_assoc d s.start s.length

theorem Span.shift_upTo (d i j : Nat) : (upTo i j).shift d = upTo (d + i) (d + j) := by
  simp only [shift, upTo, Nat.add_sub_add_left]

@[simp]
theorem Token.shift_zero (t : Token) : t.shift 0 = t := by
  obtain ⟨kind, start, length⟩ := t
  simp only [shift, Span.shift, Nat.zero_add]

namespace Lexer

section

variable {text text' : String} {d i : Nat} {b : UInt8}

/-! ## Texts that agree to the end of a line -/

/-- From `i` on up to the first line feed the second text has the bytes of the first, `d` further
on. -/
def Agrees (text text' : String) (d i : Nat) : Prop :=
  ∀ k, (∀ m < k, byte? text (i + m) ≠ some 0x0a) →
    byte? text' (d + (i + k)) = byte? text (i + k)

theorem Agrees.byte_eq (h : Agrees text text' d i) : byte? text' (d + i) = byte? text i :=
  h 0 fun _ hm => absurd hm (Nat.not_lt_zero _)

theorem Agrees.hasByte_eq (h : Agrees text text' d i) (b : UInt8) :
    hasByte text' (d + i) b = hasByte text i b := by
  unfold hasByte
  rw [h.byte_eq]

theorem Agrees.digitAt_eq (h : Agrees text text' d i) : digitAt text' (d + i) = digitAt text i := by
  unfold digitAt
  rw [h.byte_eq]

theorem Agrees.nameAt_eq (h : Agrees text text' d i) : nameAt text' (d + i) = nameAt text i := by
  unfold nameAt
  rw [h.byte_eq]

theorem Agrees.next (h : Agrees text text' d i) (hb : byte? text i = some b) (hne : b ≠ 0x0a) :
    Agrees text text' d (i + 1) := by
  intro k hk
  rw [Nat.add_assoc, Nat.add_comm 1 k]
  refine h (k + 1) fun m hm => ?_
  cases m with
  | zero =>
    rw [Nat.add_zero, hb]
    exact fun heq => hne (Option.some.inj heq)
  | succ m =>
    rw [Nat.add_comm m 1, ← Nat.add_assoc]
    exact hk m (Nat.lt_of_succ_lt_succ hm)

theorem Agrees.after (h : Agrees text text' d i) (hb : hasByte text i b = true) (hne : b ≠ 0x0a) :
    Agrees text text' d (i + 1) := h.next (hasByte_iff.1 hb) hne

/-- A run that no line feed belongs to has its end in the line. -/
theorem Agrees.runEnd_eq (h : Agrees text text' d i) (inClass : UInt8 → Bool)
    (hfeed : inClass 0x0a = false) :
    runEnd text' inClass (d + i) = d + runEnd text inClass i ∧
      Agrees text text' d (runEnd text inClass i) := by
  fun_induction runEnd text inClass i with
  | case1 i b hb hin ih =>
    have hne : b ≠ 0x0a := by
      rintro rfl
      rw [hfeed] at hin
      cases hin
    rw [runEnd.eq_def]
    split
    · rename_i b' hb'
      obtain rfl : b' = b := Option.some.inj (hb'.symm.trans (h.byte_eq.trans hb))
      rw [if_pos hin]
      exact ih (h.next hb hne)
    · rename_i hnone
      cases hnone.symm.trans (h.byte_eq.trans hb)
  | case2 i b hb hin =>
    refine ⟨?_, h⟩
    rw [runEnd.eq_def]
    split
    · rename_i b' hb'
      obtain rfl : b' = b := Option.some.inj (hb'.symm.trans (h.byte_eq.trans hb))
      rw [if_neg hin]
    · rfl
  | case3 i hnone =>
    refine ⟨?_, h⟩
    rw [runEnd.eq_def]
    split
    · rename_i b' hb'
      cases hb'.symm.trans (h.byte_eq.trans hnone)
    · rfl

/-! ## Families of tokens -/

theorem Agrees.hasPiece_eq {piece : String} (h : Agrees text text' d i)
    (hpiece : ∀ k, k + 1 < size piece → byte? piece k ≠ some 0x0a) :
    hasPiece text' (d + i) piece = hasPiece text i piece := by
  have hsame : ∀ k < size piece,
      (∀ m < k, ∃ b, byte? piece m = some b ∧ byte? text (i + m) = some b) →
      byte? text' (d + (i + k)) = byte? text (i + k) := by
    intro k hk hbefore
    refine h k fun m hm => ?_
    obtain ⟨b, hp, ht⟩ := hbefore m hm
    rw [ht, ← hp]
    exact hpiece m (by omega)
  unfold hasPiece
  rw [Bool.eq_iff_iff, hasBytes_iff, hasBytes_iff]
  constructor
  · intro hat
    -- the bytes before the one looked at are those of the piece, so they are no line feeds
    have hall : ∀ n ≤ size piece, ∀ k < n, ∃ b, byte? piece k = some b ∧
        byte? text (i + k) = some b := by
      intro n
      induction n with
      | zero => exact fun _ k hk => absurd hk (Nat.not_lt_zero k)
      | succ n ih =>
        intro hn k hk
        have hbefore := ih (by omega)
        rcases Nat.lt_succ_iff_lt_or_eq.1 hk with hk | rfl
        · exact hbefore k hk
        · obtain ⟨b, hp, ht⟩ := hat k hn
          rw [Nat.add_assoc] at ht
          exact ⟨b, hp, (hsame k hn hbefore).symm.trans ht⟩
    exact hall _ (Nat.le_refl _)
  · intro hat k hk
    obtain ⟨b, hp, ht⟩ := hat k hk
    have hsame := hsame k hk fun m hm => hat m (by omega)
    exact ⟨b, hp, by rw [Nat.add_assoc, hsame, ht]⟩

/-- No spelling goes on behind a line feed. -/
theorem spelling_in_line : ∀ s ∈ TokenKind.spellings b,
    ∀ k, k + 1 < size s.1 → byte? s.1 k ≠ some 0x0a := by
  have hlist : ∀ s ∈ TokenKind.spellings b, ∀ k < size s.1, k + 1 < size s.1 →
      byte? s.1 k ≠ some 0x0a := by
    unfold TokenKind.spellings
    split <;> decide
  exact fun s hs k hk => hlist s hs k (by omega) hk

/-- A kind and an end of a token, further on. -/
def moved (d : Nat) (m : TokenKind × Nat) : TokenKind × Nat := (m.1, d + m.2)

theorem Agrees.spelled?_eq (h : Agrees text text' d i) :
    spelled? text' (d + i) = (spelled? text i).map (moved d) := by
  unfold spelled?
  rw [h.byte_eq]
  cases byte? text i with
  | none => rfl
  | some b =>
    simp only [Option.map_map]
    rw [find?_congr fun s hs => h.hasPiece_eq (spelling_in_line s hs)]
    congr 1
    funext s
    exact Prod.ext rfl (Nat.add_assoc d i (size s.1))

theorem Agrees.punctuation_eq (h : Agrees text text' d i) :
    punctuation text' (d + i) = moved d (punctuation text i) := by
  have hunknown : unknown text' (d + i) = moved d (unknown text i) := by
    unfold unknown
    rw [h.byte_eq]
    exact Prod.ext rfl (Nat.add_assoc _ _ _)
  unfold punctuation
  rw [h.spelled?_eq, hunknown]
  cases spelled? text i <;> rfl

theorem Agrees.word_eq (h : Agrees text text' d i) :
    word text' (d + i) = moved d (word text i) := by
  unfold word
  rw [h.spelled?_eq, (h.runEnd_eq isNameByte rfl).1]
  cases spelled? text i <;> rfl

theorem Agrees.exponentEnd_eq (h : Agrees text text' d i) :
    exponentEnd text' (d + i) = d + exponentEnd text i := by
  unfold exponentEnd
  rw [h.hasByte_eq, h.hasByte_eq]
  split
  · rename_i hmark
    have h₁ : Agrees text text' d (i + 1) := by
      rcases Bool.or_eq_true_iff.1 hmark with hmark | hmark <;> exact h.after hmark (by decide)
    rw [Nat.add_assoc d i 1, h₁.hasByte_eq, h₁.hasByte_eq]
    obtain ⟨j, hj, hj', h₂⟩ : ∃ j,
        (if hasByte text (i + 1) 0x2b || hasByte text (i + 1) 0x2d then i + 2 else i + 1) = j ∧
        (if hasByte text (i + 1) 0x2b || hasByte text (i + 1) 0x2d then d + i + 2
          else d + (i + 1)) = d + j ∧ Agrees text text' d j := by
      split
      · rename_i hsign
        refine ⟨i + 2, rfl, Nat.add_assoc d i 2, ?_⟩
        rcases Bool.or_eq_true_iff.1 hsign with hsign | hsign <;>
          exact h₁.after hsign (by decide)
      · exact ⟨i + 1, rfl, rfl, h₁⟩
    simp only [hj, hj', h₂.digitAt_eq]
    split
    · exact (h₂.runEnd_eq _ rfl).1
    · rfl
  · rfl

theorem Agrees.number_eq (h : Agrees text text' d i) :
    number text' (d + i) = moved d (number text i) := by
  have hdigits : ∀ {j}, Agrees text text' d j →
      digitsEnd text' (d + j) = d + digitsEnd text j ∧ Agrees text text' d (digitsEnd text j) :=
    fun hj => hj.runEnd_eq _ rfl
  obtain ⟨hwhole, h₁⟩ := hdigits h
  unfold number
  simp only [hwhole, h₁.hasByte_eq]
  by_cases hpoint : hasByte text (digitsEnd text i) 0x2e = true
  · have h₂ := h₁.after hpoint (by decide)
    obtain ⟨hfraction, h₃⟩ := hdigits h₂
    rw [Nat.add_assoc d, h₂.digitAt_eq, hfraction, h₃.exponentEnd_eq]
    split <;> rfl
  · simp only [hpoint, Bool.false_and, Bool.false_eq_true, if_false]
    rfl

theorem Agrees.dollar_eq (h : Agrees text text' d i) (h₁ : Agrees text text' d (i + 1)) :
    dollar text' (d + i) = moved d (dollar text i) := by
  unfold dollar
  rw [Nat.add_assoc d i 1, h₁.nameAt_eq, h₁.byte_eq, (h₁.runEnd_eq isNameByte rfl).1,
    h.punctuation_eq]
  split
  · rfl
  split <;> rfl

theorem Agrees.atSign_eq (h : Agrees text text' d i) (h₁ : Agrees text text' d (i + 1)) :
    atSign text' (d + i) = moved d (atSign text i) := by
  unfold atSign
  rw [Nat.add_assoc d i 1, h₁.nameAt_eq, (h₁.runEnd_eq isNameByte rfl).1,
    h.punctuation_eq]
  split <;> rfl

theorem Agrees.backslash_eq (h₁ : Agrees text text' d (i + 1)) :
    backslash text' (d + i) = moved d (backslash text i) := by
  unfold backslash
  rw [Nat.add_assoc d i 1, h₁.byte_eq]
  cases byte? text (i + 1) with
  | none => rfl
  | some b =>
    simp only
    split
    · rfl
    · exact Prod.ext rfl (Nat.add_assoc d (i + 1) (charWidth b))

theorem Agrees.hash_eq (h : Agrees text text' d i)
    (hstarts : startsWord text' (d + i) = startsWord text i) :
    hash text' (d + i) = moved d (hash text i) := by
  unfold hash
  rw [hstarts]
  split
  · exact Prod.ext rfl (h.runEnd_eq (· != 0x0a) rfl).1
  · rfl

theorem Agrees.munch_eq (h : Agrees text text' d i)
    (hstarts : startsWord text' (d + i) = startsWord text i) (hb : byte? text i = some b) :
    munch text' (d + i) b = moved d (munch text i b) := by
  unfold munch
  split
  · exact h.word_eq
  split
  · exact h.number_eq
  split
  · exact Prod.ext rfl (h.runEnd_eq (0x80 ≤ ·) (by decide)).1
  have hnext : ∀ {c : UInt8}, (b == c) = true → c ≠ 0x0a → Agrees text text' d (i + 1) :=
    fun hbc hne => h.next hb (beq_iff_eq.1 hbc ▸ hne)
  split
  · rename_i hdollar
    exact h.dollar_eq (hnext hdollar (by decide))
  split
  · rename_i hat
    exact h.atSign_eq (hnext hat (by decide))
  split
  · exact h.hash_eq hstarts
  split
  · rename_i hslash
    exact (hnext hslash (by decide)).backslash_eq
  · exact h.punctuation_eq

theorem Agrees.blankWidth_eq (h : Agrees text text' d i) :
    blankWidth text' (d + i) = blankWidth text i := by
  unfold blankWidth
  rw [h.byte_eq]
  cases hb : byte? text i with
  | none => rfl
  | some b =>
    simp only
    split
    · rfl
    split
    · rename_i hslash
      have h₁ := h.next hb (beq_iff_eq.1 hslash ▸ by decide)
      rw [Nat.add_assoc d i 1, h₁.hasByte_eq, h₁.hasByte_eq]
      split
      · rfl
      by_cases hreturn : hasByte text (i + 1) 0x0d = true
      · have h₂ := h₁.after hreturn (by decide)
        rw [Nat.add_assoc d i 2, h₂.hasByte_eq]
      · simp only [hreturn, Bool.false_and, Bool.false_eq_true, if_false]
    · rfl

/-! ## Texts that repeat a text -/

/-- Whatever is read of the first text is read of the second as well, `d` bytes further on, as long
as the first goes on. -/
structure Repeats (text text' : String) (d : Nat) : Prop where
  agrees : ∀ i < size text, Agrees text text' d i
  starts : ∀ i < size text, startsWord text' (d + i) = startsWord text i
  boundary : ∀ i, Boundary text i → Boundary text' (d + i)

theorem boundary_append_left {a : String} (h : Boundary a i) (b : String) : Boundary (a ++ b) i := by
  obtain ⟨head, tail, rfl, hi⟩ :=
    String.Pos.Raw.isValid_iff_exists_append.1 (String.Pos.Raw.isValid_eq_true_iff.1 h)
  exact Rest.boundary ⟨head, String.append_assoc, congrArg String.Pos.Raw.byteIdx hi⟩

theorem boundary_append_right (a : String) {b : String} (h : Boundary b i) :
    Boundary (a ++ b) (size a + i) := by
  obtain ⟨head, tail, rfl, hi⟩ :=
    String.Pos.Raw.isValid_iff_exists_append.1 (String.Pos.Raw.isValid_eq_true_iff.1 h)
  obtain rfl : i = size head := congrArg String.Pos.Raw.byteIdx hi
  exact Rest.boundary ⟨a ++ head, String.append_assoc.symm, (size_append a head).symm⟩

/-- A text is empty, or its last byte is a line feed. -/
def EndsLine (text : String) : Prop := text = "" ∨ byte? text (size text - 1) = some 0x0a

theorem repeats_left {a : String} (h : EndsLine a) (b : String) : Repeats a (a ++ b) 0 where
  agrees := by
    intro i hi k hk
    rw [Nat.zero_add]
    refine byte?_append_left (Nat.lt_of_not_le fun hle => ?_) b
    -- the last byte of the first text is a line feed, and nothing is read behind it
    rcases h with rfl | hlast
    · exact absurd hi (Nat.not_lt_zero i)
    · refine hk (size a - 1 - i) (by omega) ?_
      rw [← hlast]
      congr 1
      omega
  starts := by
    intro i hi
    unfold startsWord
    rw [Nat.zero_add, byte?_append_left (by omega)]
  boundary := by
    intro i hi
    rw [Nat.zero_add]
    exact boundary_append_left hi b

theorem repeats_right {a : String} (h : EndsLine a) (b : String) :
    Repeats b (a ++ b) (size a) where
  agrees := fun i _ k _ => byte?_append_right a b (i + k)
  starts := by
    intro i _
    unfold startsWord
    cases i with
    | zero =>
      rcases h with rfl | hlast
      · simp
      · have hlt := lt_size_of_byte? hlast
        rw [Nat.add_zero, byte?_append_left (by omega), hlast]
        simp only [Option.map_some, Option.getD_some, BEq.rfl, Bool.true_or]
        exact Bool.or_eq_true_iff.2 (.inr (by decide))
    | succ i =>
      have hne : (size a + (i + 1) == 0) = (i + 1 == 0) := by
        rw [beq_eq_false_iff_ne.2 (by omega), beq_eq_false_iff_ne.2 (by omega)]
      rw [hne, show size a + (i + 1) - 1 = size a + i from rfl, byte?_append_right]
      rfl
  boundary := fun i hi => boundary_append_right a hi

/-- Blanks are skipped in the second text as they are in the first. -/
theorem Repeats.skipBlanks_eq (h : Repeats text text' d) (i : Nat) :
    skipBlanks text' (d + i) = skipBlanks text' (d + skipBlanks text i) := by
  fun_induction skipBlanks text i with
  | case1 i hi width hwidth ih =>
    have hsame : blankWidth text' (d + i) = width := (h.agrees i hi).blankWidth_eq
    have hlt : d + i < size text' := by
      refine Nat.lt_of_not_le fun hle => ?_
      have hnone : blankWidth text' (d + i) = 0 := by
        unfold blankWidth
        rw [byte?_eq_none.2 hle]
      omega
    rw [skipBlanks.eq_def, if_pos hlt]
    simp only [hsame, if_pos hwidth]
    rw [Nat.add_assoc]
    exact ih
  | case2 => rfl
  | case3 => rfl

/-- Where the first text has a token the second has the same one further on. -/
theorem Repeats.tokenAt_eq (h : Repeats text text' d) (hi : Boundary text i)
    (hkind : (tokenAt text i).kind ≠ .eof) :
    tokenAt text' (d + i) = (tokenAt text i).shift d := by
  unfold tokenAt at hkind ⊢
  rw [ceil_eq hi] at hkind ⊢
  rw [ceil_eq (h.boundary i hi), h.skipBlanks_eq]
  simp only at hkind ⊢
  cases hb : byte? text (skipBlanks text i) with
  | none =>
    rw [hb] at hkind
    exact absurd rfl hkind
  | some b =>
    have hlt := lt_size_of_byte? hb
    have hagrees := h.agrees _ hlt
    have hstay : skipBlanks text' (d + skipBlanks text i) = d + skipBlanks text i :=
      skipBlanks_of_blankWidth (hagrees.blankWidth_eq.trans (blankWidth_skipBlanks text i))
    rw [hstay, hagrees.byte_eq, hb]
    simp only [hagrees.munch_eq (h.starts _ hlt) hb]
    exact congrArg (Token.mk _) (Span.shift_upTo d _ _).symm

/-! ## The tokens of whole texts -/

variable {j : Nat} {ts us : List Token}

/-- The tokens from an offset on are determined by the text. -/
theorem Tiled.unique (h : Tiled text i ts) (h' : Tiled text i us) : ts = us := by
  induction h generalizing us with
  | done heof =>
    cases h' with
    | done => rfl
    | token hne => exact absurd heof hne
  | token hne _ _ ih =>
    cases h' with
    | done heof => exact absurd heof hne
    | token _ _ htail => rw [ih htail]

/-- Where one token is read, all later ones are the same. -/
theorem Tiled.of_tokenAt_eq (h : Tiled text j ts) (hi : Boundary text i)
    (heq : tokenAt text i = tokenAt text j) : Tiled text i ts := by
  have hlossless : Lossless text i (tokenAt text i) := by
    have h := tokenAt_lossless text i
    rwa [ceil_eq hi] at h
  cases h with
  | done heof =>
    rw [← heq] at heof
    have hskips := hlossless.skips
    rw [hlossless.eof heof] at hskips
    exact .done heof hskips
  | token hne _ htail =>
    rw [← heq] at hne htail ⊢
    exact .token hne hlossless htail

/-- The tokens of the first text, and then what follows in the second. -/
theorem Tiled.repeats (h : Tiled text i ts) (hr : Repeats text text' d) (hi : Boundary text i)
    (hrest : Tiled text' (d + size text) us) :
    Tiled text' (d + i) (ts.map (Token.shift d) ++ us) := by
  induction h with
  | @done i heof =>
    refine hrest.of_tokenAt_eq (hr.boundary i hi) ?_
    have hend : skipBlanks text i = size text := by
      have hstart := tokenAt_span_start text i
      rwa [(tokenAt_readFrom text i).start_eq_size heof, ceil_eq hi, eq_comm] at hstart
    unfold tokenAt
    rw [ceil_eq (hr.boundary i hi), ceil_eq (hr.boundary _ (boundary_size text)), hr.skipBlanks_eq,
      hend]
  | @token i ts hne _ _ ih =>
    have heq := hr.tokenAt_eq hi hne
    have hcut := (tokenAt_readFrom text i).cut
    have htail := ih hcut.2
    have hkind : (tokenAt text' (d + i)).kind ≠ .eof := by
      rw [heq]
      exact hne
    have hlossless : Lossless text' (d + i) (tokenAt text' (d + i)) := by
      have h := tokenAt_lossless text' (d + i)
      rwa [ceil_eq (hr.boundary i hi)] at h
    rw [List.map_cons, List.cons_append, ← heq]
    refine .token hkind hlossless ?_
    rw [heq]
    simpa [Token.shift] using htail

/-- When more text is put behind a text that is empty or ends in a line feed, its tokens stay as they
are, and what is put behind it has the tokens it has alone, moved on by the size of the text. -/
theorem tokenize_append {a : String} (h : EndsLine a) (b : String) :
    tokenize (a ++ b) = tokenize a ++ (tokenize b).map (Token.shift (size a)) := by
  have htiled : ∀ text, Tiled text 0 (tokenize text) := fun text =>
    tokensFrom_tiled (boundary_zero text) (Nat.sub_le _ _)
  have hend : Tiled (a ++ b) (size a + size b) [] := by
    rw [← size_append]
    exact .done (by rw [tokenAt_past (Nat.le_refl _)]) (.done _)
  have hb := (htiled b).repeats (repeats_right h b) (boundary_zero b) hend
  rw [List.append_nil, Nat.add_zero] at hb
  have ha := (htiled a).repeats (repeats_left h b) (boundary_zero a) (by rwa [Nat.zero_add])
  rw [List.map_id'' Token.shift_zero, Nat.zero_add] at ha
  exact (htiled (a ++ b)).unique ha

end

end Lexer

end ShellAnalysis
