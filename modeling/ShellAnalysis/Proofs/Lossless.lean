import ShellAnalysis.Proofs.Lexemes

/-!
# Lexing loses nothing

`Skips text i j` says that between two offsets there are only blanks and line
continuations.  A token that is read at an offset stands behind such a run and
is a piece of the text (`Token.Lossless`); the tokens of a whole text follow
each other that way up to its end (`Tiled`), so that the runs and the tokens put
together are the text again:

    weave text 0 (tokenize text) = text                        (Tiled.weave_eq)

`tokenize` is given as many steps as the text has bytes.  Every token takes one
byte at least, so it reaches the end of the text with what it is given
(`tokensFrom_tiled`).
-/

namespace ShellAnalysis

namespace Text

/-! ## Pieces -/

section

variable {text : String} {i j k : Nat}

theorem toByteArray_slice (hij : i ≤ j) (hi : Boundary text i) (hj : Boundary text j) :
    (slice text i j).toByteArray = text.toByteArray.extract i j := by
  have hi' : String.Pos.Raw.IsValid text ⟨i⟩ := String.Pos.Raw.isValid_eq_true_iff.1 hi
  have hj' : String.Pos.Raw.IsValid text ⟨j⟩ := String.Pos.Raw.isValid_eq_true_iff.1 hj
  unfold slice slice?
  rw [if_pos hij, dif_pos hi', dif_pos hj', Option.getD_some, String.toByteArray_extract]
  rfl

/-- Two pieces that touch make one. -/
theorem slice_append (hij : i ≤ j) (hjk : j ≤ k) (hi : Boundary text i) (hj : Boundary text j)
    (hk : Boundary text k) : slice text i j ++ slice text j k = slice text i k := by
  rw [← String.toByteArray_inj, String.toByteArray_append, toByteArray_slice hij hi hj,
    toByteArray_slice hjk hj hk, toByteArray_slice (Nat.le_trans hij hjk) hi hk,
    ByteArray.extract_append_extract, Nat.min_eq_left hij, Nat.max_eq_right hjk]

theorem slice_all (text : String) : slice text 0 (size text) = text := by
  rw [← String.toByteArray_inj,
    toByteArray_slice (Nat.zero_le _) (boundary_zero text) (boundary_size text)]
  exact ByteArray.extract_zero_size

/-- A word that stands in the text is a piece of it. -/
theorem slice_of_hasPiece {word : String} (h : hasPiece text i word = true)
    (hi : Boundary text i) (hj : Boundary text (i + size word)) :
    slice text i (i + size word) = word := by
  have hle := hj.le_size
  rw [← String.toByteArray_inj, toByteArray_slice (Nat.le_add_right _ _) hi hj]
  apply ByteArray.ext_getElem
  · rw [ByteArray.size_extract]
    show min (i + size word) (size text) - i = size word
    omega
  · intro k hk hk'
    have hbyte : ∀ (t : String) (n : Nat) (hn : n < t.toByteArray.size),
        byte? t n = some t.toByteArray[n] := fun t n hn => dif_pos hn
    obtain ⟨b, hb, hb'⟩ := byte?_of_hasBytes h hk'
    have hik : i + k < text.toByteArray.size := lt_size_of_byte? hb'
    rw [ByteArray.getElem_extract]
    rw [hbyte word k hk'] at hb
    rw [hbyte text (i + k) hik] at hb'
    exact Option.some.inj (hb'.trans hb.symm)

/-- A word of one byte that stands in the text. -/
theorem slice_byte {word : String} {b : UInt8} (h : byte? text i = some b) (hb : IsAscii b)
    (hsize : size word = 1) (hword : byte? word 0 = some b) : slice text i (i + 1) = word := by
  have hpiece : hasPiece text i word = true := by
    refine hasBytes_iff.2 fun k hk => ?_
    obtain rfl : k = 0 := by omega
    exact ⟨b, hword, h⟩
  have hslice := slice_of_hasPiece hpiece (.of_byte h hb) (by rw [hsize]; exact .succ h hb)
  rwa [hsize] at hslice

/-! ## Rounding -/

/-- `i` is the offset rounded up to a character boundary.  Past the end of the text it is the
end. -/
structure RoundsUp (text : String) (offset i : Nat) : Prop where
  boundary : Boundary text i
  le : min offset (size text) ≤ i
  least : ∀ j, offset ≤ j → Boundary text j → i ≤ j

theorem ceil_roundsUp (text : String) (offset : Nat) :
    RoundsUp text offset (ceil text offset) where
  boundary := ceil_boundary text offset
  le := by
    rcases Nat.le_total offset (size text) with h | h
    · exact Nat.le_trans (Nat.min_le_left _ _) (le_ceil h)
    · unfold ceil
      rw [if_neg (Nat.not_lt.2 h)]
      exact Nat.min_le_right _ _
  least := by
    intro j hj hboundary
    fun_induction ceil text offset with
    | case1 => exact hj
    | case2 i _ hi ih =>
      refine ih (Nat.lt_of_le_of_ne hj ?_)
      rintro rfl
      exact hi hboundary
    | case3 i hi =>
      have := hboundary.le_size
      omega

end

end Text

open Text

namespace Lexer

/-! ## Blanks -/

/-- From `i` to `j` there are only blanks and line continuations. -/
inductive Skips (text : String) : Nat → Nat → Prop
  | done (i : Nat) : Skips text i i
  /-- Space, tab, carriage return or form feed. -/
  | blank {i j : Nat} {b : UInt8} : byte? text i = some b →
      b = 0x20 ∨ b = 0x09 ∨ b = 0x0d ∨ b = 0x0c → Skips text (i + 1) j → Skips text i j
  /-- A backslash before a line feed. -/
  | continued {i j : Nat} : byte? text i = some 0x5c → byte? text (i + 1) = some 0x0a →
      Skips text (i + 2) j → Skips text i j
  /-- A backslash before a carriage return and a line feed. -/
  | continuedReturn {i j : Nat} : byte? text i = some 0x5c → byte? text (i + 1) = some 0x0d →
      byte? text (i + 2) = some 0x0a → Skips text (i + 3) j → Skips text i j

section

variable {text : String} {i j : Nat} {b : UInt8}

theorem Skips.le (h : Skips text i j) : i ≤ j := by
  induction h with
  | done => exact Nat.le_refl _
  | blank _ _ _ ih => omega
  | continued _ _ _ ih => omega
  | continuedReturn _ _ _ _ ih => omega

/-- What `blankWidth` measures is skipped. -/
theorem Skips.of_blankWidth (hpos : 0 < blankWidth text i)
    (h : Skips text (i + blankWidth text i) j) : Skips text i j := by
  unfold blankWidth at hpos h
  split at hpos
  · omega
  · rename_i c hc
    rw [hc] at h
    split at hpos
    · rename_i hblank
      simp only [if_pos hblank] at h
      simp only [isBlank, Bool.or_eq_true, beq_iff_eq, or_assoc] at hblank
      exact .blank hc hblank h
    rename_i hblank
    split at hpos
    · rename_i hslash
      obtain rfl : c = 0x5c := beq_iff_eq.1 hslash
      simp only [if_neg hblank, if_pos hslash] at h
      split at hpos
      · rename_i hfeed
        simp only [if_pos hfeed] at h
        exact .continued hc (hasByte_iff.1 hfeed) h
      rename_i hfeed
      split at hpos
      · rename_i hreturn
        simp only [if_neg hfeed, if_pos hreturn] at h
        obtain ⟨hr, hn⟩ := Bool.and_eq_true_iff.1 hreturn
        exact .continuedReturn hc (hasByte_iff.1 hr) (hasByte_iff.1 hn) h
      · omega
    · omega

theorem skips_skipBlanks (text : String) (i : Nat) : Skips text i (skipBlanks text i) := by
  fun_induction skipBlanks text i with
  | case1 i _ width hwidth ih => exact .of_blankWidth hwidth ih
  | case2 => exact .done _
  | case3 => exact .done _

end

end Lexer

/-! ## One token -/

/-- The byte that a token of this kind starts with, for the kinds that only one byte can open. -/
def TokenKind.opener? : TokenKind → Option UInt8
  | hash => some 0x23
  | simpleVar | specialVar => some 0x24
  | splice => some 0x40
  | _ => none

namespace Lexer

section

variable {text : String} {i j offset : Nat} {b c : UInt8}

theorem spelled?_opener {m : TokenKind × Nat} (h : spelled? text i = some m) :
    m.1.opener? = none := by
  have hspellings : ∀ c : UInt8, ∀ s ∈ TokenKind.spellings c, s.2.opener? = none := by
    intro c
    unfold TokenKind.spellings
    split <;> decide
  unfold spelled? at h
  split at h
  · obtain ⟨s, hs, rfl⟩ := Option.map_eq_some_iff.1 h
    exact hspellings _ s (List.mem_of_find?_eq_some hs)
  · cases h

theorem punctuation_opener : (punctuation text i).1.opener? = none := by
  unfold punctuation
  cases hs : spelled? text i with
  | none => rfl
  | some m => exact spelled?_opener hs

/-- A kind that only one byte can open was opened by it. -/
theorem munch_opener (h : (munch text i b).1.opener? = some c) : b = c := by
  unfold munch at h
  split at h
  · unfold word at h
    cases hs : spelled? text i with
    | none =>
      rw [hs] at h
      cases h
    | some m =>
      rw [hs, Option.getD_some, spelled?_opener hs] at h
      cases h
  split at h
  · unfold number at h
    simp only at h
    split at h <;> cases h
  split at h
  · cases h
  split at h
  · rename_i hdollar
    rw [beq_iff_eq.1 hdollar]
    unfold dollar at h
    split at h
    · exact Option.some.inj h
    split at h
    · exact Option.some.inj h
    · rw [punctuation_opener] at h
      cases h
  split at h
  · rename_i hat
    rw [beq_iff_eq.1 hat]
    unfold atSign at h
    split at h
    · exact Option.some.inj h
    · rw [punctuation_opener] at h
      cases h
  split at h
  · rename_i hhash
    rw [beq_iff_eq.1 hhash]
    unfold hash at h
    split at h
    · cases h
    · exact Option.some.inj h
  split at h
  · unfold backslash at h
    split at h
    · split at h <;> cases h
    · cases h
  · rw [punctuation_opener] at h
    cases h

/-- A `#` that opens no comment is a token by itself. -/
theorem munch_hash (h : (munch text i b).1 = .hash) : (munch text i b).2 = i + 1 := by
  obtain rfl : b = 0x23 := munch_opener (by rw [h]; rfl)
  have hmunch : munch text i 0x23 = hash text i := rfl
  rw [hmunch] at h ⊢
  unfold hash at h ⊢
  split at h
  · cases h
  · rename_i hstarts
    rw [if_neg hstarts]

/-- A token starts with the byte that only its kind can be opened by. -/
theorem tokenAt_opener (h : (tokenAt text offset).kind.opener? = some c) :
    byte? text (tokenAt text offset).span.start = some c := by
  rw [tokenAt_span_start]
  unfold tokenAt at h
  simp only at h
  split at h
  · cases h
  · rename_i b hb
    rw [hb, munch_opener h]

end

/-- What is known of a token that was read at a character boundary `i`. -/
structure Lossless (text : String) (i : Nat) (t : Token) : Prop where
  /-- The token is a piece of the text. -/
  piece : slice? text t.span.start t.span.stop = some (t.text text)
  /-- Before it there are only blanks and line continuations. -/
  skips : Skips text i t.span.start
  /-- It is not empty, unless it stands for the end of the text. -/
  nonempty : t.kind ≠ .eof → t.span.start < t.span.stop
  eof : t.kind = .eof → t.span = .empty (size text)
  hash : t.kind = .hash → t.text text = "#"

section

variable {text : String} {i j offset fuel : Nat} {t : Token} {ts : List Token}

/-- The token for the end of the text comes out at every offset past the end. -/
theorem tokenAt_past (h : size text ≤ offset) :
    tokenAt text offset = ⟨.eof, .empty (size text)⟩ := by
  have hceil : ceil text offset = size text := by
    unfold ceil
    exact if_neg (Nat.not_lt.2 h)
  have hskip : skipBlanks text (size text) = size text := by
    unfold skipBlanks
    exact if_neg (Nat.lt_irrefl _)
  unfold tokenAt
  simp only [hceil, hskip, byte?_eq_none.2 (Nat.le_refl (size text))]

theorem tokenAt_readFrom (text : String) (offset : Nat) :
    (tokenAt text offset).ReadFrom text (min offset (size text)) := by
  rcases Nat.le_total offset (size text) with h | h
  · rw [Nat.min_eq_left h]
    exact tokenAt_spec h
  · rw [Nat.min_eq_right h, tokenAt_past h]
    exact .end_of_text (Nat.le_refl _)

theorem tokenAt_hash (h : (tokenAt text offset).kind = .hash) :
    (tokenAt text offset).text text = "#" := by
  have hbyte := tokenAt_opener (c := 0x23) (by rw [h]; rfl)
  have hstop : (tokenAt text offset).span.stop = (tokenAt text offset).span.start + 1 := by
    rw [tokenAt_span_start]
    unfold tokenAt at h ⊢
    simp only at h ⊢
    split at h
    · cases h
    · rename_i b hb
      rw [munch_hash h, Span.stop_upTo (Nat.le_succ _)]
  unfold Token.text
  rw [hstop]
  exact slice_byte hbyte (by decide) rfl rfl

theorem tokenAt_lossless (text : String) (offset : Nat) :
    Lossless text (ceil text offset) (tokenAt text offset) where
  piece := (tokenAt_readFrom text offset).cut.slice?
  skips := by
    rw [tokenAt_span_start]
    exact skips_skipBlanks text _
  nonempty := (tokenAt_readFrom text offset).lt
  eof := (tokenAt_readFrom text offset).eof
  hash := tokenAt_hash

/-! ## Whole texts -/

/-- The tokens are those from `i` on: each one is read where the one before it ends, and behind the
last one only blanks and line continuations are left. -/
inductive Tiled (text : String) : Nat → List Token → Prop
  | done {i : Nat} : (tokenAt text i).kind = .eof → Skips text i (size text) → Tiled text i []
  | token {i : Nat} {ts : List Token} : (tokenAt text i).kind ≠ .eof →
      Lossless text i (tokenAt text i) → Tiled text (tokenAt text i).span.stop ts →
      Tiled text i (tokenAt text i :: ts)

/-- One step for each byte that is left is enough to come to the end. -/
theorem tokensFrom_tiled (hi : Boundary text i) (hfuel : size text - i ≤ fuel) :
    Tiled text i (tokensFrom text fuel i) := by
  induction fuel generalizing i with
  | zero =>
    have hle := hi.le_size
    obtain rfl : i = size text := by omega
    exact .done (by rw [tokenAt_past (Nat.le_refl _)]) (.done _)
  | succ fuel ih =>
    have hlossless : Lossless text i (tokenAt text i) := by
      have h := tokenAt_lossless text i
      rwa [ceil_eq hi] at h
    have hread := tokenAt_readFrom text i
    unfold tokensFrom
    simp only
    split
    · rename_i heof
      refine .done heof ?_
      have hskips := hlossless.skips
      rwa [hread.start_eq_size heof] at hskips
    · rename_i heof
      refine .token heof hlossless (ih hread.cut.2 ?_)
      have hlt := hread.lt heof
      have hle := hlossless.skips.le
      omega

theorem Tiled.le_start (h : Tiled text i ts) : ∀ t ∈ ts, i ≤ t.span.start := by
  induction h with
  | done => nofun
  | @token i ts _ hlossless _ ih =>
    have hle := hlossless.skips.le
    intro t ht
    rcases List.mem_cons.1 ht with rfl | ht
    · exact hle
    · have hnext := ih t ht
      have := Span.start_le_stop (tokenAt text i).span
      omega

/-- Each token ends where the next one starts, or before. -/
theorem Tiled.pairwise (h : Tiled text i ts) :
    ts.Pairwise fun t u => t.span.start < u.span.start ∧ t.span.stop ≤ u.span.start := by
  induction h with
  | done => exact .nil
  | @token i ts hkind hlossless htail ih =>
    refine .cons (fun u hu => ?_) ih
    have hlt := hlossless.nonempty hkind
    have hle := htail.le_start u hu
    exact ⟨by omega, hle⟩

/-- The text from `i` on, put together from the tokens and what stands between them. -/
def weave (text : String) (i : Nat) : List Token → String
  | [] => slice text i (size text)
  | t :: ts => slice text i t.span.start ++ t.text text ++ weave text t.span.stop ts

theorem Tiled.weave_eq (h : Tiled text i ts) (hi : Boundary text i) :
    weave text i ts = slice text i (size text) := by
  induction h with
  | done => rfl
  | @token i ts _ hlossless _ ih =>
    have hcut := (tokenAt_readFrom text i).cut
    have hle := Span.start_le_stop (tokenAt text i).span
    unfold weave
    rw [ih hcut.2, Token.text, slice_append hlossless.skips.le hle hi hcut.1 hcut.2,
      slice_append (Nat.le_trans hlossless.skips.le hle) hcut.2.le_size hi hcut.2
        (boundary_size text)]

/-- At any offset, rounded up to a character boundary, the token that is read is a piece of the
text; only blanks and line continuations are skipped before it, and only the end of the text is
empty.  The tokens of a whole text are read in this way one after the other up to the end, so they
are in order and apart, and put together with what is skipped they are the text. -/
theorem tokenize_lossless (text : String) :
    (∀ offset, ∃ i, RoundsUp text offset i ∧ Lossless text i (tokenAt text offset)) ∧
    Tiled text 0 (tokenize text) ∧
    ((tokenize text).Pairwise fun t u =>
      t.span.start < u.span.start ∧ t.span.stop ≤ u.span.start) ∧
    weave text 0 (tokenize text) = text := by
  have htiled : Tiled text 0 (tokenize text) :=
    tokensFrom_tiled (boundary_zero text) (Nat.sub_le _ _)
  refine ⟨fun offset => ?_, htiled, htiled.pairwise, ?_⟩
  · exact ⟨_, ceil_roundsUp text offset, tokenAt_lossless text offset⟩
  · rw [htiled.weave_eq (boundary_zero text), slice_all]

end

end Lexer

end ShellAnalysis
