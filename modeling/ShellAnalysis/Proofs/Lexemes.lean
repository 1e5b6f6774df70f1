import ShellAnalysis.Proofs.Tokens

/-!
# Tokens of a text put together from words

`Rest text i tail` says that the text goes on with `tail` at `i`.  A word that
stands there is read as one token if nothing that follows can make it longer
(`Spells`): a name or a number before a blank, a closing parenthesis or the end
(`spells_name`, `spells_digits`), a token of fixed spelling there as well
(`spells_fixed`), and an opening parenthesis before anything.

    Comes text i (word ++ tail) → Spells word kind tail →
      (significantAt text skip i).Is text word kind tail         (Spells.token)
-/

namespace ShellAnalysis

namespace Text

/-! ## The rest of a text -/

theorem size_append (a b : String) : size (a ++ b) = size a + size b :=
  String.utf8ByteSize_append

theorem byte?_append_left {a : String} {k : Nat} (h : k < size a) (b : String) :
    byte? (a ++ b) k = byte? a k := by
  have hlt : k < size (a ++ b) := by
    rw [size_append]
    omega
  unfold byte?
  rw [dif_pos h, dif_pos hlt]
  simp only [String.getUTF8Byte, String.toByteArray_append]
  rw [ByteArray.getElem_append_left h]

theorem byte?_append_right (a b : String) (k : Nat) :
    byte? (a ++ b) (size a + k) = byte? b k := by
  unfold byte?
  by_cases h : k < size b
  · have hlt : size a + k < size (a ++ b) := by
      rw [size_append]
      omega
    rw [dif_pos h, dif_pos hlt]
    simp only [String.getUTF8Byte, String.toByteArray_append]
    have hle : a.toByteArray.size ≤ size a + k := Nat.le_add_right _ _
    rw [ByteArray.getElem_append_right hle]
    simp only [String.size_toByteArray, Nat.add_sub_cancel_left]
  · have hlt : ¬ size a + k < size (a ++ b) := by
      rw [size_append]
      omega
    rw [dif_neg h, dif_neg hlt]

/-- The text goes on with `tail` at `i`. -/
def Rest (text : String) (i : Nat) (tail : String) : Prop :=
  ∃ head, text = head ++ tail ∧ i = size head

section

variable {text word piece tail : String} {i n : Nat} {inClass : UInt8 → Bool}

theorem rest_zero (text : String) : Rest text 0 text := ⟨"", by simp, rfl⟩

theorem Rest.add_size (h : Rest text i tail) : i + size tail = size text := by
  obtain ⟨head, rfl, rfl⟩ := h
  exact (size_append head tail).symm

theorem Rest.le_size (h : Rest text i tail) : i ≤ size text := by
  have := h.add_size
  omega

theorem Rest.byte_add (h : Rest text i tail) (k : Nat) : byte? text (i + k) = byte? tail k := by
  obtain ⟨head, rfl, rfl⟩ := h
  exact byte?_append_right head tail k

theorem Rest.byte_zero (h : Rest text i tail) : byte? text i = byte? tail 0 := h.byte_add 0

theorem Rest.boundary (h : Rest text i tail) : Boundary text i := by
  obtain ⟨head, htext, rfl⟩ := h
  exact String.Pos.Raw.isValid_eq_true_iff.2
    (String.Pos.Raw.isValid_iff_exists_append.2 ⟨head, tail, htext, rfl⟩)

/-- The text goes on behind a word. -/
theorem Rest.pass (h : Rest text i (word ++ tail)) : Rest text (i + size word) tail := by
  obtain ⟨head, rfl, rfl⟩ := h
  exact ⟨head ++ word, String.append_assoc.symm, (size_append head word).symm⟩

/-- Behind a space and a word is a later offset. -/
theorem Rest.lt_of_space {j : Nat} (h : Rest text i (" " ++ (word ++ tail)))
    (h' : Rest text j tail) : i < j := by
  have hsize := h.add_size
  have hsize' := h'.add_size
  rw [size_append, size_append, show size " " = 1 from rfl] at hsize
  omega

theorem Rest.slice_word (h : Rest text i (word ++ tail)) : slice text i (i + size word) = word := by
  have hi := String.Pos.Raw.isValid_eq_true_iff.1 h.boundary
  have hj := String.Pos.Raw.isValid_eq_true_iff.1 h.pass.boundary
  obtain ⟨head, rfl, rfl⟩ := h
  unfold slice slice?
  rw [if_pos (Nat.le_add_right _ _), dif_pos hi, dif_pos hj, Option.getD_some,
    ← String.toByteArray_inj, String.toByteArray_extract]
  calc (head ++ (word ++ tail)).toByteArray.extract (size head) (size head + size word)
    _ = (head.toByteArray ++ (word ++ tail).toByteArray).extract
          (head.toByteArray.size + 0) (head.toByteArray.size + word.toByteArray.size) := by
        rw [String.toByteArray_append]
        rfl
    _ = (word.toByteArray ++ tail.toByteArray).extract 0 word.toByteArray.size := by
        rw [ByteArray.extract_append_size_add, String.toByteArray_append]
    _ = word.toByteArray := ByteArray.extract_append_eq_left rfl

/-! ## Pieces and runs at the rest -/

/-- A piece stands where each of its bytes does. -/
theorem hasBytes_iff : hasBytes text i piece n = true ↔
    ∀ k < n, ∃ b, byte? piece k = some b ∧ byte? text (i + k) = some b := by
  refine ⟨fun h k hk => byte?_of_hasBytes h hk, fun h => ?_⟩
  induction n with
  | zero => rfl
  | succ n ih =>
    obtain ⟨b, hp, ht⟩ := h n (Nat.lt_succ_self n)
    simp only [hasBytes, hp, ht, Option.isSome_some, beq_self_eq_true, Bool.true_and]
    exact ih fun k hk => h k (Nat.lt_succ_of_lt hk)

/-- A piece that does not go on behind a word with what follows it stands at the word if the word
alone starts with it. -/
theorem Rest.hasPiece_eq (h : Rest text i (word ++ tail))
    (hstop : ∀ b, byte? piece (size word) = some b → byte? tail 0 ≠ some b) :
    hasPiece text i piece = hasPiece word 0 piece := by
  have hinside : ∀ k < size word, byte? text (i + k) = byte? word (0 + k) := by
    intro k hk
    rw [h.byte_add, byte?_append_left hk, Nat.zero_add]
  unfold hasPiece
  rw [Bool.eq_iff_iff, hasBytes_iff, hasBytes_iff]
  constructor
  · intro hat
    have hlen : size piece ≤ size word := by
      -- otherwise the piece has a byte right behind the word, which is the first of the tail
      refine Nat.le_of_not_lt fun hlt => ?_
      obtain ⟨b, hb, ht⟩ := hat (size word) hlt
      rw [h.pass.byte_zero] at ht
      exact hstop b hb ht
    intro k hk
    rw [← hinside k (by omega)]
    exact hat k hk
  · intro hat k hk
    obtain ⟨b, hb, hw⟩ := hat k hk
    have hlt := lt_size_of_byte? hw
    rw [hinside k (by omega)]
    exact ⟨b, hb, hw⟩

/-- A run goes over exactly the bytes of a word. -/
theorem Rest.runEnd_eq (h : Rest text i (word ++ tail))
    (hin : ∀ k b, byte? word k = some b → inClass b = true)
    (hout : ∀ b, byte? tail 0 = some b → inClass b = false) :
    runEnd text inClass i = i + size word := by
  suffices ∀ m k, k + m = size word → runEnd text inClass (i + k) = i + size word from
    this (size word) 0 (Nat.zero_add _)
  intro m
  induction m with
  | zero =>
    intro k hk
    rw [Nat.add_zero] at hk
    rw [runEnd.eq_def]
    split
    · rename_i b hb
      rw [hk, h.pass.byte_zero] at hb
      rw [hout b hb, hk]
      rfl
    · rw [hk]
  | succ m ih =>
    intro k hk
    have hbyte : byte? text (i + k) = byte? word k := by
      rw [h.byte_add, byte?_append_left (by omega)]
    rw [runEnd.eq_def]
    split
    · rename_i b hb
      rw [if_pos (hin k b (hbyte ▸ hb)), Nat.add_assoc]
      exact ih (k + 1) (by omega)
    · rename_i hb
      have := byte?_eq_none.1 (hbyte ▸ hb)
      omega

end

end Text

namespace Lexer

open Text

/-! ## Words that are one token -/

/-- Nothing follows that could be part of a word or an operator: a blank, a closing parenthesis or
the end of the text. -/
def Ended (tail : String) : Prop := ∀ b, byte? tail 0 = some b → b = 0x20 ∨ b = 0x29

theorem ended_empty : Ended "" := fun b h => by cases h

theorem ended_space (tail : String) : Ended (" " ++ tail) := fun b h => by
  rw [byte?_append_left (by decide)] at h
  exact .inl (Option.some.inj h).symm

theorem ended_parenClose (tail : String) : Ended (")" ++ tail) := fun b h => by
  rw [byte?_append_left (by decide)] at h
  exact .inr (Option.some.inj h).symm

theorem Ended.outside {tail : String} {inClass : UInt8 → Bool} (h : Ended tail)
    (hspace : inClass 0x20 = false) (hclose : inClass 0x29 = false) :
    ∀ b, byte? tail 0 = some b → inClass b = false := by
  intro b hb
  rcases h b hb with rfl | rfl
  · exact hspace
  · exact hclose

/-- Wherever the word stands before the tail, it is a token of the kind. -/
structure Spells (word : String) (kind : TokenKind) (tail : String) : Prop where
  first : ∃ b, byte? word 0 = some b ∧ isBlank b = false ∧ b ≠ 0x5c
  significant : kind ≠ .comment ∧ kind ≠ .newline
  munch : ∀ {text i b}, Rest text i (word ++ tail) → byte? word 0 = some b →
    munch text i b = (kind, i + size word)

section

variable {text word tail : String} {i : Nat} {b : UInt8}

/-- No token of fixed spelling goes on with a blank or a closing parenthesis. -/
theorem spelling_stops : ∀ s ∈ TokenKind.spellings b,
    ∀ k < size s.1, k ≠ 0 → byte? s.1 k ≠ some 0x20 ∧ byte? s.1 k ≠ some 0x29 := by
  unfold TokenKind.spellings
  split <;> decide

theorem find?_congr {α : Type} {p q : α → Bool} {l : List α} (h : ∀ a ∈ l, p a = q a) :
    l.find? p = l.find? q := by
  induction l with
  | nil => rfl
  | cons a l ih =>
    rw [List.find?_cons, List.find?_cons, h a List.mem_cons_self,
      ih fun b hb => h b (List.mem_cons_of_mem a hb)]

/-- Before such a tail the tokens of fixed spelling are those of the word alone. -/
theorem spelled?_eq (h : Rest text i (word ++ tail)) (hb : byte? word 0 = some b)
    (hstop : ∀ s ∈ TokenKind.spellings b, ∀ c, byte? s.1 (size word) = some c →
      byte? tail 0 ≠ some c) :
    spelled? text i = (spelled? word 0).map fun m => (m.1, i + m.2) := by
  have hlt := lt_size_of_byte? hb
  have htext : byte? text i = some b := by
    rw [h.byte_zero, byte?_append_left hlt, hb]
  unfold spelled?
  simp only [htext, hb, Option.map_map]
  rw [find?_congr fun s hs => h.hasPiece_eq (hstop s hs)]
  congr 1
  funext s
  simp

theorem Ended.spelling (h : Ended tail) (hb : byte? word 0 = some b) :
    ∀ s ∈ TokenKind.spellings b, ∀ c, byte? s.1 (size word) = some c → byte? tail 0 ≠ some c := by
  intro s hs c hc htail
  have hlt := lt_size_of_byte? hb
  obtain ⟨hspace, hclose⟩ := spelling_stops s hs (size word) (lt_size_of_byte? hc) (by omega)
  rcases h c htail with rfl | rfl
  · exact hspace hc
  · exact hclose hc

/-! ### Tokens of fixed spelling -/

/-- Bytes that start tokens of fixed spelling only. -/
def isMark (b : UInt8) : Bool :=
  !isNameStart b && !isDigit b && b < 0x80 && b != 0x24 && b != 0x40 && b != 0x23 && b != 0x5c &&
    !isBlank b

/-- The word is a token of fixed spelling. -/
def Fixed (word : String) (kind : TokenKind) : Prop :=
  (byte? word 0).any isMark = true ∧ spelled? word 0 = some (kind, size word) ∧
    kind ≠ .comment ∧ kind ≠ .newline

instance (word : String) (kind : TokenKind) : Decidable (Fixed word kind) :=
  inferInstanceAs (Decidable (_ ∧ _ ∧ _ ∧ _))

theorem munch_of_isMark (h : isMark b = true) : munch text i b = punctuation text i := by
  simp only [isMark, Bool.and_eq_true, Bool.not_eq_true', decide_eq_true_eq, bne_iff_ne] at h
  obtain ⟨⟨⟨⟨⟨⟨⟨hname, hdigit⟩, hascii⟩, hdollar⟩, hat⟩, hhash⟩, hslash⟩, -⟩ := h
  unfold munch
  rw [if_neg (by simp [hname]), if_neg (by simp [hdigit]), if_neg (UInt8.not_le.2 hascii),
    if_neg (by simpa using hdollar), if_neg (by simpa using hat), if_neg (by simpa using hhash),
    if_neg (by simpa using hslash)]

/-- What follows does not go on with a longer spelling. -/
theorem Fixed.spells_of {kind : TokenKind} (h : Fixed word kind)
    (hstop : ∀ b, byte? word 0 = some b → ∀ s ∈ TokenKind.spellings b, ∀ c,
      byte? s.1 (size word) = some c → byte? tail 0 ≠ some c) : Spells word kind tail := by
  obtain ⟨hfirst, hspelled, hkind⟩ := h
  obtain ⟨b, hb, hmark⟩ := (Option.any_eq_true ..).1 hfirst
  refine ⟨⟨b, hb, ?_⟩, hkind, fun {text i c} hrest hc => ?_⟩
  · simp only [isMark, Bool.and_eq_true, Bool.not_eq_true', bne_iff_ne] at hmark
    exact ⟨hmark.2, hmark.1.2⟩
  · obtain rfl : b = c := Option.some.inj (hb.symm.trans hc)
    rw [munch_of_isMark hmark]
    unfold punctuation
    rw [spelled?_eq hrest hb (hstop b hb), hspelled]
    rfl

theorem spells_fixed {kind : TokenKind} (h : Fixed word kind) (hended : Ended tail) :
    Spells word kind tail :=
  h.spells_of fun _ hb => hended.spelling hb

/-- Nothing makes an opening parenthesis longer. -/
theorem spells_parenOpen (tail : String) : Spells "(" .parenOpen tail :=
  Fixed.spells_of (by decide) fun b hb => by
    obtain rfl : 0x28 = b := Option.some.inj hb
    intro s hs c hc
    obtain rfl := List.mem_singleton.1 hs
    cases hc

/-! ### Names and numbers -/

/-- A name: a letter or an underscore, then letters, underscores and digits. -/
def IsName (word : String) : Prop :=
  (byte? word 0).any isNameStart = true ∧ ∀ k < size word, (byte? word k).any isNameByte = true

instance (word : String) : Decidable (IsName word) := inferInstanceAs (Decidable (_ ∧ _))

theorem IsName.first (h : IsName word) : ∃ b, byte? word 0 = some b ∧ isNameStart b = true :=
  (Option.any_eq_true ..).1 h.1

theorem IsName.bytes (h : IsName word) (k : Nat) (b : UInt8) (hb : byte? word k = some b) :
    isNameByte b = true := by
  simpa [hb] using h.2 k (lt_size_of_byte? hb)

/-- Digits, at least one. -/
structure IsDigits (word : String) : Prop where
  first : ∃ b, byte? word 0 = some b
  bytes : ∀ k b, byte? word k = some b → isDigit b = true

/-- Names and numbers do not start with a blank. -/
theorem solid_of_isNameByte : isNameByte b = true → isBlank b = false ∧ b ≠ 0x5c :=
  forall_byte (P := fun b => isNameByte b = true → isBlank b = false ∧ b ≠ 0x5c)
    (by decide +kernel) b

theorem not_isNameStart_of_isDigit : isDigit b = true → isNameStart b = false :=
  forall_byte (P := fun b => isDigit b = true → isNameStart b = false) (by decide +kernel) b

/-- The only fixed spellings with a letter are those of raw quotes. -/
theorem quote_of_spelling : ∀ s ∈ TokenKind.spellings b, isNameStart b = true →
    byte? s.1 1 = some 0x27 := by
  unfold TokenKind.spellings
  split <;> first | decide | exact fun _ hs => absurd hs List.not_mem_nil

theorem IsName.spelled?_eq_none (h : IsName word) : spelled? word 0 = none := by
  obtain ⟨b, hb, hname⟩ := h.first
  unfold spelled?
  simp only [hb, Option.map_eq_none_iff, List.find?_eq_none]
  intro s hs hpiece
  have hquote := quote_of_spelling s hs hname
  obtain ⟨c, hc, hword⟩ := byte?_of_hasBytes hpiece (lt_size_of_byte? hquote)
  obtain rfl : 0x27 = c := Option.some.inj (hquote.symm.trans hc)
  exact absurd (h.bytes _ _ hword) (by decide)

theorem spells_name (h : IsName word) (hended : Ended tail) : Spells word .ident tail := by
  obtain ⟨b, hb, hname⟩ := h.first
  refine ⟨⟨b, hb, solid_of_isNameByte (h.bytes 0 b hb)⟩, by decide, fun {text i c} hrest hc => ?_⟩
  obtain rfl : b = c := Option.some.inj (hb.symm.trans hc)
  unfold munch
  rw [if_pos hname]
  unfold Lexer.word
  rw [spelled?_eq hrest hb (hended.spelling hb), h.spelled?_eq_none,
    hrest.runEnd_eq h.bytes (hended.outside (by decide) (by decide))]
  rfl

theorem spells_digits (h : IsDigits word) (hended : Ended tail) : Spells word .int tail := by
  obtain ⟨b, hb⟩ := h.first
  have hdigit := h.bytes 0 b hb
  refine ⟨⟨b, hb, solid_of_isNameByte (by simp [isNameByte, hdigit])⟩, by decide,
    fun {text i c} hrest hc => ?_⟩
  obtain rfl : b = c := Option.some.inj (hb.symm.trans hc)
  have hwhole : digitsEnd text i = i + size word :=
    hrest.runEnd_eq (fun k c hk => by simp [h.bytes k c hk])
      (hended.outside (by decide) (by decide))
  have hpoint : hasByte text (i + size word) 0x2e = false := by
    have hne : byte? tail 0 ≠ some 0x2e := fun hpoint => by
      rcases hended _ hpoint with h | h <;> exact absurd h (by decide)
    unfold hasByte
    rw [hrest.pass.byte_zero]
    simpa using hne
  unfold munch
  rw [if_neg (by simp [not_isNameStart_of_isDigit hdigit]), if_pos hdigit]
  unfold number
  simp only [hwhole, hpoint, Bool.false_and, Bool.false_eq_true, if_false]

end

end Lexer

/-! ## Reading the next token -/

open Text Lexer

/-- The text goes on with `tail`, perhaps after a space. -/
def Comes (text : String) (i : Nat) (tail : String) : Prop :=
  Rest text i tail ∨ Rest text i (" " ++ tail)

/-- The token is this word, and the text goes on with `tail` after it. -/
structure Token.Is (source : String) (t : Token) (word : String) (kind : TokenKind)
    (tail : String) : Prop where
  kind : t.kind = kind
  text : t.text source = word
  rest : Rest source t.span.stop tail

theorem Token.Is.isWord_eq {source word tail : String} {kind : TokenKind} {t : Token}
    (h : t.Is source word kind tail) (w : String) :
    t.isWord source w = (kind == .ident && word == w) := by
  unfold Token.isWord
  rw [h.kind, h.text]

section

variable {text word tail : String} {kind : TokenKind} {i : Nat} {skip : Bool}

theorem skipBlanks_of_solid {b : UInt8} (hb : byte? text i = some b) (hblank : isBlank b = false)
    (hslash : b ≠ 0x5c) : skipBlanks text i = i := by
  have hwidth : blankWidth text i = 0 := by
    unfold blankWidth
    simp only [hb, hblank, beq_eq_false_iff_ne.2 hslash, Bool.false_eq_true, if_false]
  exact skipBlanks_of_blankWidth hwidth

theorem skipBlanks_of_space (hb : byte? text i = some 0x20) :
    skipBlanks text i = skipBlanks text (i + 1) := by
  have hwidth : blankWidth text i = 1 := by
    unfold blankWidth
    simp only [hb]
    rfl
  rw [skipBlanks.eq_def]
  simp [hwidth, lt_size_of_byte? hb]

theorem Text.Rest.byte_space (h : Rest text i (" " ++ tail)) : byte? text i = some 0x20 := by
  rw [h.byte_zero, byte?_append_left (by decide)]
  rfl

/-- A word at the rest is the token there. -/
theorem Comes.tokenAt (h : Comes text i (word ++ tail)) (hw : Spells word kind tail) :
    ∃ j, i ≤ j ∧ Rest text j (word ++ tail) ∧
      tokenAt text i = ⟨kind, .upTo j (j + size word)⟩ := by
  obtain ⟨b, hb, hblank, hslash⟩ := hw.first
  have hread : ∀ j, Rest text j (word ++ tail) → byte? text j = some b := by
    intro j hrest
    rw [hrest.byte_zero, byte?_append_left (lt_size_of_byte? hb), hb]
  rcases h with hrest | hrest
  · refine ⟨i, Nat.le_refl i, hrest, ?_⟩
    have hbyte := hread i hrest
    unfold Lexer.tokenAt
    rw [ceil_eq hrest.boundary, skipBlanks_of_solid hbyte hblank hslash]
    simp only [hbyte, hw.munch hrest hb]
  · have hnext : Rest text (i + 1) (word ++ tail) := hrest.pass
    refine ⟨i + 1, Nat.le_succ i, hnext, ?_⟩
    have hbyte := hread (i + 1) hnext
    unfold Lexer.tokenAt
    rw [ceil_eq hrest.boundary, skipBlanks_of_space hrest.byte_space,
      skipBlanks_of_solid hbyte hblank hslash]
    simp only [hbyte, hw.munch hnext hb]

theorem Comes.le_size (h : Comes text i tail) : i + size tail ≤ size text := by
  rcases h with h | h
  · exact Nat.le_of_eq h.add_size
  · have := h.add_size
    rw [size_append] at this
    omega

theorem Comes.token (h : Comes text i (word ++ tail)) (hw : Spells word kind tail) :
    (Parse.significantAt text skip i).Is text word kind tail := by
  obtain ⟨j, -, hrest, heq⟩ := h.tokenAt hw
  have hle := h.le_size
  rw [Parse.significantAt_eq (by omega) (by rw [heq]; exact hw.significant.1)
    (by rw [heq]; exact hw.significant.2), heq]
  have hstop := Span.stop_upTo (Nat.le_add_right j (size word))
  refine ⟨rfl, ?_, ?_⟩
  · unfold Token.text
    rw [hstop]
    exact hrest.slice_word
  · rw [hstop]
    exact hrest.pass

/-- At the end of the text there is no token. -/
theorem Text.Rest.end_of_text (h : Rest text i "") :
    (Parse.significantAt text skip i).kind = .eof := by
  have hi : i = size text := h.add_size
  have hnone : byte? text i = none := byte?_eq_none.2 (Nat.le_of_eq hi.symm)
  have heof : tokenAt text i = ⟨.eof, .empty (size text)⟩ := by
    unfold Lexer.tokenAt
    rw [ceil_eq h.boundary, skipBlanks.eq_def, if_neg (by omega)]
    simp only [hnone]
  rw [Parse.significantAt_eq h.le_size (by rw [heof]; nofun) (by rw [heof]; nofun), heof]

/-- A token before a space has nothing glued to it. -/
theorem Text.Rest.not_glued (h : Rest text i (" " ++ tail)) : (tokenAt text i).span.start ≠ i := by
  have hstart : i + 1 ≤ skipBlanks text (ceil text i) := by
    rw [ceil_eq h.boundary, skipBlanks_of_space h.byte_space]
    exact le_skipBlanks text (i + 1)
  have hlt := lt_size_of_byte? h.byte_space
  unfold Lexer.tokenAt
  simp only
  split
  · exact Nat.ne_of_gt hlt
  · exact Nat.ne_of_gt hstart

end

end ShellAnalysis
