import ShellAnalysis.Scanner.Heredoc

/-!
# Character boundaries

Cursors are moved by counting bytes.  `Boundary text i` says that a cut at `i`
does not go through a character.  Three facts keep a cursor on boundaries:

    a byte below 0x80 has boundaries on both sides
    from a boundary, the width read off the first byte leads to a boundary
    a run that ends only at bytes below 0x80 ends at a boundary

`Cut text s` says that both ends of a span are boundaries; these are the spans
that `slice?` accepts (`slice?_eq_some`).
-/

namespace ShellAnalysis.Text

/-! ## Bytes -/

/-- The offset is in the text, or its end, and not inside a character. -/
def Boundary (text : String) (i : Nat) : Prop := isBoundary text i = true

instance (text : String) (i : Nat) : Decidable (Boundary text i) :=
  inferInstanceAs (Decidable (_ = true))

/-- Bytes that are a character by themselves. -/
def IsAscii (b : UInt8) : Prop := b < 0x80

instance (b : UInt8) : Decidable (IsAscii b) := inferInstanceAs (Decidable (_ < _))

/-- What is checked for all 256 values of a byte holds for every byte. -/
theorem forall_byte {P : UInt8 → Prop} (h : ∀ n : Fin 256, P (UInt8.ofFin n)) (b : UInt8) :
    P b := h b.toFin

theorem isUTF8FirstByte_of_isAscii {b : UInt8} : IsAscii b → b.IsUTF8FirstByte :=
  forall_byte (P := fun b => IsAscii b → b.IsUTF8FirstByte) (by decide +kernel) b

theorem charWidth_eq_utf8ByteSize {b : UInt8} :
    ∀ h : b.IsUTF8FirstByte, charWidth b = b.utf8ByteSize h :=
  forall_byte (P := fun b => ∀ h : b.IsUTF8FirstByte, charWidth b = b.utf8ByteSize h)
    (by decide +kernel) b

theorem charWidth_of_isAscii {b : UInt8} (h : IsAscii b) : charWidth b = 1 := by
  unfold charWidth
  rw [if_pos (show b < 0x80 from h)]

theorem isAscii_of_isDigit {b : UInt8} (h : isDigit b = true) : IsAscii b := by
  simp only [isDigit, Bool.and_eq_true, decide_eq_true_eq] at h
  exact UInt8.lt_of_le_of_lt h.2 (by decide)

theorem isAscii_of_isNameByte {b : UInt8} (h : isNameByte b = true) : IsAscii b := by
  simp only [isNameByte, isNameStart, Bool.or_eq_true, Bool.and_eq_true, decide_eq_true_eq,
    beq_iff_eq] at h
  rcases h with ((h | h) | rfl) | h
  · exact UInt8.lt_of_le_of_lt h.2 (by decide)
  · exact UInt8.lt_of_le_of_lt h.2 (by decide)
  · decide
  · exact isAscii_of_isDigit h

theorem byte?_eq_none {text : String} {i : Nat} : byte? text i = none ↔ size text ≤ i := by
  unfold byte?
  split <;> simp_all

theorem hasByte_iff {text : String} {i : Nat} {b : UInt8} :
    hasByte text i b = true ↔ byte? text i = some b := beq_iff_eq

/-! ## Boundaries -/

section

variable {text : String} {i j : Nat}

theorem boundary_iff : Boundary text i ↔
    i = size text ∨ ∃ b, byte? text i = some b ∧ b.IsUTF8FirstByte := by
  unfold Boundary isBoundary
  rw [String.Pos.Raw.isValid_eq_true_iff, String.Pos.Raw.isValid_iff_isUTF8FirstByte]
  unfold byte?
  constructor
  · rintro (h | ⟨h, hb⟩)
    · exact .inl (congrArg String.Pos.Raw.byteIdx h)
    · exact .inr ⟨_, dif_pos h, hb⟩
  · rintro (rfl | ⟨b, h, hb⟩)
    · exact .inl rfl
    · split at h
      · rename_i hi
        cases h
        exact .inr ⟨hi, hb⟩
      · cases h

theorem boundary_zero (text : String) : Boundary text 0 :=
  String.Pos.Raw.isValid_eq_true_iff.2 String.Pos.Raw.isValid_zero

theorem boundary_size (text : String) : Boundary text (size text) := boundary_iff.2 (.inl rfl)

theorem Boundary.le_size (h : Boundary text i) : i ≤ size text := by
  obtain rfl | ⟨b, hb, _⟩ := boundary_iff.1 h
  · exact Nat.le_refl _
  · exact Nat.le_of_lt (lt_size_of_byte? hb)

theorem Boundary.of_byte {b : UInt8} (h : byte? text i = some b) (hb : IsAscii b) :
    Boundary text i :=
  boundary_iff.2 (.inr ⟨b, h, isUTF8FirstByte_of_isAscii hb⟩)

theorem Boundary.of_none (h : byte? text i = none) (hi : i ≤ size text) : Boundary text i :=
  boundary_iff.2 (.inl (Nat.le_antisymm hi (byte?_eq_none.1 h)))

/-- From a boundary, the width of the first byte leads to the next boundary. -/
theorem Boundary.add_charWidth {b : UInt8} (h : Boundary text i) (hb : byte? text i = some b) :
    Boundary text (i + charWidth b) := by
  have hlt := lt_size_of_byte? hb
  have hvalid : String.Pos.Raw.IsValid text ⟨i⟩ := String.Pos.Raw.isValid_eq_true_iff.1 h
  have hget : b = text.getUTF8Byte ⟨i⟩ hlt := by
    unfold byte? at hb
    rw [dif_pos hlt] at hb
    exact (Option.some.inj hb).symm
  have hne : text.pos ⟨i⟩ hvalid ≠ text.endPos := by
    intro heq
    have := congrArg (fun p => p.offset.byteIdx) heq
    exact Nat.ne_of_lt hlt this
  have hnext := ((text.pos ⟨i⟩ hvalid).next hne).isValid
  have hoff := String.Pos.byteIdx_offset_next (text.pos ⟨i⟩ hvalid) hne
  rw [← String.Pos.utf8ByteSize_byte] at hoff
  have hbyte : (text.pos ⟨i⟩ hvalid).byte hne = b := by
    rw [hget]
    simp [String.Pos.byte, String.Slice.Pos.byte, String.Slice.getUTF8Byte]
  have hwidth : charWidth b = ((text.pos ⟨i⟩ hvalid).byte hne).utf8ByteSize
      (text.pos ⟨i⟩ hvalid).isUTF8FirstByte_byte := by
    rw [← charWidth_eq_utf8ByteSize, hbyte]
  unfold Boundary isBoundary
  rw [String.Pos.Raw.isValid_eq_true_iff]
  have heq : (⟨i + charWidth b⟩ : String.Pos.Raw) =
      ((text.pos ⟨i⟩ hvalid).next hne).offset := by
    ext
    rw [hoff, hwidth]
    rfl
  rw [heq]
  exact hnext

/-- A byte below 0x80 has a boundary after it. -/
theorem Boundary.succ {b : UInt8} (h : byte? text i = some b) (hb : IsAscii b) :
    Boundary text (i + 1) := by
  have := (Boundary.of_byte h hb).add_charWidth h
  rwa [charWidth_of_isAscii hb] at this

theorem ceil_boundary (text : String) (i : Nat) : Boundary text (ceil text i) := by
  fun_induction ceil text i with
  | case1 i _ h => exact h
  | case2 i _ _ ih => exact ih
  | case3 => exact boundary_size text

theorem le_ceil (h : i ≤ size text) : i ≤ ceil text i := by
  fun_induction ceil text i with
  | case1 => exact Nat.le_refl _
  | case2 i hi _ ih => exact Nat.le_of_succ_le (ih hi)
  | case3 => exact h

theorem ceil_eq (h : Boundary text i) : ceil text i = i := by
  unfold ceil
  split
  · exact if_pos h
  · rename_i hi
    exact Nat.le_antisymm (Nat.le_of_not_lt hi) h.le_size

theorem floor_le (text : String) (i : Nat) : floor text i ≤ i := by
  fun_induction floor text i with
  | case1 => exact Nat.le_refl _
  | case2 => exact Nat.le_refl _
  | case3 i _ ih => exact Nat.le_succ_of_le ih

theorem floor_boundary (text : String) (i : Nat) : Boundary text (floor text i) := by
  fun_induction floor text i with
  | case1 => exact boundary_zero text
  | case2 i h => exact h
  | case3 i _ ih => exact ih

/-- No boundary lies between an offset and what it is rounded down to. -/
theorem le_floor (h : Boundary text j) (hj : j ≤ i) : j ≤ floor text i := by
  fun_induction floor text i with
  | case1 => exact hj
  | case2 => exact hj
  | case3 i hi ih =>
    refine ih (Nat.le_of_lt_succ (Nat.lt_of_le_of_ne hj ?_))
    rintro rfl
    exact hi h

/-! ## Runs -/

variable {inClass : UInt8 → Bool}

theorem runEnd_le_size (h : i ≤ size text) : runEnd text inClass i ≤ size text := by
  fun_induction runEnd text inClass i with
  | case1 i b hb _ ih => exact ih (lt_size_of_byte? hb)
  | case2 => exact h
  | case3 => exact h

/-- A run stops at the end of the text or at a byte that is not in the class. -/
theorem runEnd_stops (text : String) (inClass : UInt8 → Bool) (i : Nat) :
    byte? text (runEnd text inClass i) = none ∨
      ∃ b, byte? text (runEnd text inClass i) = some b ∧ inClass b = false := by
  fun_induction runEnd text inClass i with
  | case1 _ _ _ _ ih => exact ih
  | case2 i b hb h => exact .inr ⟨b, hb, by simpa using h⟩
  | case3 i h => exact .inl h

theorem lt_runEnd {b : UInt8} (hb : byte? text i = some b) (h : inClass b = true) :
    i < runEnd text inClass i := by
  rw [runEnd.eq_def]
  split
  · rename_i c hc
    rw [hb] at hc
    cases hc
    rw [if_pos h]
    exact Heredoc.le_runEnd text inClass (i + 1)
  · rename_i hc
    rw [hb] at hc
    cases hc

/-- Every byte that a run goes over is in the class. -/
theorem runEnd_bytes (hij : i ≤ j) (hj : j < runEnd text inClass i) :
    ∃ b, byte? text j = some b ∧ inClass b = true := by
  fun_induction runEnd text inClass i with
  | case1 i b hb hin ih =>
    rcases Nat.eq_or_lt_of_le hij with rfl | hlt
    · exact ⟨b, hb, hin⟩
    · exact ih hlt hj
  | case2 => omega
  | case3 => omega

theorem runEnd_boundary_of_class (hclass : ∀ b, inClass b = true → IsAscii b)
    (h : Boundary text i) : Boundary text (runEnd text inClass i) := by
  fun_induction runEnd text inClass i with
  | case1 i b hb hin ih => exact ih (.succ hb (hclass b hin))
  | case2 => exact h
  | case3 => exact h

theorem runEnd_boundary_of_end (hclass : ∀ b, inClass b = false → IsAscii b)
    (h : i ≤ size text) : Boundary text (runEnd text inClass i) := by
  obtain hnone | ⟨b, hb, hout⟩ := runEnd_stops text inClass i
  · exact .of_none hnone (runEnd_le_size h)
  · exact .of_byte hb (hclass b hout)

/-! ## Spans -/

/-- Both ends of the span are boundaries. -/
def Cut (text : String) (s : Span) : Prop := Boundary text s.start ∧ Boundary text s.stop

instance (text : String) (s : Span) : Decidable (Cut text s) := inferInstanceAs (Decidable (_ ∧ _))

theorem Cut.stop_le {s : Span} (h : Cut text s) : s.stop ≤ size text := h.2.le_size

theorem cut_empty (h : Boundary text i) : Cut text (.empty i) := ⟨h, h⟩

/-- The stop of `upTo a b` is the larger of the two. -/
theorem stop_upTo_eq_max (a b : Nat) : (Span.upTo a b).stop = max a b := by
  simp only [Span.upTo, Span.stop]
  omega

theorem cut_upTo (hi : Boundary text i) (hj : Boundary text j) : Cut text (.upTo i j) := by
  refine ⟨hi, ?_⟩
  rw [stop_upTo_eq_max]
  rcases Nat.le_total i j with h | h
  · rwa [Nat.max_eq_right h]
  · rwa [Nat.max_eq_left h]

theorem Cut.cover {s t : Span} (hs : Cut text s) (ht : Cut text t) : Cut text (s.cover t) := by
  unfold Span.cover
  apply cut_upTo
  · rcases Nat.le_total s.start t.start with h | h
    · rw [Nat.min_eq_left h]; exact hs.1
    · rw [Nat.min_eq_right h]; exact ht.1
  · rcases Nat.le_total s.stop t.stop with h | h
    · rw [Nat.max_eq_right h]; exact ht.2
    · rw [Nat.max_eq_left h]; exact hs.2

theorem slice_self (text : String) (i : Nat) : slice text i i = "" := by
  unfold slice slice?
  rw [if_pos (Nat.le_refl i)]
  split
  · simp [← String.toByteArray_inj, String.toByteArray_extract]
  · rfl

/-- A piece can be cut out between two boundaries in order. -/
theorem slice?_eq_some (hij : i ≤ j) (hi : Boundary text i) (hj : Boundary text j) :
    slice? text i j = some (slice text i j) := by
  have hi' : String.Pos.Raw.IsValid text ⟨i⟩ := String.Pos.Raw.isValid_eq_true_iff.1 hi
  have hj' : String.Pos.Raw.IsValid text ⟨j⟩ := String.Pos.Raw.isValid_eq_true_iff.1 hj
  unfold slice slice?
  rw [if_pos hij, dif_pos hi', dif_pos hj']
  rfl

/-- A piece is cut out between boundaries in order. -/
theorem boundaries_of_slice? {piece : String} (h : slice? text i j = some piece) :
    i ≤ j ∧ Boundary text i ∧ Boundary text j := by
  unfold slice? at h
  split at h
  · split at h
    · split at h
      · rename_i hij hi hj
        exact ⟨hij, String.Pos.Raw.isValid_eq_true_iff.2 hi,
          String.Pos.Raw.isValid_eq_true_iff.2 hj⟩
      · cases h
    · cases h
  · cases h

theorem slice_of_slice? {piece : String} (h : slice? text i j = some piece) :
    slice text i j = piece := by
  obtain ⟨hij, hi, hj⟩ := boundaries_of_slice? h
  exact Option.some.inj ((slice?_eq_some hij hi hj).symm.trans h)

theorem Cut.slice? {s : Span} (h : Cut text s) :
    slice? text s.start s.stop = some (slice text s.start s.stop) :=
  slice?_eq_some s.start_le_stop h.1 h.2

/-! ## Pieces -/

theorem byte?_of_hasBytes {piece : String} {n k : Nat} (h : hasBytes text i piece n = true)
    (hk : k < n) : ∃ b, byte? piece k = some b ∧ byte? text (i + k) = some b := by
  induction n with
  | zero => omega
  | succ n ih =>
    simp only [hasBytes, Bool.and_eq_true, beq_iff_eq, Option.isSome_iff_exists] at h
    obtain ⟨⟨heq, b, hb⟩, hrest⟩ := h
    rcases Nat.lt_succ_iff_lt_or_eq.1 hk with hlt | rfl
    · exact ih hrest hlt
    · exact ⟨b, hb, heq.trans hb⟩

/-- Where a piece stands, its last byte is a byte of the text. -/
theorem lt_size_of_hasPiece {piece : String} (h : hasPiece text i piece = true)
    (hp : 0 < size piece) : i + size piece ≤ size text := by
  obtain ⟨b, -, hb⟩ := byte?_of_hasBytes h (show size piece - 1 < size piece by omega)
  have := lt_size_of_byte? hb
  omega

/-- After a piece that ends in a byte below 0x80 there is a boundary. -/
theorem boundary_of_hasPiece {piece : String} {b : UInt8} (h : hasPiece text i piece = true)
    (hb : byte? piece (size piece - 1) = some b) (hascii : IsAscii b) :
    Boundary text (i + size piece) := by
  have hlt := lt_size_of_byte? hb
  obtain ⟨c, hc, ht⟩ := byte?_of_hasBytes h hlt
  obtain rfl : b = c := Option.some.inj (hb.symm.trans hc)
  have := Boundary.succ ht hascii
  rwa [show i + (size piece - 1) + 1 = i + size piece by omega] at this

end

end ShellAnalysis.Text
