import ShellAnalysis.Proofs.Lossless

/-!
# Characters of a text

`CharAt text i c` says that the character `c` stands at an offset.  One starts
at every boundary but the last, and one ends at every boundary but the first.
Pieces are cut between characters: the first character of a piece stands where
the piece starts (`head?_slice`), the last one right before its end
(`getLast?_slice`), and a piece that is put together from two can be cut between
them (`slice_eq_append`).
-/

namespace ShellAnalysis

namespace Text

variable {text : String} {i j k : Nat} {b : UInt8} {c d : Char}

/-! ## Pieces -/

theorem size_slice (hij : i ≤ j) (hi : Boundary text i) (hj : Boundary text j) :
    size (slice text i j) = j - i := by
  have hbytes := congrArg ByteArray.size (toByteArray_slice hij hi hj)
  rw [ByteArray.size_extract] at hbytes
  have hle : j ≤ text.toByteArray.size := hj.le_size
  rwa [Nat.min_eq_left hle] at hbytes

/-- The text ahead of a boundary. -/
theorem rest_of_boundary (hi : Boundary text i) : Rest text i (slice text i (size text)) := by
  refine ⟨slice text 0 i, ?_, ?_⟩
  · rw [slice_append (Nat.zero_le i) hi.le_size (boundary_zero text) hi (boundary_size text),
      slice_all]
  · rw [size_slice (Nat.zero_le i) (boundary_zero text) hi, Nat.sub_zero]

/-- The text ahead of a piece. -/
theorem rest_of_slice (hij : i ≤ j) (hi : Boundary text i) (hj : Boundary text j) :
    Rest text i (slice text i j ++ slice text j (size text)) := by
  rw [slice_append hij hj.le_size hi hj (boundary_size text)]
  exact rest_of_boundary hi

/-- A piece that is put together from two is cut between them. -/
theorem slice_eq_append {before after : String} (hij : i ≤ j) (hi : Boundary text i)
    (hj : Boundary text j) (h : slice text i j = before ++ after) :
    i + size before ≤ j ∧ Boundary text (i + size before) ∧
      slice text i (i + size before) = before ∧ slice text (i + size before) j = after := by
  have hrest := rest_of_slice hij hi hj
  rw [h, String.append_assoc] at hrest
  have hsize := size_slice hij hi hj
  rw [h, size_append] at hsize
  have hend : i + size before + size after = j := by omega
  have hafter := hrest.pass.slice_word
  rw [hend] at hafter
  exact ⟨by omega, hrest.pass.boundary, hrest.slice_word, hafter⟩

/-! ## Characters at offsets -/

theorem size_singleton (c : Char) : size (.singleton c) = c.utf8Size :=
  String.utf8ByteSize_singleton

theorem eq_singleton_append {cs : List Char} (h : text.toList = c :: cs) :
    text = .singleton c ++ .ofList cs := by
  rw [← String.toList_inj, h, String.toList_append, String.toList_singleton,
    String.toList_ofList, List.singleton_append]

/-- The character `c` stands at the offset. -/
def CharAt (text : String) (i : Nat) (c : Char) : Prop :=
  ∃ tail, Rest text i (.singleton c ++ tail)

theorem CharAt.pass (h : CharAt text i c) : ∃ tail, Rest text (i + c.utf8Size) tail := by
  obtain ⟨tail, h⟩ := h
  have hpass := h.pass
  rw [size_singleton] at hpass
  exact ⟨tail, hpass⟩

theorem CharAt.lt_size (h : CharAt text i c) : i < size text := by
  obtain ⟨tail, htail⟩ := h.pass
  have hle := htail.le_size
  have hpos := c.utf8Size_pos
  omega

/-- What stands ahead of an offset is one text. -/
theorem Rest.eq_slice {tail : String} (h : Rest text i tail) : slice text i (size text) = tail := by
  have hword : Rest text i (tail ++ "") := by rwa [String.append_empty]
  rw [← h.add_size]
  exact hword.slice_word

theorem CharAt.slice_eq (h : CharAt text i c) :
    slice text i (i + c.utf8Size) = .singleton c := by
  obtain ⟨tail, h⟩ := h
  have hslice := h.slice_word
  rwa [size_singleton] at hslice

theorem CharAt.unique (hc : CharAt text i c) (hd : CharAt text i d) : c = d := by
  obtain ⟨tail, hc⟩ := hc
  obtain ⟨tail', hd⟩ := hd
  have heq : (String.singleton c ++ tail).toList = (String.singleton d ++ tail').toList := by
    rw [← hc.eq_slice, hd.eq_slice]
  rw [String.toList_append, String.toList_append, String.toList_singleton,
    String.toList_singleton] at heq
  exact (List.cons.inj heq).1

theorem CharAt.byte_eq (h : CharAt text i c) : byte? text i = byte? (.singleton c) 0 := by
  obtain ⟨tail, h⟩ := h
  have hpos : 0 < size (.singleton c) := by
    rw [size_singleton]
    exact c.utf8Size_pos
  rw [h.byte_zero, byte?_append_left hpos]

/-- The first byte of a character says how long it is. -/
theorem charWidth_eq_utf8Size (h : byte? (.singleton c) 0 = some b) :
    charWidth b = c.utf8Size := by
  -- The width leads from the start of a text of this one character to its end.
  have hend : Boundary (.singleton c) (0 + charWidth b) := (boundary_zero _).add_charWidth h
  have hpos := Content.charWidth_pos b
  rw [Nat.zero_add] at hend
  rcases String.Pos.Raw.isValid_singleton.1 (String.Pos.Raw.isValid_eq_true_iff.1 hend) with
    hstart | hsize
  · have hzero : charWidth b = 0 := congrArg String.Pos.Raw.byteIdx hstart
    omega
  · exact hsize

theorem CharAt.exists_byte (h : CharAt text i c) :
    ∃ b, byte? text i = some b ∧ charWidth b = c.utf8Size := by
  cases hb : byte? text i with
  | none => exact absurd h.lt_size (Nat.not_lt.2 (byte?_eq_none.1 hb))
  | some b => exact ⟨b, rfl, charWidth_eq_utf8Size (h.byte_eq.symm.trans hb)⟩

/-- A character starts at every boundary but the last. -/
theorem exists_charAt (hi : Boundary text i) (hb : byte? text i = some b) :
    ∃ c, CharAt text i c ∧ charWidth b = c.utf8Size := by
  have hrest := rest_of_boundary hi
  cases hchars : (slice text i (size text)).toList with
  | nil =>
    rw [String.toList_eq_nil_iff.1 hchars] at hrest
    rw [hrest.byte_zero] at hb
    cases hb
  | cons c cs =>
    rw [eq_singleton_append hchars] at hrest
    have hc : CharAt text i c := ⟨_, hrest⟩
    exact ⟨c, hc, charWidth_eq_utf8Size (hc.byte_eq.symm.trans hb)⟩

/-- A character of one byte stands where its byte does. -/
theorem charAt_iff (hb : IsAscii b) (hc : byte? (.singleton c) 0 = some b) :
    CharAt text i c ↔ byte? text i = some b := by
  constructor
  · intro h
    rw [h.byte_eq, hc]
  · intro hi
    obtain ⟨d, hd, hwidth⟩ := exists_charAt (.of_byte hi hb) hi
    have hsize : size (.singleton c) = 1 := by
      rw [← charWidth_of_isAscii hb, charWidth_eq_utf8Size hc]
      exact size_singleton c
    have heq : String.singleton d = .singleton c := by
      rw [← hd.slice_eq, ← hwidth, charWidth_of_isAscii hb]
      exact slice_byte hi hb hsize hc
    rwa [String.singleton_inj.1 heq] at hd

/-! ## Characters and boundaries -/

theorem CharAt.boundary (h : CharAt text i c) : Boundary text i := by
  obtain ⟨tail, h⟩ := h
  exact h.boundary

theorem CharAt.boundary_next (h : CharAt text i c) : Boundary text (i + c.utf8Size) := by
  obtain ⟨tail, h⟩ := h.pass
  exact h.boundary

theorem exists_charAt_of_lt (hi : Boundary text i) (hlt : i < size text) :
    ∃ c, CharAt text i c := by
  cases hb : byte? text i with
  | none => exact absurd hlt (Nat.not_lt.2 (byte?_eq_none.1 hb))
  | some b =>
    obtain ⟨c, hc, -⟩ := exists_charAt hi hb
    exact ⟨c, hc⟩

/-- A piece that starts with a character has it at its start. -/
theorem charAt_of_slice {after : String} (hij : i ≤ j) (hi : Boundary text i)
    (hj : Boundary text j) (h : slice text i j = .singleton c ++ after) :
    CharAt text i c ∧ i + c.utf8Size ≤ j ∧ slice text (i + c.utf8Size) j = after := by
  obtain ⟨hle, -, -, hafter⟩ := slice_eq_append hij hi hj h
  rw [size_singleton] at hle hafter
  have hrest := rest_of_slice hij hi hj
  rw [h, String.append_assoc] at hrest
  exact ⟨⟨_, hrest⟩, hle, hafter⟩

/-- No boundary lies inside a character. -/
theorem CharAt.next_le (h : CharAt text i c) (hj : Boundary text j) (hij : i < j) :
    i + c.utf8Size ≤ j := by
  have hle := Nat.le_of_lt hij
  have hsize := size_slice hle h.boundary hj
  cases hchars : (slice text i j).toList with
  | nil =>
    rw [String.toList_eq_nil_iff.1 hchars, show size "" = 0 from rfl] at hsize
    omega
  | cons d ds =>
    obtain ⟨hd, hnext, -⟩ :=
      charAt_of_slice hle h.boundary hj (eq_singleton_append hchars)
    rwa [h.unique hd]

theorem CharAt.le_of_lt_next (h : CharAt text k c) (hi : Boundary text i)
    (hlt : i < k + c.utf8Size) : i ≤ k := by
  rcases Nat.lt_or_ge k i with hki | hik
  · have := h.next_le hi hki
    omega
  · exact hik

theorem CharAt.floor_pred (h : CharAt text i c) : floor text (i + c.utf8Size - 1) = i := by
  have hpos := c.utf8Size_pos
  have hle := floor_le text (i + c.utf8Size - 1)
  apply Nat.le_antisymm
  · exact h.le_of_lt_next (floor_boundary text _) (by omega)
  · exact le_floor h.boundary (by omega)

/-- A character ends at every boundary but the first. -/
theorem exists_charBefore (hj : Boundary text j) (hpos : 0 < j) :
    ∃ i c, CharAt text i c ∧ i + c.utf8Size = j := by
  have hle := floor_le text (j - 1)
  have hsize := hj.le_size
  obtain ⟨c, hc⟩ := exists_charAt_of_lt (floor_boundary text (j - 1)) (by omega)
  have hwidth := c.utf8Size_pos
  refine ⟨_, c, hc, Nat.le_antisymm (hc.next_le hj (by omega)) (Nat.le_of_not_lt fun hlt => ?_)⟩
  have := le_floor hc.boundary_next (Nat.le_sub_one_of_lt hlt)
  omega

/-! ## The ends of a piece -/

theorem slice_eq_cons (hc : CharAt text i c) (hj : Boundary text j) (hij : i < j) :
    slice text i j = .singleton c ++ slice text (i + c.utf8Size) j := by
  rw [← hc.slice_eq, slice_append (Nat.le_add_right _ _) (hc.next_le hj hij) hc.boundary
    hc.boundary_next hj]

theorem head?_slice (hc : CharAt text i c) (hj : Boundary text j) (hij : i < j) :
    (slice text i j).toList.head? = some c := by
  rw [slice_eq_cons hc hj hij, String.toList_append, String.toList_singleton]
  rfl

theorem getLast?_slice (hi : Boundary text i) (hc : CharAt text k c) (hik : i ≤ k) :
    (slice text i (k + c.utf8Size)).toList.getLast? = some c := by
  rw [← slice_append hik (Nat.le_add_right _ _) hi hc.boundary hc.boundary_next, hc.slice_eq,
    String.toList_append, String.toList_singleton, List.getLast?_concat]

/-! ## Hyphens -/

theorem utf8Size_hyphen : ('-').utf8Size = 1 := rfl

theorem charAt_hyphen : CharAt text i '-' ↔ byte? text i = some 0x2d :=
  charAt_iff (by decide) rfl

end Text

end ShellAnalysis
