import ShellAnalysis.Text.Utf8

/-!
# Reading back the bytes of a text

`decodeLossy` reads every byte string.  On the bytes of a text it replaces
nothing:

    decodeLossy (encode s) = s                              (decodeLossy_encode)

The bytes of a character are read back as that character, whatever comes after
them (`first_utf8EncodeChar`), and a text is its characters one after another.
-/

namespace ShellAnalysis.Utf8

/-! ## Bytes in order -/

theorem toList_loop (bytes : ByteArray) (i : Nat) (read : List UInt8) :
    ByteArray.toList.loop bytes i read = read.reverse ++ bytes.data.toList.drop i := by
  fun_induction ByteArray.toList.loop bytes i read with
  | case1 i read hi ih =>
    have hlt : i < bytes.data.toList.length := by simpa using hi
    have hbyte : bytes.get! i = bytes.data.toList[i] := by simp [ByteArray.get!, hi]
    rw [ih, List.drop_eq_getElem_cons hlt, hbyte, List.reverse_cons, List.append_assoc,
      List.singleton_append]
  | case2 i read hi =>
    have hlength : bytes.data.toList.length ≤ i := by simpa using Nat.le_of_not_lt hi
    rw [List.drop_eq_nil_of_le hlength, List.append_nil]

/-- The bytes of a text are those of its characters in order. -/
theorem encode_eq (text : String) : encode text = text.toList.flatMap String.utf8EncodeChar := by
  have hbytes : text.toUTF8 = (text.toList.flatMap String.utf8EncodeChar).toByteArray := by
    conv => lhs; rw [← String.ofList_toList (s := text)]
    rfl
  rw [encode, hbytes, ByteArray.toList, toList_loop, List.reverse_nil, List.nil_append,
    List.drop_zero, List.toList_data_toByteArray]

theorem length_encode (text : String) : (encode text).length = text.utf8ByteSize := by
  rw [encode, ByteArray.toList, toList_loop, List.reverse_nil, List.nil_append, List.drop_zero,
    Array.length_toList]
  rfl

/-! ## One character -/

theorem between_iff {b lo hi : UInt8} :
    (lo ≤ b && b ≤ hi) = true ↔ lo.toNat ≤ b.toNat ∧ b.toNat ≤ hi.toNat := by
  rw [Bool.and_eq_true, decide_eq_true_eq, decide_eq_true_eq, UInt8.le_iff_toNat_le,
    UInt8.le_iff_toNat_le]

theorem isContinuation_iff {b : UInt8} :
    isContinuation b = true ↔ 0x80 ≤ b.toNat ∧ b.toNat ≤ 0xbf := between_iff

/-- A byte that goes on with a character carries six of its bits. -/
theorem continuation_ofNat (n : Nat) :
    isContinuation (UInt8.ofNat (n % 64 + 128)) = true ∧
      low (UInt8.ofNat (n % 64 + 128)) = n % 64 := by
  have hbyte : (UInt8.ofNat (n % 64 + 128)).toNat = n % 64 + 128 := by
    rw [UInt8.toNat_ofNat']
    omega
  rw [isContinuation_iff, low, hbyte]
  omega

section

variable {b c d e : UInt8} {rest : List UInt8}

theorem first_one (hb : b.toNat ≤ 0x7f) : first b rest = (Char.ofNat b.toNat, 0) := by
  have hlow : b < 0x80 := UInt8.lt_iff_toNat_lt.2 (Nat.lt_succ_of_le hb)
  unfold first
  rw [if_pos hlow]

theorem not_ascii (hb : 0xc2 ≤ b.toNat) : ¬b < 0x80 := fun hlow => by
  have : b.toNat < 0x80 := UInt8.lt_iff_toNat_lt.1 hlow
  omega

theorem first_two (hb : (0xc2 ≤ b && b ≤ 0xdf) = true) (hc : isContinuation c = true) :
    first b (c :: rest) = (Char.ofNat (b.toNat % 32 * 64 + low c), 1) := by
  unfold first
  rw [if_neg (not_ascii (between_iff.1 hb).1), if_pos hb]
  simp only [hc, if_true]

theorem first_three (hb : (0xe0 ≤ b && b ≤ 0xef) = true) (hc : isSecond b c = true)
    (hd : isContinuation d = true) :
    first b (c :: d :: rest) = (Char.ofNat ((b.toNat % 16 * 64 + low c) * 64 + low d), 2) := by
  have hge : 0xe0 ≤ b.toNat := (between_iff.1 hb).1
  have hnot₂ : ¬(0xc2 ≤ b && b ≤ 0xdf) = true := fun h => by
    have : b.toNat ≤ 0xdf := (between_iff.1 h).2
    omega
  unfold first
  rw [if_neg (not_ascii (by omega)), if_neg hnot₂, if_pos hb]
  simp only [hc, hd, Bool.not_true, Bool.false_eq_true, if_false]

theorem first_four (hb : (0xf0 ≤ b && b ≤ 0xf4) = true) (hc : isSecond b c = true)
    (hd : isContinuation d = true) (he : isContinuation e = true) :
    first b (c :: d :: e :: rest) =
      (Char.ofNat (((b.toNat % 8 * 64 + low c) * 64 + low d) * 64 + low e), 3) := by
  have hge : 0xf0 ≤ b.toNat := (between_iff.1 hb).1
  have hnot₂ : ¬(0xc2 ≤ b && b ≤ 0xdf) = true := fun h => by
    have : b.toNat ≤ 0xdf := (between_iff.1 h).2
    omega
  have hnot₃ : ¬(0xe0 ≤ b && b ≤ 0xef) = true := fun h => by
    have : b.toNat ≤ 0xef := (between_iff.1 h).2
    omega
  unfold first
  rw [if_neg (not_ascii (by omega)), if_neg hnot₂, if_neg hnot₃, if_pos hb]
  simp only [hc, hd, he, Bool.not_true, Bool.false_eq_true, if_false]

/-- Second bytes leave out overlong forms, surrogates and what lies above the last code point. -/
theorem isSecond_of (hc : isContinuation c = true) (he0 : b.toNat = 0xe0 → 0xa0 ≤ c.toNat)
    (hf0 : b.toNat = 0xf0 → 0x90 ≤ c.toNat) (hed : b.toNat = 0xed → c.toNat ≤ 0x9f)
    (hf4 : b.toNat = 0xf4 → c.toNat ≤ 0x8f) : isSecond b c = true := by
  obtain ⟨hlow, hhigh⟩ := isContinuation_iff.1 hc
  unfold isSecond
  refine between_iff.2 ⟨?_, ?_⟩
  · split
    · rename_i h
      exact he0 (congrArg UInt8.toNat (beq_iff_eq.1 h))
    · split
      · rename_i h
        exact hf0 (congrArg UInt8.toNat (beq_iff_eq.1 h))
      · exact hlow
  · split
    · rename_i h
      exact hed (congrArg UInt8.toNat (beq_iff_eq.1 h))
    · split
      · rename_i h
        exact hf4 (congrArg UInt8.toNat (beq_iff_eq.1 h))
      · exact hhigh

end

theorem toNat_ofNat {n : Nat} (h : n < 256) : (UInt8.ofNat n).toNat = n := by
  rw [UInt8.toNat_ofNat', Nat.mod_eq_of_lt h]

/-- The bytes of a character are read back as it, whatever comes after them. -/
theorem first_utf8EncodeChar (c : Char) (rest : List UInt8) :
    ∃ b more, String.utf8EncodeChar c = b :: more ∧ first b (more ++ rest) = (c, more.length) := by
  have hvalid : c.toNat < 0xd800 ∨ 0xdfff < c.toNat ∧ c.toNat < 0x110000 := c.valid
  have hchar : ∀ {n}, n = c.toNat → Char.ofNat n = c := fun h => by rw [h, Char.ofNat_toNat]
  unfold String.utf8EncodeChar
  simp only [Char.toNat_val]
  generalize hv : c.toNat = v at hvalid hchar
  -- One case for each number of bytes.
  obtain h₁ | ⟨h₁, h₂⟩ | ⟨h₂, h₃⟩ | h₃ :
      v ≤ 127 ∨ 127 < v ∧ v ≤ 2047 ∨ 2047 < v ∧ v ≤ 65535 ∨ 65535 < v := by omega
  · have hb := toNat_ofNat (n := v) (by omega)
    rw [if_pos h₁]
    refine ⟨_, _, rfl, ?_⟩
    rw [first_one (by omega), hb, hchar rfl]
    rfl
  · have hb := toNat_ofNat (n := v / 64 % 32 + 192) (by omega)
    obtain ⟨hc, hclow⟩ := continuation_ofNat v
    rw [if_neg (by omega), if_pos h₂]
    refine ⟨_, _, rfl, ?_⟩
    have hlead : 0xc2 ≤ v / 64 % 32 + 192 ∧ v / 64 % 32 + 192 ≤ 0xdf := by omega
    rw [← hb] at hlead
    rw [List.singleton_append, first_two (between_iff.2 hlead) hc, hb, hclow, hchar (by omega)]
    rfl
  · have hb := toNat_ofNat (n := v / 4096 % 16 + 224) (by omega)
    have hn := toNat_ofNat (n := v / 64 % 64 + 128) (by omega)
    obtain ⟨hc, hclow⟩ := continuation_ofNat (v / 64)
    obtain ⟨hd, hdlow⟩ := continuation_ofNat v
    rw [if_neg (by omega), if_neg (by omega), if_pos h₃]
    refine ⟨_, _, rfl, ?_⟩
    have hlead : 0xe0 ≤ v / 4096 % 16 + 224 ∧ v / 4096 % 16 + 224 ≤ 0xef := by omega
    rw [← hb] at hlead
    have hsecond : isSecond (.ofNat (v / 4096 % 16 + 224)) (.ofNat (v / 64 % 64 + 128)) = true := by
      apply isSecond_of hc <;> rw [hb, hn] <;> omega
    rw [List.cons_append, List.singleton_append, first_three (between_iff.2 hlead) hsecond hd, hb,
      hclow, hdlow, hchar (by omega)]
    rfl
  · have hb := toNat_ofNat (n := v / 262144 % 8 + 240) (by omega)
    have hn := toNat_ofNat (n := v / 4096 % 64 + 128) (by omega)
    obtain ⟨hc, hclow⟩ := continuation_ofNat (v / 4096)
    obtain ⟨hd, hdlow⟩ := continuation_ofNat (v / 64)
    obtain ⟨he, helow⟩ := continuation_ofNat v
    rw [if_neg (by omega), if_neg (by omega), if_neg (by omega)]
    refine ⟨_, _, rfl, ?_⟩
    have hlead : 0xf0 ≤ v / 262144 % 8 + 240 ∧ v / 262144 % 8 + 240 ≤ 0xf4 := by omega
    rw [← hb] at hlead
    have hsecond :
        isSecond (.ofNat (v / 262144 % 8 + 240)) (.ofNat (v / 4096 % 64 + 128)) = true := by
      apply isSecond_of hc <;> rw [hb, hn] <;> omega
    rw [List.cons_append, List.cons_append, List.singleton_append,
      first_four (between_iff.2 hlead) hsecond hd he, hb, hclow, hdlow, helow, hchar (by omega)]
    rfl

/-! ## Whole texts -/

theorem lossyChars_flatMap (chars : List Char) :
    lossyChars (chars.flatMap String.utf8EncodeChar) = chars := by
  induction chars with
  | nil => rw [List.flatMap_nil, lossyChars]
  | cons c chars ih =>
    obtain ⟨b, more, hbytes, hfirst⟩ :=
      first_utf8EncodeChar c (chars.flatMap String.utf8EncodeChar)
    rw [List.flatMap_cons, hbytes, List.cons_append, lossyChars, hfirst]
    simp only
    rw [List.drop_left, ih]

/-- Nothing is replaced in the bytes of a text. -/
theorem decodeLossy_encode (text : String) : decodeLossy (encode text) = text := by
  rw [decodeLossy, encode_eq, lossyChars_flatMap, String.ofList_toList]

end ShellAnalysis.Utf8
