import ShellAnalysis.Proofs.Resumption

/-!
# Delimiters that are cut off

The stored form of a heredoc is cut off at `maxDelimiter` bytes, and only then
read as text.  The cut counts bytes and the reading replaces broken characters,
so a delimiter that was read back can be longer than the limit:

    size (ofBytes bytes).delimiter ≤ 3 * maxDelimiter        (size_ofBytes_le)

and invalid bytes reach that bound (`size_ofBytes_invalid`).  Storing such a
delimiter cuts it again, perhaps inside a character.  What one store has cut
off stays as it is: a second one gives back what the first one left
(`ofBytes_toBytes_again`), because a character cut short is read as one
replacement character, and that one cut at the same place is read as itself.
-/

namespace ShellAnalysis

open Text (size)

namespace Utf8

variable {b : UInt8} {more : List UInt8} {c : Char} {k : Nat}

theorem size_ofList (chars : List Char) :
    size (String.ofList chars) = (chars.flatMap String.utf8EncodeChar).length := by
  have hbytes : (encode (String.ofList chars)).length = size (String.ofList chars) :=
    length_encode _
  rw [← hbytes, encode_eq, String.toList_ofList]

/-! ## How long a reading is -/

theorem first_le (b : UInt8) (rest : List UInt8) : (first b rest).2 ≤ rest.length := by
  unfold first
  repeat' split
  all_goals simp only [List.length_cons]; omega

/-- Only characters of more than one byte are longer than the replacement. -/
theorem utf8Size_first_le (b : UInt8) (rest : List UInt8) :
    (first b rest).1.utf8Size ≤ 3 ∨ 1 ≤ (first b rest).2 := by
  have hreplacement : replacement.utf8Size ≤ 3 := Nat.le_refl _
  have hascii : ∀ n, n < 0x80 → (Char.ofNat n).utf8Size ≤ 3 := by decide +kernel
  unfold first
  split
  · rename_i hb
    exact .inl (hascii _ (UInt8.lt_iff_toNat_lt.1 hb))
  · repeat' split
    all_goals first
      | exact .inl hreplacement
      | exact .inr (Nat.le_add_left 1 _)

/-- A byte is read as three at most, those of the replacement character. -/
theorem size_decodeLossy_le (bytes : List UInt8) :
    size (decodeLossy bytes) ≤ 3 * bytes.length := by
  rw [decodeLossy, size_ofList]
  fun_induction lossyChars bytes with
  | case1 => exact Nat.le_refl _
  | case2 b rest c n hfirst ih =>
    have hn : n ≤ rest.length := by
      have := first_le b rest
      rwa [hfirst] at this
    have hc : c.utf8Size ≤ 3 ∨ 1 ≤ n := by
      have := utf8Size_first_le b rest
      rwa [hfirst] at this
    have hfour : c.utf8Size ≤ 4 := c.utf8Size_le_four
    rw [List.length_drop] at ih
    rw [List.flatMap_cons, List.length_append, String.length_utf8EncodeChar, List.length_cons]
    omega

/-! ## Characters that are cut short -/

theorem first_le_three (b : UInt8) (rest : List UInt8) : (first b rest).2 ≤ 3 := by
  unfold first
  repeat' split
  all_goals exact Nat.le_of_ble_eq_true rfl

/-- A character that takes up all the bytes is read as one replacement from any start of them. -/
theorem first_take (hfirst : first b more = (c, more.length)) (hk : k < more.length) :
    first b (more.take k) = (replacement, k) := by
  have hthree : more.length ≤ 3 := by
    have := first_le_three b more
    rwa [hfirst] at this
  match more, hthree with
  | [], _ => exact absurd hk (Nat.not_lt_zero k)
  | [d], _ =>
    obtain rfl : k = 0 := Nat.lt_one_iff.1 hk
    simp only [List.take_zero]
    unfold first at hfirst ⊢
    grind
  | [d, e], _ =>
    obtain rfl | rfl : k = 0 ∨ k = 1 := by simp at hk; omega
    all_goals
      simp only [List.take_zero, List.take_succ_cons]
      unfold first at hfirst ⊢
      grind
  | [d, e, f], _ =>
    obtain rfl | rfl | rfl : k = 0 ∨ k = 1 ∨ k = 2 := by simp at hk; omega
    all_goals
      simp only [List.take_zero, List.take_succ_cons]
      unfold first at hfirst ⊢
      grind

/-- The first bytes of a character, not all of them, are read as one replacement. -/
theorem lossyChars_take_utf8EncodeChar (hpos : 0 < k) (hk : k < (String.utf8EncodeChar c).length) :
    lossyChars ((String.utf8EncodeChar c).take k) = [replacement] := by
  obtain ⟨b, more, hbytes, hfirst⟩ := first_utf8EncodeChar c []
  obtain ⟨k, rfl⟩ := Nat.exists_eq_succ_of_ne_zero (Nat.ne_of_gt hpos)
  rw [List.append_nil] at hfirst
  rw [hbytes, List.length_cons] at hk
  have hcut : first b (more.take k) = (replacement, k) :=
    first_take hfirst (Nat.lt_of_succ_lt_succ hk)
  have hnothing : (more.take k).drop k = [] :=
    List.drop_eq_nil_of_le (List.length_take_le k more)
  rw [hbytes, List.take_succ_cons, lossyChars, hcut]
  simp only [hnothing]
  rw [lossyChars]

/-- Whole characters are read as they are, whatever comes after them. -/
theorem lossyChars_append (chars : List Char) (rest : List UInt8) :
    lossyChars (chars.flatMap String.utf8EncodeChar ++ rest) = chars ++ lossyChars rest := by
  induction chars with
  | nil => rfl
  | cons c chars ih =>
    obtain ⟨b, more, hbytes, hfirst⟩ :=
      first_utf8EncodeChar c (chars.flatMap String.utf8EncodeChar ++ rest)
    rw [List.flatMap_cons, List.append_assoc, hbytes, List.cons_append, lossyChars, hfirst]
    simp only
    rw [List.drop_left, ih, List.cons_append]

/-- A text cut off at `n` bytes: whole characters, and perhaps the start of another. -/
theorem take_flatMap (chars : List Char) (n : Nat) :
    ∃ whole : List Char, (chars.flatMap String.utf8EncodeChar).take n =
        whole.flatMap String.utf8EncodeChar ∨
      ∃ c k, 0 < k ∧ k < (String.utf8EncodeChar c).length ∧
        n = (whole.flatMap String.utf8EncodeChar).length + k ∧
        (chars.flatMap String.utf8EncodeChar).take n =
          whole.flatMap String.utf8EncodeChar ++ (String.utf8EncodeChar c).take k := by
  induction chars generalizing n with
  | nil => exact ⟨[], .inl List.take_nil⟩
  | cons c chars ih =>
    rcases Nat.lt_or_ge n (String.utf8EncodeChar c).length with hn | hn
    · have hcut : ((c :: chars).flatMap String.utf8EncodeChar).take n =
          (String.utf8EncodeChar c).take n := by
        rw [List.flatMap_cons, List.take_append_of_le_length (Nat.le_of_lt hn)]
      rcases Nat.eq_zero_or_pos n with rfl | hpos
      · exact ⟨[], .inl List.take_zero⟩
      · exact ⟨[], .inr ⟨c, n, hpos, hn, (Nat.zero_add n).symm, hcut⟩⟩
    · have hcut : ((c :: chars).flatMap String.utf8EncodeChar).take n =
          String.utf8EncodeChar c ++
            (chars.flatMap String.utf8EncodeChar).take (n - (String.utf8EncodeChar c).length) := by
        rw [List.flatMap_cons, List.take_append, List.take_of_length_le hn]
      obtain ⟨whole, h⟩ := ih (n - (String.utf8EncodeChar c).length)
      refine ⟨c :: whole, ?_⟩
      rw [hcut, List.flatMap_cons]
      rcases h with h | ⟨d, k, hpos, hk, hlength, h⟩
      · exact .inl (by rw [h])
      · refine .inr ⟨d, k, hpos, hk, ?_, by rw [h, List.append_assoc]⟩
        rw [List.length_append]
        omega

/-- Cutting a text off where it was cut off before changes nothing more. -/
theorem decodeLossy_take_again (text : String) (n : Nat) :
    decodeLossy ((encode (decodeLossy ((encode text).take n))).take n) =
      decodeLossy ((encode text).take n) := by
  have hlength : ((encode text).take n).length ≤ n := List.length_take_le n _
  rw [encode_eq text] at hlength ⊢
  obtain ⟨whole, h | ⟨c, k, hpos, hk, hn, h⟩⟩ := take_flatMap text.toList n
  · have hread : decodeLossy (whole.flatMap String.utf8EncodeChar) = String.ofList whole := by
      rw [decodeLossy, lossyChars_flatMap]
    rw [h] at hlength ⊢
    rw [hread, encode_eq, String.toList_ofList, List.take_of_length_le hlength, hread]
  · have hread : ∀ d, k < (String.utf8EncodeChar d).length →
        decodeLossy (whole.flatMap String.utf8EncodeChar ++ (String.utf8EncodeChar d).take k) =
          String.ofList (whole ++ [replacement]) := fun d hd => by
      rw [decodeLossy, lossyChars_append, lossyChars_take_utf8EncodeChar hpos hd]
    have hcut : ((whole ++ [replacement]).flatMap String.utf8EncodeChar).take n =
        whole.flatMap String.utf8EncodeChar ++ (String.utf8EncodeChar replacement).take k := by
      rw [List.flatMap_append, List.flatMap_singleton, hn, List.take_length_add_append]
    rw [h, hread c hk, encode_eq, String.toList_ofList, hcut]
    rcases Nat.lt_or_ge k (String.utf8EncodeChar replacement).length with hlt | hge
    · exact hread replacement hlt
    · have hwhole : whole.flatMap String.utf8EncodeChar ++ String.utf8EncodeChar replacement =
          (whole ++ [replacement]).flatMap String.utf8EncodeChar := by
        rw [List.flatMap_append, List.flatMap_singleton]
      rw [List.take_of_length_le hge, hwhole, decodeLossy, lossyChars_flatMap]

end Utf8

namespace Heredoc

/-! ## Delimiters that were read back -/

/-- The cut leaves 256 bytes at most, each of which may be read as three. -/
theorem size_ofBytes_le (bytes : List UInt8) :
    size (ofBytes bytes).delimiter ≤ 3 * maxDelimiter := by
  unfold ofBytes
  split
  · rename_i high low rest
    refine Nat.le_trans (Utf8.size_decodeLossy_le _) (Nat.mul_le_mul_left 3 ?_)
    exact Nat.le_trans (List.length_take_le _ rest) (Nat.min_le_right _ _)
  · exact Nat.zero_le _

/-- Bytes that start no character are replaced one by one. -/
theorem lossyChars_replicate (n : Nat) :
    Utf8.lossyChars (List.replicate n 0xff) = List.replicate n Utf8.replacement := by
  induction n with
  | zero => rw [List.replicate_zero, Utf8.lossyChars, List.replicate_zero]
  | succ n ih =>
    have hfirst : Utf8.first 0xff (List.replicate n 0xff) = (Utf8.replacement, 0) := rfl
    rw [List.replicate_succ, Utf8.lossyChars, hfirst, List.replicate_succ]
    simp only [List.drop_zero]
    rw [ih]

/-- A full delimiter of such bytes is three times as long as the limit. -/
theorem size_ofBytes_invalid :
    size (ofBytes ([1, 0, 0, 1, 0] ++ List.replicate maxDelimiter 0xff)).delimiter =
      3 * maxDelimiter := by
  have hdelimiter : ∀ rest, (ofBytes ([1, 0, 0, 1, 0] ++ rest)).delimiter =
      Utf8.decodeLossy (rest.take maxDelimiter) := fun rest => by
    have hlength :
        min ((1 : UInt8).toNat * 256 + (0 : UInt8).toNat) maxDelimiter = maxDelimiter := by
      decide
    rw [← hlength]
    rfl
  have hthree : (String.utf8EncodeChar Utf8.replacement).length = 3 := rfl
  rw [hdelimiter, List.take_of_length_le (Nat.le_of_eq List.length_replicate), Utf8.decodeLossy,
    lossyChars_replicate, Utf8.size_ofList, List.length_flatMap, List.map_replicate,
    List.sum_replicate_nat, hthree, Nat.mul_comm]

/-- Storing keeps the flags, and the delimiter as far as its bytes go. -/
theorem ofBytes_toBytes_eq (h : Heredoc) :
    ofBytes h.toBytes =
      { h with delimiter := Utf8.decodeLossy ((Utf8.encode h.delimiter).take maxDelimiter) } := by
  have hlength : ((Utf8.encode h.delimiter).take maxDelimiter).length ≤ maxDelimiter :=
    List.length_take_le _ _
  unfold toBytes
  simp only [List.cons_append, List.nil_append, ofBytes]
  rw [length_of_bytes hlength, List.take_length, flag_ne_zero, flag_ne_zero, flag_ne_zero]

/-- What one store has cut off stays as it is. -/
theorem ofBytes_toBytes_again (h : Heredoc) :
    ofBytes (ofBytes h.toBytes).toBytes = ofBytes h.toBytes := by
  rw [ofBytes_toBytes_eq (ofBytes h.toBytes), ofBytes_toBytes_eq h]
  simp only
  rw [Utf8.decodeLossy_take_again]

end Heredoc

end ShellAnalysis
