import Mathlib.Logic.Relation
import ShellAnalysis.Navigate.Identifier
import ShellAnalysis.Proofs.Characters

/-!
# Runs of name characters

A character is part of an identifier if it is a name character, or a hyphen
between two of them (`Belongs`).  Whether it is does not depend on where a scan
comes from, so both scans go over the same characters (`Run`) and all offsets of
a run lead to the same two ends.

What is found under a cursor stands in such a run, and the run is a longest one
(`MaximalRun`).  Conversely all offsets in a longest run find it:

    MaximalRun isName text span → span.start ≤ i → i < span.stop →
      at? isName text i = read? isName text span              (MaximalRun.at?_eq)

So the identifier is the same from everywhere in it (`at?_maximalRun`).  Nothing
is asked of the class of name characters.
-/

namespace ShellAnalysis

namespace Identifier

open Text

variable {isName : Char → Bool} {text : String} {offset i j k : Nat} {c : Char} {span : Span}
  {ident : IdentifierAt}

/-! ## Characters around an offset -/

theorem charAt?_sound (h : charAt? text i = some c) : CharAt text i c := by
  have hlt := lt_size_of_charAt? h
  unfold charAt? at h
  rw [if_pos hlt] at h
  obtain ⟨p, hp, hget⟩ := Option.bind_eq_some_iff.1 h
  have hoffset : p.offset = ⟨i⟩ := by
    unfold String.pos? String.Slice.pos? at hp
    split at hp
    · cases hp
      rfl
    · cases hp
  unfold String.Pos.get? String.Slice.Pos.get? at hget
  split at hget
  · cases hget
  · rename_i hne
    cases hget
    have hsplits := p.splits_next_right fun hend => hne (congrArg String.Pos.toSlice hend)
    have hstart := hsplits.offset_eq_rawEndPos
    rw [hoffset] at hstart
    exact ⟨_, _, hsplits.eq_append, congrArg String.Pos.Raw.byteIdx hstart⟩

theorem charAt?_eq_some_iff : charAt? text i = some c ↔ CharAt text i c := by
  refine ⟨charAt?_sound, fun h => ?_⟩
  have hvalid : String.Pos.Raw.IsValid text ⟨i⟩ := String.Pos.Raw.isValid_eq_true_iff.1 h.boundary
  have hpos : text.pos? ⟨i⟩ = some (text.pos ⟨i⟩ hvalid) := by
    unfold String.pos? String.Slice.pos?
    rw [dif_pos (String.Pos.Raw.isValidForSlice_eq_true_iff.2 hvalid.toSlice)]
    rfl
  obtain ⟨d, hd⟩ : ∃ d, charAt? text i = some d := by
    unfold charAt?
    rw [if_pos h.lt_size, hpos, Option.bind_some]
    unfold String.Pos.get? String.Slice.Pos.get?
    split
    · rename_i hend
      exact absurd (congrArg (fun p => p.offset.byteIdx) hend) (Nat.ne_of_lt h.lt_size)
    · exact ⟨_, rfl⟩
  rw [hd, (charAt?_sound hd).unique h]

theorem charBefore?_add (hc : CharAt text i c) : charBefore? text (i + c.utf8Size) = some c := by
  have hpos := c.utf8Size_pos
  unfold charBefore?
  rw [if_pos, hc.floor_pred]
  · exact charAt?_eq_some_iff.2 hc
  · rw [Bool.and_eq_true, decide_eq_true_eq]
    exact ⟨hc.boundary_next, by omega⟩

/-- The character before an offset is the one that ends there. -/
theorem charBefore?_eq_some_iff :
    charBefore? text j = some c ↔ ∃ i, CharAt text i c ∧ i + c.utf8Size = j := by
  constructor
  · intro h
    have hj : Boundary text j ∧ 0 < j := by
      unfold charBefore? at h
      split at h
      · rename_i hj
        rwa [Bool.and_eq_true, decide_eq_true_eq] at hj
      · cases h
    obtain ⟨i, d, hd, rfl⟩ := exists_charBefore hj.1 hj.2
    rw [charBefore?_add hd] at h
    cases h
    exact ⟨i, hd, rfl⟩
  · rintro ⟨i, hc, rfl⟩
    exact charBefore?_add hc

theorem nameAt_iff :
    nameAt isName text i = true ↔ ∃ c, CharAt text i c ∧ isName c = true := by
  unfold nameAt
  simp only [← charAt?_eq_some_iff]
  cases charAt? text i <;> simp

theorem nameBefore_iff :
    nameBefore isName text j = true ↔
      ∃ i c, CharAt text i c ∧ i + c.utf8Size = j ∧ isName c = true := by
  have hbefore : nameBefore isName text j = true ↔
      ∃ c, charBefore? text j = some c ∧ isName c = true := by
    unfold nameBefore
    cases charBefore? text j <;> simp
  rw [hbefore]
  constructor
  · rintro ⟨c, hc, hname⟩
    obtain ⟨i, hi, hj⟩ := charBefore?_eq_some_iff.1 hc
    exact ⟨i, c, hi, hj, hname⟩
  · rintro ⟨i, c, hi, hj, hname⟩
    exact ⟨c, charBefore?_eq_some_iff.2 ⟨i, hi, hj⟩, hname⟩

/-! ## Runs -/

/-- The character at the offset is part of an identifier: a name character, or a hyphen between
two of them. -/
def Belongs (isName : Char → Bool) (text : String) (i : Nat) (c : Char) : Prop :=
  CharAt text i c ∧
    (isName c = true ∨
      c = '-' ∧ nameBefore isName text i = true ∧ nameAt isName text (i + 1) = true)

/-- Between two offsets every character is part of an identifier. -/
def Run (isName : Char → Bool) (text : String) : Nat → Nat → Prop :=
  Relation.ReflTransGen fun i j => ∃ c, Belongs isName text i c ∧ i + c.utf8Size = j

theorem Run.refl (isName : Char → Bool) (text : String) (i : Nat) : Run isName text i i :=
  Relation.ReflTransGen.refl

theorem Run.head (hc : Belongs isName text i c) (h : Run isName text (i + c.utf8Size) j) :
    Run isName text i j := Relation.ReflTransGen.head ⟨c, hc, rfl⟩ h

theorem Run.tail (h : Run isName text i j) (hc : Belongs isName text j c) :
    Run isName text i (j + c.utf8Size) := Relation.ReflTransGen.tail h ⟨c, hc, rfl⟩

theorem Run.trans (h : Run isName text i j) (h' : Run isName text j k) : Run isName text i k :=
  Relation.ReflTransGen.trans h h'

theorem Run.le (h : Run isName text i j) : i ≤ j := by
  induction h with
  | refl => exact Nat.le_refl _
  | tail _ hstep ih =>
    obtain ⟨c, -, rfl⟩ := hstep
    omega

theorem Run.boundary_right (h : Run isName text i j) (hi : Boundary text i) : Boundary text j := by
  cases h with
  | refl => exact hi
  | tail _ hstep =>
    obtain ⟨c, hc, rfl⟩ := hstep
    exact hc.1.boundary_next

theorem Run.exists_belongs (h : Run isName text i j) (hlt : i < j) :
    ∃ c, Belongs isName text i c := by
  rcases Relation.ReflTransGen.cases_head h with rfl | ⟨_, ⟨c, hc, -⟩, -⟩
  · exact absurd hlt (Nat.lt_irrefl _)
  · exact ⟨c, hc⟩

theorem Run.boundary_left (h : Run isName text i j) (hj : Boundary text j) : Boundary text i := by
  rcases Nat.eq_or_lt_of_le h.le with rfl | hlt
  · exact hj
  · obtain ⟨c, hc⟩ := h.exists_belongs hlt
    exact hc.1.boundary

/-- A run can be cut at any boundary. -/
theorem Run.split (h : Run isName text i k) (hj : Boundary text j) (hij : i ≤ j) (hjk : j ≤ k) :
    Run isName text i j ∧ Run isName text j k := by
  induction h with
  | refl =>
    obtain rfl := Nat.le_antisymm hij hjk
    exact ⟨.refl _ _ _, .refl _ _ _⟩
  | @tail m _ hrun hstep ih =>
    obtain ⟨c, hc, rfl⟩ := hstep
    rcases Nat.eq_or_lt_of_le hjk with rfl | hlt
    · exact ⟨Run.tail hrun hc, .refl _ _ _⟩
    · obtain ⟨hleft, hright⟩ := ih (hc.1.le_of_lt_next hj hlt)
      exact ⟨hleft, hright.tail hc⟩

/-! ## Scans -/

theorem Belongs.scanForward_eq (h : Belongs isName text i c) :
    scanForward isName text i = scanForward isName text (i + c.utf8Size) := by
  obtain ⟨hc, hpart⟩ := h
  conv => lhs; rw [scanForward.eq_def]
  split
  · rename_i hnone
    rw [charAt?_eq_some_iff.2 hc] at hnone
    cases hnone
  · rename_i d hd
    obtain rfl : c = d := hc.unique (charAt?_eq_some_iff.1 hd)
    rw [if_pos]
    simpa [and_assoc] using hpart

theorem Belongs.scanBack_eq (h : Belongs isName text i c) :
    scanBack isName text (i + c.utf8Size) = scanBack isName text i := by
  obtain ⟨hc, hpart⟩ := h
  conv => lhs; rw [scanBack.eq_def]
  split
  · rename_i hnone
    rw [charBefore?_add hc] at hnone
    cases hnone
  · rename_i d hd
    obtain rfl : c = d := Option.some.inj ((charBefore?_add hc).symm.trans hd)
    rw [if_pos, Nat.add_sub_cancel]
    rcases hpart with hname | ⟨rfl, hbefore, hafter⟩
    · simp [hname]
    · simp [utf8Size_hyphen, hbefore, hafter]

/-- A scan forward goes over a run. -/
theorem scanForward_run (isName : Char → Bool) (text : String) (i : Nat) :
    Run isName text i (scanForward isName text i) := by
  fun_induction scanForward isName text i with
  | case1 i => exact .refl isName text i
  | case2 i c hc joins hpart ih =>
    refine .head ⟨charAt?_eq_some_iff.1 hc, ?_⟩ ih
    simpa [joins, and_assoc] using hpart
  | case3 i => exact .refl isName text i

/-- So does a scan back. -/
theorem scanBack_run (isName : Char → Bool) (text : String) (j : Nat) :
    Run isName text (scanBack isName text j) j := by
  fun_induction scanBack isName text j with
  | case1 j => exact .refl isName text j
  | case2 j c hc joins hpart ih =>
    obtain ⟨i, hi, rfl⟩ := charBefore?_eq_some_iff.1 hc
    rw [Nat.add_sub_cancel] at ih ⊢
    refine ih.tail ⟨hi, ?_⟩
    rcases Bool.or_eq_true_iff.1 hpart with hname | hjoins
    · exact .inl hname
    · simp only [joins, Bool.and_eq_true, beq_iff_eq] at hjoins
      obtain ⟨⟨rfl, hbefore⟩, hafter⟩ := hjoins
      exact .inr ⟨rfl, hbefore, hafter⟩
  | case3 j => exact .refl isName text j

theorem Run.scanForward_eq (h : Run isName text i j) :
    scanForward isName text i = scanForward isName text j := by
  induction h with
  | refl => rfl
  | tail _ hstep ih =>
    obtain ⟨c, hc, rfl⟩ := hstep
    exact ih.trans hc.scanForward_eq

theorem Run.scanBack_eq (h : Run isName text i j) :
    scanBack isName text j = scanBack isName text i := by
  induction h with
  | refl => rfl
  | tail _ hstep ih =>
    obtain ⟨c, hc, rfl⟩ := hstep
    exact hc.scanBack_eq.trans ih

theorem scanBack_le (isName : Char → Bool) (text : String) (j : Nat) :
    scanBack isName text j ≤ j := (scanBack_run isName text j).le

theorem le_scanForward (isName : Char → Bool) (text : String) (i : Nat) :
    i ≤ scanForward isName text i := (scanForward_run isName text i).le

theorem Belongs.lt_scanForward (h : Belongs isName text i c) : i < scanForward isName text i := by
  have hle := le_scanForward isName text (i + c.utf8Size)
  have hpos := c.utf8Size_pos
  rw [h.scanForward_eq]
  omega

/-- A scan forward does not stop at a name character. -/
theorem lt_scanForward (h : nameAt isName text i = true) : i < scanForward isName text i := by
  obtain ⟨c, hc, hname⟩ := nameAt_iff.1 h
  exact Belongs.lt_scanForward ⟨hc, .inl hname⟩

/-- A scan back does not stop behind one. -/
theorem scanBack_lt (h : nameBefore isName text j = true) : scanBack isName text j < j := by
  obtain ⟨i, c, hc, rfl, hname⟩ := nameBefore_iff.1 h
  have hbelongs : Belongs isName text i c := ⟨hc, .inl hname⟩
  have hle := scanBack_le isName text i
  have hpos := c.utf8Size_pos
  rw [hbelongs.scanBack_eq]
  omega

/-! ## Longest runs -/

/-- Every character is a name character, or a hyphen between two of them. -/
def Joined (isName : Char → Bool) (word : List Char) : Prop :=
  ∀ before c after, word = before ++ c :: after →
    isName c = true ∨
      c = '-' ∧ (∃ d ∈ before.getLast?, isName d = true) ∧ ∃ d ∈ after.head?, isName d = true

/-- A span of the text is a longest run: it is joined, and every joined span that has a character in
common with it lies in it. -/
structure MaximalRun (isName : Char → Bool) (text : String) (span : Span) : Prop where
  cut : Cut text span
  nonempty : span.start < span.stop
  joined : Joined isName (slice text span.start span.stop).toList
  maximal : ∀ other, Cut text other → Joined isName (slice text other.start other.stop).toList →
    other.start < span.stop → span.start < other.stop → other.Within span

theorem lt_of_mem_slice (h : ∃ d, d ∈ (slice text i j).toList) (hij : i ≤ j) : i < j := by
  refine Nat.lt_of_le_of_ne hij ?_
  rintro rfl
  obtain ⟨d, hd⟩ := h
  rw [slice_self] at hd
  cases hd

theorem nameAt_of_head? (hi : Boundary text i) (hj : Boundary text j) (hij : i ≤ j)
    (h : ∃ d ∈ (slice text i j).toList.head?, isName d = true) : nameAt isName text i = true := by
  obtain ⟨d, hd, hname⟩ := h
  have hlt : i < j := lt_of_mem_slice ⟨d, List.mem_of_mem_head? hd⟩ hij
  obtain ⟨c, hc⟩ := exists_charAt_of_lt hi (Nat.lt_of_lt_of_le hlt hj.le_size)
  obtain rfl : c = d := Option.some.inj ((head?_slice hc hj hlt).symm.trans hd)
  exact nameAt_iff.2 ⟨c, hc, hname⟩

theorem nameBefore_of_getLast? (hi : Boundary text i) (hj : Boundary text j) (hij : i ≤ j)
    (h : ∃ d ∈ (slice text i j).toList.getLast?, isName d = true) :
    nameBefore isName text j = true := by
  obtain ⟨d, hd, hname⟩ := h
  have hlt : i < j := lt_of_mem_slice ⟨d, List.mem_of_mem_getLast? hd⟩ hij
  obtain ⟨k, c, hc, rfl⟩ := exists_charBefore hj (Nat.lt_of_le_of_lt (Nat.zero_le i) hlt)
  have hik : i ≤ k := hc.le_of_lt_next hi hlt
  obtain rfl : c = d := Option.some.inj ((getLast?_slice hi hc hik).symm.trans hd)
  exact nameBefore_iff.2 ⟨k, c, hc, rfl, hname⟩

/-- A span of which all is joined is a run. -/
theorem run_of_joined (hi : Boundary text i) (hj : Boundary text j) (hij : i ≤ j)
    (h : Joined isName (slice text i j).toList) : Run isName text i j := by
  -- By induction on what is left from `k` on.
  have hall : ∀ n k, j - k = n → i ≤ k → k ≤ j → Boundary text k → Run isName text k j := by
    intro n
    induction n using Nat.strongRecOn with
    | ind n ih =>
      intro k hn hik hkj hk
      rcases Nat.eq_or_lt_of_le hkj with rfl | hlt
      · exact .refl isName text k
      obtain ⟨c, hc⟩ := exists_charAt_of_lt hk (Nat.lt_of_lt_of_le hlt hj.le_size)
      have hnext := hc.next_le hj hlt
      have hpos := c.utf8Size_pos
      have hword : (slice text i j).toList =
          (slice text i k).toList ++ c :: (slice text (k + c.utf8Size) j).toList := by
        rw [← slice_append hik hkj hi hk hj, slice_eq_cons hc hj hlt, String.toList_append,
          String.toList_append, String.toList_singleton, List.singleton_append]
      have hbelongs : Belongs isName text k c := by
        refine ⟨hc, (h _ _ _ hword).imp_right ?_⟩
        rintro ⟨rfl, hbefore, hafter⟩
        exact ⟨rfl, nameBefore_of_getLast? hi hk hik hbefore,
          nameAt_of_head? hc.boundary_next hj hnext hafter⟩
      exact .head hbelongs (ih _ (by omega) _ rfl (by omega) hnext hc.boundary_next)
  exact hall _ i rfl (Nat.le_refl i) hij hi

/-- A run that ends where both scans stop is joined: what stands beside a hyphen is in it too. -/
theorem joined_of_run (h : Run isName text i j) (hi : Boundary text i) (hj : Boundary text j)
    (hback : scanBack isName text i = i) (hforward : scanForward isName text j = j) :
    Joined isName (slice text i j).toList := by
  intro before c after hword
  have hpiece : slice text i j = .ofList before ++ (.singleton c ++ .ofList after) := by
    rw [← String.toList_inj, hword, String.toList_append, String.toList_append,
      String.toList_singleton, String.toList_ofList, String.toList_ofList, List.singleton_append]
  obtain ⟨hkj, hk, hbefore, hrest⟩ := slice_eq_append h.le hi hj hpiece
  have hik : i ≤ i + size (.ofList before) := Nat.le_add_right _ _
  generalize i + size (.ofList before) = k at *
  obtain ⟨hc, hnext, hafter⟩ := charAt_of_slice hkj hk hj hrest
  have hpos := c.utf8Size_pos
  obtain ⟨d, hd, hpart⟩ := (h.split hk hik hkj).2.exists_belongs (by omega)
  obtain rfl : d = c := hd.unique hc
  refine hpart.imp_right fun ⟨hhyphen, hnameBefore, hnameAt⟩ => ⟨hhyphen, ?_, ?_⟩
  · have hlt : i < k := by
      refine Nat.lt_of_le_of_ne hik ?_
      rintro rfl
      have := scanBack_lt hnameBefore
      omega
    obtain ⟨m, e, he, rfl, hname⟩ := nameBefore_iff.1 hnameBefore
    have hlast := getLast?_slice hi he (he.le_of_lt_next hi hlt)
    rw [hbefore, String.toList_ofList] at hlast
    exact ⟨e, hlast, hname⟩
  · subst hhyphen
    rw [utf8Size_hyphen] at hnext hafter
    have hlt : k + 1 < j := by
      refine Nat.lt_of_le_of_ne hnext ?_
      rintro rfl
      have := lt_scanForward hnameAt
      omega
    obtain ⟨e, he, hname⟩ := nameAt_iff.1 hnameAt
    have hhead := head?_slice he hj hlt
    rw [hafter, String.toList_ofList] at hhead
    exact ⟨e, hhead, hname⟩

/-- The scans from a character of an identifier end where the longest run around it does. -/
theorem Belongs.maximalRun (h : Belongs isName text k c) :
    MaximalRun isName text (.upTo (scanBack isName text k) (scanForward isName text k)) := by
  have hback := scanBack_run isName text k
  have hforward := scanForward_run isName text k
  have hlt := h.lt_scanForward
  generalize hi : scanBack isName text k = i at *
  generalize hj : scanForward isName text k = j at *
  have hik := hback.le
  have hrun : Run isName text i j := hback.trans hforward
  have hbi : Boundary text i := hback.boundary_left h.1.boundary
  have hbj : Boundary text j := hforward.boundary_right h.1.boundary
  have hi' : scanBack isName text i = i := by rw [← hback.scanBack_eq, hi]
  have hj' : scanForward isName text j = j := by rw [← hforward.scanForward_eq, hj]
  have hstart : (Span.upTo i j).start = i := rfl
  have hstop : (Span.upTo i j).stop = j := Span.stop_upTo hrun.le
  refine ⟨cut_upTo hbi hbj, by omega, ?_, fun other hcut hother hleft hright => ?_⟩
  · rw [hstart, hstop]
    exact joined_of_run hrun hbi hbj hi' hj'
  · -- A run that went on past an end would take the scan from that end with it.
    have hover := run_of_joined hcut.1 hcut.2 other.start_le_stop hother
    have hleast := scanBack_le isName text other.start
    have hmost := le_scanForward isName text other.stop
    constructor
    · rcases Nat.lt_or_ge other.start i with hlow | hge
      · have := (hover.split hbi (by omega) (by omega)).1.scanBack_eq
        omega
      · omega
    · rcases Nat.lt_or_ge j other.stop with hhigh | hle
      · have := (hover.split hbj (by omega) (by omega)).2.scanForward_eq
        omega
      · omega

/-- Two longest runs with a common offset are the same. -/
theorem MaximalRun.unique {other : Span} (h : MaximalRun isName text span)
    (h' : MaximalRun isName text other) (hspan : span.start ≤ k ∧ k < span.stop)
    (hother : other.start ≤ k ∧ k < other.stop) : span = other := by
  have hle := h.maximal other h'.cut h'.joined (by omega) (by omega)
  have hle' := h'.maximal span h.cut h.joined (by omega) (by omega)
  obtain ⟨start, length⟩ := span
  obtain ⟨start', length'⟩ := other
  simp only [Span.Within, Span.stop] at hle hle'
  rw [Span.mk.injEq]
  omega

/-! ## The identifier under a cursor -/

/-- What is read from a run, unless it starts with a digit. -/
def read? (isName : Char → Bool) (text : String) (span : Span) : Option IdentifierAt :=
  let name := slice text span.start span.stop
  if (name.toList.head?.map Char.isDigit).getD false then none
  else some ⟨name, span, baseBefore? isName text span.start⟩

theorem eq_of_read? (h : read? isName text span = some ident) :
    ident = ⟨slice text span.start span.stop, span, baseBefore? isName text span.start⟩ := by
  unfold read? at h
  simp only at h
  split at h
  · cases h
  · exact (Option.some.inj h).symm

theorem at?_of_anchor (h : anchor? isName text (floor text (min offset (size text))) = some k)
    (hk : Boundary text k) :
    at? isName text offset =
      read? isName text (.upTo (scanBack isName text k) (scanForward isName text k)) := by
  have hback := scanBack_run isName text k
  have hforward := scanForward_run isName text k
  have hle := (hback.trans hforward).le
  have hslice := slice?_eq_some hle (hback.boundary_left hk) (hforward.boundary_right hk)
  unfold at? read?
  simp only [h, hslice, Span.stop_upTo hle, Option.bind_eq_bind, Option.bind_some]
  rfl

/-- An identifier is looked for from one of its own characters on. -/
theorem anchor?_belongs (h : anchor? isName text j = some k) : ∃ c, Belongs isName text k c := by
  have hnamed : ∀ {m}, nameAt isName text m = true → ∃ c, Belongs isName text m c := by
    intro m hm
    obtain ⟨c, hc, hname⟩ := nameAt_iff.1 hm
    exact ⟨c, hc, .inl hname⟩
  unfold anchor? at h
  split at h
  · rename_i hname
    cases h
    exact hnamed hname
  · simp only at h
    split at h
    · rename_i hsigils
      cases h
      exact hnamed (Bool.and_eq_true_iff.1 hsigils).2
    · split at h
      · rename_i hname
        cases h
        exact (scanBack_run isName text j).exists_belongs (scanBack_lt hname)
      · cases h

/-- From a character of an identifier, the scans start there or where the scan back from it ends:
on a hyphen there is no sigil, and a name character before it. -/
theorem anchor?_of_belongs (h : Belongs isName text k c) :
    anchor? isName text k = some k ∨ anchor? isName text k = some (scanBack isName text k) := by
  obtain ⟨hc, hname | ⟨rfl, hbefore, -⟩⟩ := h
  · left
    unfold anchor?
    rw [if_pos (nameAt_iff.2 ⟨c, hc, hname⟩)]
  · have hsigils : runEnd text isSigil k = k := by
      rw [runEnd.eq_def, charAt_hyphen.1 hc]
      rfl
    unfold anchor?
    simp only [hsigils, hbefore]
    split <;> simp

/-- Every offset in a longest run gives what is read from it. -/
theorem MaximalRun.at?_eq (h : MaximalRun isName text span) (hstart : span.start ≤ offset)
    (hstop : offset < span.stop) : at? isName text offset = read? isName text span := by
  have hmin : min offset (size text) = offset := by
    have := h.cut.stop_le
    omega
  have hle := floor_le text offset
  have hfloor : span.start ≤ floor text offset := le_floor h.cut.1 hstart
  have hboundary := floor_boundary text offset
  generalize hk : floor text offset = k at *
  have hrun := run_of_joined h.cut.1 h.cut.2 span.start_le_stop h.joined
  obtain ⟨c, hc⟩ := (hrun.split hboundary hfloor (by omega)).2.exists_belongs (by omega)
  have hback := scanBack_run isName text k
  have hspan : .upTo (scanBack isName text k) (scanForward isName text k) = span := by
    refine hc.maximalRun.unique h ⟨hback.le, ?_⟩ ⟨hfloor, by omega⟩
    rw [Span.stop_upTo (hback.trans (scanForward_run isName text k)).le]
    exact hc.lt_scanForward
  rcases anchor?_of_belongs hc with hanchor | hanchor
  · rw [at?_of_anchor (by rw [hmin, hk, hanchor]) hboundary, hspan]
  · rw [at?_of_anchor (by rw [hmin, hk, hanchor]) (hback.boundary_left hboundary),
      ← hback.scanBack_eq, hback.scanForward_eq, hspan]

/-- What is found under a cursor is read from a longest run. -/
theorem exists_maximalRun (h : at? isName text offset = some ident) :
    MaximalRun isName text ident.span ∧ read? isName text ident.span = some ident := by
  cases hanchor : anchor? isName text (floor text (min offset (size text))) with
  | none =>
    unfold at? at h
    rw [hanchor] at h
    cases h
  | some k =>
    obtain ⟨c, hc⟩ := anchor?_belongs hanchor
    rw [at?_of_anchor hanchor hc.1.boundary] at h
    have hspan : ident.span = .upTo (scanBack isName text k) (scanForward isName text k) :=
      congrArg IdentifierAt.span (eq_of_read? h)
    rw [hspan]
    exact ⟨hc.maximalRun, h⟩

theorem slice?_name (h : at? isName text offset = some ident) :
    slice? text ident.span.start ident.span.stop = some ident.name := by
  obtain ⟨hrun, hread⟩ := exists_maximalRun h
  rw [hrun.cut.slice?]
  exact congrArg some (congrArg IdentifierAt.name (eq_of_read? hread)).symm

/-- The identifier under a cursor is what stands in the text under its span, and its span is a
longest run.  From every offset in the span the same identifier is found. -/
theorem at?_maximalRun (h : at? isName text offset = some ident) :
    slice? text ident.span.start ident.span.stop = some ident.name ∧
      MaximalRun isName text ident.span ∧
      ∀ i, ident.span.start ≤ i → i < ident.span.stop → at? isName text i = some ident := by
  obtain ⟨hrun, hread⟩ := exists_maximalRun h
  exact ⟨slice?_name h, hrun, fun i hstart hstop => (hrun.at?_eq hstart hstop).trans hread⟩

/-- The cursor is on the hyphen of `c-d`, behind the point. -/
theorem at?_maximalRun_hyphen :
    let ident : IdentifierAt := ⟨"c-d", ⟨5, 3⟩, some "é-b"⟩
    at? isNameChar "é-b.c-d" 6 = some ident ∧ slice? "é-b.c-d" 5 8 = some "c-d" ∧
      MaximalRun isNameChar "é-b.c-d" ⟨5, 3⟩ ∧
      ∀ i, 5 ≤ i → i < 8 → at? isNameChar "é-b.c-d" i = some ident := by
  intro ident
  have hfound : at? isNameChar "é-b.c-d" 6 = some ident := by decide +kernel
  exact ⟨hfound, at?_maximalRun hfound⟩

end Identifier

end ShellAnalysis
