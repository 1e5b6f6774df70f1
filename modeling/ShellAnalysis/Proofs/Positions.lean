import ShellAnalysis.Proofs.Boundary
import ShellAnalysis.Text.LineIndex
import Mathlib.Data.Nat.Count

/-!
# Offsets and positions

The line of an offset is counted here without an index: it is the number of line
feeds in front of the offset, and the column is the distance from the start of
that line (`OnLine`).  The index of a text answers the same for every offset of the
text, gives each of these offsets back, and keeps their order
(`ofText_positions`).

In the other direction, a position has an offset if and only if there is such a
line and the column does not lead out of the text (`offset?_eq_some_iff`).  Whether
it leads out of its line is not looked at:

* The offset has that same position if and only if no line feed stands between the
  start of the line and the offset (`position_eq_iff`); otherwise it is on a later
  line (`line_lt_of_feed`).
* A column so large that the sum of it and the start of the line is no number of 32
  bits is no position without an offset, but a failure (`target_eq_overflow_iff`).
-/

namespace ShellAnalysis

namespace Text

/-! ## Lines of a text -/

/-- A line feed stands at the offset. -/
def Feed (text : String) (i : Nat) : Prop := byte? text i = some 0x0a

instance (text : String) : DecidablePred (Feed text) :=
  fun _ => inferInstanceAs (Decidable (_ = _))

/-- The number of the line that an offset is on. -/
def lineNumber (text : String) (i : Nat) : Nat := Nat.count (Feed text) i

/-- A line starts at the offset. -/
def LineStart (text : String) (i : Nat) : Prop := i = 0 ∨ ∃ j, Feed text j ∧ i = j + 1

/-- The offset `i` is on the line that starts at `start`. -/
structure OnLine (text : String) (start i : Nat) : Prop where
  starts : LineStart text start
  le : start ≤ i
  inner : ∀ j, start ≤ j → j < i → ¬Feed text j

section

variable {text : String} {start i j : Nat}

theorem Feed.lt_size (h : Feed text i) : i < size text := lt_size_of_byte? h

theorem lineNumber_mono (text : String) (h : i ≤ j) : lineNumber text i ≤ lineNumber text j :=
  Nat.count_monotone _ h

theorem Feed.lineNumber_lt (h : Feed text i) (hij : i < j) :
    lineNumber text i < lineNumber text j :=
  Nat.count_strict_mono h hij

theorem lineNumber_eq_of_not_feed (hij : i ≤ j) (h : ∀ k, i ≤ k → k < j → ¬Feed text k) :
    lineNumber text j = lineNumber text i := by
  have hnone : Nat.count (fun k => Feed text (i + k)) (j - i) = 0 := by
    rw [Nat.count_iff_forall_not]
    intro k hk
    exact h (i + k) (Nat.le_add_right i k) (by omega)
  unfold lineNumber
  conv => lhs; rw [← Nat.add_sub_cancel' hij]
  rw [Nat.count_add, hnone, Nat.add_zero]

theorem LineStart.le_size (h : LineStart text i) : i ≤ size text := by
  rcases h with rfl | ⟨j, hj, rfl⟩
  · exact Nat.zero_le _
  · exact hj.lt_size

/-- Of two line starts the later one has the greater number. -/
theorem LineStart.lineNumber_lt (hj : LineStart text j) (hij : i < j) :
    lineNumber text i < lineNumber text j := by
  rcases hj with rfl | ⟨k, hk, rfl⟩
  · exact absurd hij (Nat.not_lt_zero i)
  · exact Nat.lt_of_le_of_lt (lineNumber_mono text (Nat.le_of_lt_succ hij))
      (hk.lineNumber_lt (Nat.lt_succ_self k))

/-- A number is that of one line. -/
theorem LineStart.unique (hi : LineStart text i) (hj : LineStart text j)
    (h : lineNumber text i = lineNumber text j) : i = j := by
  rcases Nat.lt_trichotomy i j with hlt | heq | hlt
  · exact absurd h (Nat.ne_of_lt (hj.lineNumber_lt hlt))
  · exact heq
  · exact absurd h.symm (Nat.ne_of_lt (hi.lineNumber_lt hlt))

theorem OnLine.lineNumber_eq (h : OnLine text start i) :
    lineNumber text i = lineNumber text start :=
  lineNumber_eq_of_not_feed h.le h.inner

/-- Every offset is on a line. -/
theorem exists_onLine (text : String) (i : Nat) : ∃ start, OnLine text start i := by
  induction i with
  | zero => exact ⟨0, .inl rfl, Nat.le_refl 0, fun j _ hj => absurd hj (Nat.not_lt_zero j)⟩
  | succ i ih =>
    by_cases hfeed : Feed text i
    · exact ⟨i + 1, .inr ⟨i, hfeed, rfl⟩, Nat.le_refl _, fun j hij hj => by omega⟩
    · obtain ⟨start, hstart⟩ := ih
      refine ⟨start, hstart.starts, Nat.le_succ_of_le hstart.le, fun j hij hj => ?_⟩
      rcases Nat.lt_succ_iff_lt_or_eq.1 hj with hlt | rfl
      · exact hstart.inner j hij hlt
      · exact hfeed

/-- No line starts inside another. -/
theorem OnLine.start_le (h : OnLine text start i) (hj : LineStart text j) (hji : j ≤ i) :
    j ≤ start := by
  rcases hj with rfl | ⟨k, hk, rfl⟩
  · exact Nat.zero_le start
  · exact Nat.lt_of_not_le fun hle => h.inner k hle hji hk

end

end Text

open Text

/-- Earlier lines first, and on one line smaller columns first. -/
def Position.Before (p q : Position) : Prop :=
  p.line < q.line ∨ p.line = q.line ∧ p.column < q.column

namespace LineIndex

variable {text : String} {starts found : Array Nat} {p : Position} {start i j n lo hi : Nat}

/-! ## The line starts -/

/-- The starts of the lines up to an offset, each at the place of its number. -/
structure Collected (text : String) (i : Nat) (found : Array Nat) : Prop where
  size : found.size = lineNumber text i + 1
  get : ∀ n start, found[n]? = some start ↔
    LineStart text start ∧ start ≤ i ∧ lineNumber text start = n

theorem collected_zero (text : String) : Collected text 0 #[0] := by
  refine ⟨rfl, fun n start => ?_⟩
  have hzero : lineNumber text 0 = 0 := Nat.count_zero _
  constructor
  · intro hget
    obtain ⟨hn, rfl⟩ := Array.getElem?_eq_some_iff.1 hget
    obtain rfl : n = 0 := Nat.lt_one_iff.1 hn
    exact ⟨.inl rfl, Nat.le_refl 0, hzero⟩
  · rintro ⟨-, hle, rfl⟩
    rw [Nat.le_zero.1 hle, hzero]
    rfl

theorem Collected.push (h : Collected text i found) (hfeed : Feed text i) :
    Collected text (i + 1) (found.push (i + 1)) := by
  have hnumber : lineNumber text (i + 1) = found.size := by
    rw [h.size]
    exact Nat.count_succ_eq_succ_count_iff.2 hfeed
  refine ⟨by rw [Array.size_push, hnumber], fun n start => ?_⟩
  rw [Array.getElem?_push]
  split
  · rename_i hn
    constructor
    · rintro ⟨⟩
      exact ⟨.inr ⟨i, hfeed, rfl⟩, Nat.le_refl _, hnumber.trans hn.symm⟩
    · rintro ⟨-, hle, hstart⟩
      rcases Nat.lt_or_eq_of_le hle with hlt | rfl
      · have hle := lineNumber_mono text (Nat.le_of_lt_succ hlt)
        have hsize := h.size
        omega
      · rfl
  · rename_i hn
    rw [h.get]
    refine and_congr_right fun _ => ⟨fun ⟨hle, hstart⟩ => ⟨Nat.le_succ_of_le hle, hstart⟩, ?_⟩
    rintro ⟨hle, hstart⟩
    rcases Nat.lt_or_eq_of_le hle with hlt | rfl
    · exact ⟨Nat.le_of_lt_succ hlt, hstart⟩
    · exact absurd (hstart.symm.trans hnumber) hn

theorem Collected.skip (h : Collected text i found) (hfeed : ¬Feed text i) :
    Collected text (i + 1) found := by
  refine ⟨?_, fun n start => ?_⟩
  · rw [h.size]
    exact congrArg (· + 1) (Nat.count_succ_eq_count_iff.2 hfeed).symm
  · rw [h.get]
    refine and_congr_right fun hline => and_congr_left' ⟨Nat.le_succ_of_le, fun hle => ?_⟩
    rcases Nat.lt_or_eq_of_le hle with hlt | rfl
    · exact Nat.le_of_lt_succ hlt
    · obtain h0 | ⟨j, hj, heq⟩ := hline
      · cases h0
      · cases heq
        exact absurd hj hfeed

theorem Collected.collectStarts (h : Collected text i found) (hi : i ≤ Text.size text) :
    Collected text (Text.size text) (collectStarts text i found) := by
  fun_induction LineIndex.collectStarts text i found with
  | case1 i found b hb ih =>
    refine ih ?_ (lt_size_of_byte? hb)
    split
    · rename_i hfeed
      rw [beq_iff_eq.1 hfeed] at hb
      exact h.push hb
    · rename_i hfeed
      refine h.skip fun hi => hfeed ?_
      cases hb.symm.trans hi
      rfl
  | case2 i found hb =>
    rwa [← Nat.le_antisymm hi (byte?_eq_none.1 hb)]

theorem collected_ofText (text : String) :
    Collected text (Text.size text) (ofText text).starts :=
  (collected_zero text).collectStarts (Nat.zero_le _)

/-- The index has every line start at the place of its number, and nothing else. -/
theorem getElem?_starts : (ofText text).starts[n]? = some start ↔
    LineStart text start ∧ lineNumber text start = n := by
  rw [(collected_ofText text).get]
  exact ⟨fun ⟨hline, _, hn⟩ => ⟨hline, hn⟩, fun ⟨hline, hn⟩ => ⟨hline, hline.le_size, hn⟩⟩

/-! ## The search -/

/-- The entries of an array do not go down. -/
def Ascends (starts : Array Nat) : Prop :=
  ∀ {k l x y : Nat}, starts[k]? = some x → starts[l]? = some y → k ≤ l → x ≤ y

theorem ascends_starts (text : String) : Ascends (ofText text).starts := by
  intro k l x y hx hy hkl
  obtain ⟨hxline, rfl⟩ := getElem?_starts.1 hx
  obtain ⟨-, rfl⟩ := getElem?_starts.1 hy
  refine Nat.le_of_not_lt fun hlt => ?_
  have hnumber := hxline.lineNumber_lt hlt
  omega

/-- Where the entries do not go down, the search finds where they begin to be greater. -/
theorem countUpTo_spec (hstarts : Ascends starts) (hle : lo ≤ hi) (hhi : hi ≤ starts.size)
    (hbelow : ∀ k x : Nat, k < lo → starts[k]? = some x → x ≤ i)
    (habove : ∀ k x : Nat, hi ≤ k → starts[k]? = some x → i < x) :
    countUpTo starts i lo hi ≤ hi ∧
      ∀ k x : Nat, starts[k]? = some x → (k < countUpTo starts i lo hi ↔ x ≤ i) := by
  have hmiddle : ∀ k, k < starts.size → starts[k]? = some (starts.getD k 0) := by
    intro k hk
    rw [Array.getD_eq_getD_getElem?, Array.getElem?_eq_getElem hk]
    rfl
  fun_induction countUpTo starts i lo hi with
  | case1 lo hi hlt mid hmid ih =>
    refine ih (by omega) hhi (fun k x hk hx => ?_) habove
    have hget := hmiddle mid (by omega)
    exact Nat.le_trans (hstarts hx hget (Nat.le_of_lt_succ hk)) hmid
  | case2 lo hi hlt mid hmid ih =>
    have hget := hmiddle mid (by omega)
    obtain ⟨hbound, hcount⟩ := ih (by omega) (by omega) hbelow fun k x hk hx =>
      Nat.lt_of_lt_of_le (Nat.lt_of_not_le hmid) (hstarts hget hx hk)
    exact ⟨by omega, hcount⟩
  | case3 lo hi hge =>
    refine ⟨hle, fun k x hx => ⟨fun hk => hbelow k x hk hx, fun hxi => ?_⟩⟩
    refine Nat.lt_of_not_le fun hk => ?_
    exact absurd hxi (Nat.not_le.2 (habove k x (Nat.le_trans (Nat.le_of_not_lt hge) hk) hx))

/-- As many lines start up to an offset as there are line feeds in front of it, and one. -/
theorem countUpTo_starts (text : String) (i : Nat) :
    countUpTo (ofText text).starts i 0 (ofText text).starts.size = lineNumber text i + 1 := by
  obtain ⟨hbound, hcount⟩ := countUpTo_spec (ascends_starts text) (Nat.zero_le _)
    (Nat.le_refl _) (fun k x hk => absurd hk (Nat.not_lt_zero k))
    fun k x hk hx => absurd (Array.getElem?_eq_some_iff.1 hx).1 (Nat.not_lt.2 hk)
  obtain ⟨start, h⟩ := exists_onLine text i
  have hlt := (hcount _ _ (getElem?_starts.2 ⟨h.starts, h.lineNumber_eq.symm⟩)).2 h.le
  refine Nat.le_antisymm (Nat.le_of_not_lt fun hnext => ?_) hlt
  -- The next entry would be the start of a later line.
  have hget := Array.getElem?_eq_getElem (Nat.lt_of_lt_of_le hnext hbound)
  have hmono := lineNumber_mono text ((hcount _ _ hget).1 hnext)
  have hnumber := (getElem?_starts.1 hget).2
  omega

/-! ## Positions of offsets -/

theorem position_eq (h : OnLine text start i) (hi : i ≤ Text.size text) :
    (ofText text).position i = ⟨lineNumber text i, i - start⟩ := by
  have hstart : (ofText text).starts[lineNumber text i]? = some start :=
    getElem?_starts.2 ⟨h.starts, h.lineNumber_eq.symm⟩
  have hmin : min i (ofText text).size = i := Nat.min_eq_left hi
  rw [position]
  simp only [hmin, countUpTo_starts, Nat.add_sub_cancel]
  rw [Array.getD_eq_getD_getElem?, hstart]
  rfl

/-- Past the end all offsets have the position of the end. -/
theorem position_of_size_le (h : Text.size text ≤ i) :
    (ofText text).position i = (ofText text).position (Text.size text) := by
  have hmin : min i (ofText text).size = min (Text.size text) (ofText text).size :=
    (Nat.min_eq_right h).trans (Nat.min_self _).symm
  rw [position, hmin, position]

/-- The line of a position is that of its offset, past the end too. -/
theorem line_position (text : String) (i : Nat) :
    ((ofText text).position i).line = lineNumber text i := by
  rcases Nat.le_total i (Text.size text) with hle | hge
  · obtain ⟨start, h⟩ := exists_onLine text i
    rw [position_eq h hle]
  · obtain ⟨start, h⟩ := exists_onLine text (Text.size text)
    rw [position_of_size_le hge, position_eq h (Nat.le_refl _)]
    exact (lineNumber_eq_of_not_feed hge fun j hj _ hfeed =>
      absurd hfeed.lt_size (Nat.not_lt.2 hj)).symm

/-- The order of offsets is that of their positions. -/
theorem position_before (hij : i < j) (hj : j ≤ Text.size text) :
    ((ofText text).position i).Before ((ofText text).position j) := by
  obtain ⟨s, hs⟩ := exists_onLine text i
  obtain ⟨t, ht⟩ := exists_onLine text j
  rw [position_eq hs (by omega), position_eq ht hj]
  have hst : s ≤ t := ht.start_le hs.starts (Nat.le_trans hs.le (Nat.le_of_lt hij))
  have hmono := lineNumber_mono text (Nat.le_of_lt hij)
  rcases Nat.lt_or_eq_of_le hst with hlt | rfl
  · left
    have hnumber := ht.starts.lineNumber_lt hlt
    rw [← hs.lineNumber_eq, ← ht.lineNumber_eq] at hnumber
    exact hnumber
  · right
    have hle := hs.le
    exact ⟨hs.lineNumber_eq.trans ht.lineNumber_eq.symm, by simp only; omega⟩

/-! ## Offsets of positions -/

theorem target_eq (hline : LineStart text start) (hnumber : lineNumber text start = p.line) :
    (ofText text).target p =
      if offsetLimit ≤ start + p.column then .overflow
      else if start + p.column ≤ Text.size text then .offset (start + p.column)
      else .absent := by
  rw [target, getElem?_starts.2 ⟨hline, hnumber⟩]
  rfl

theorem target_of_no_line (h : ¬∃ start, LineStart text start ∧ lineNumber text start = p.line) :
    (ofText text).target p = .absent := by
  have hnone : (ofText text).starts[p.line]? = none :=
    Option.eq_none_iff_forall_ne_some.2 fun start hget => h ⟨start, getElem?_starts.1 hget⟩
  rw [target, hnone]

theorem offset?_eq_some_iff (hsize : Text.size text < offsetLimit) :
    (ofText text).offset? p = some i ↔ ∃ start, LineStart text start ∧
      lineNumber text start = p.line ∧ start + p.column = i ∧ i ≤ Text.size text := by
  by_cases hexists : ∃ start, LineStart text start ∧ lineNumber text start = p.line
  · obtain ⟨start, hline, hnumber⟩ := hexists
    have hoffset : (ofText text).offset? p =
        if start + p.column ≤ Text.size text then some (start + p.column) else none := by
      rw [offset?, target_eq hline hnumber]
      by_cases hle : start + p.column ≤ Text.size text
      · rw [if_neg (by omega), if_pos hle, if_pos hle]
      · rw [if_neg hle, if_neg hle]
        by_cases hlimit : offsetLimit ≤ start + p.column
        · rw [if_pos hlimit]
        · rw [if_neg hlimit]
    rw [hoffset, Option.ite_none_right_eq_some, Option.some_inj]
    constructor
    · rintro ⟨hle, rfl⟩
      exact ⟨start, hline, hnumber, rfl, hle⟩
    · rintro ⟨other, hother, heq, rfl, hle⟩
      obtain rfl := hother.unique hline (heq.trans hnumber.symm)
      exact ⟨hle, rfl⟩
  · rw [offset?, target_of_no_line hexists]
    refine iff_of_false nofun ?_
    rintro ⟨start, hline, hnumber, -⟩
    exact hexists ⟨start, hline, hnumber⟩

/-- The offset of the position of an offset is that offset. -/
theorem offset?_position (hsize : Text.size text < offsetLimit) (hi : i ≤ Text.size text) :
    (ofText text).offset? ((ofText text).position i) = some i := by
  obtain ⟨start, hstart⟩ := exists_onLine text i
  rw [position_eq hstart hi, offset?_eq_some_iff hsize]
  exact ⟨start, hstart.starts, hstart.lineNumber_eq.symm, Nat.add_sub_cancel' hstart.le, hi⟩

/-- The position of the offset of a position is that position if and only if no line feed is passed
on the way from the start of the line. -/
theorem position_eq_iff (hsize : Text.size text < offsetLimit)
    (h : (ofText text).offset? p = some i) :
    (ofText text).position i = p ↔ ∀ j, i - p.column ≤ j → j < i → ¬Feed text j := by
  obtain ⟨start, hline, hnumber, hsum, hi⟩ := (offset?_eq_some_iff hsize).1 h
  obtain rfl : start = i - p.column := by omega
  constructor
  · intro hp
    obtain ⟨other, hother⟩ := exists_onLine text i
    have hle := hother.le
    rw [position_eq hother hi] at hp
    have hcolumn : i - other = p.column := congrArg Position.column hp
    intro j hj
    exact hother.inner j (by omega)
  · intro hinner
    have honline : OnLine text (i - p.column) i := ⟨hline, by omega, hinner⟩
    rw [position_eq honline hi, honline.lineNumber_eq, hnumber]
    exact congrArg (Position.mk p.line) (by omega)

/-- A column that leads past a line feed leads to a later line. -/
theorem line_lt_of_feed (hsize : Text.size text < offsetLimit)
    (h : (ofText text).offset? p = some i) (hfeed : Feed text j) (hj : i - p.column ≤ j)
    (hji : j < i) : p.line < ((ofText text).position i).line := by
  obtain ⟨start, -, hnumber, hsum, hi⟩ := (offset?_eq_some_iff hsize).1 h
  obtain ⟨other, hother⟩ := exists_onLine text i
  rw [position_eq hother hi, ← hnumber]
  exact Nat.lt_of_le_of_lt (lineNumber_mono text (by omega)) (hfeed.lineNumber_lt hji)

/-- The column 2 of the first line is the start of the second line. -/
theorem offset?_past_line :
    (ofText "a\nb").offset? ⟨0, 2⟩ = some 2 ∧ (ofText "a\nb").position 2 = ⟨1, 0⟩ := by
  decide +kernel

theorem target_eq_overflow_iff : (ofText text).target p = .overflow ↔
    ∃ start, LineStart text start ∧ lineNumber text start = p.line ∧
      offsetLimit ≤ start + p.column := by
  constructor
  · intro h
    by_cases hexists : ∃ start, LineStart text start ∧ lineNumber text start = p.line
    · obtain ⟨start, hline, hnumber⟩ := hexists
      refine ⟨start, hline, hnumber, Nat.le_of_not_lt fun hlt => ?_⟩
      rw [target_eq hline hnumber, if_neg (Nat.not_le.2 hlt)] at h
      split at h <;> cases h
    · rw [target_of_no_line hexists] at h
      cases h
  · rintro ⟨start, hline, hnumber, hlimit⟩
    rw [target_eq hline hnumber, if_pos hlimit]

/-! ## Both directions -/

/-- An offset of the text has the number of line feeds in front of it for its line and the distance
from the start of that line for its column; it is the offset of this position; later offsets have
later positions; and offsets past the end have the position of the end. -/
theorem ofText_positions (hsize : Text.size text < offsetLimit) :
    (∀ i, i ≤ Text.size text →
      (∃ start, OnLine text start i ∧
        (ofText text).position i = ⟨lineNumber text i, i - start⟩) ∧
      (ofText text).offset? ((ofText text).position i) = some i) ∧
    (∀ i j, i < j → j ≤ Text.size text →
      ((ofText text).position i).Before ((ofText text).position j)) ∧
    ∀ i, Text.size text ≤ i →
      (ofText text).position i = (ofText text).position (Text.size text) := by
  refine ⟨fun i hi => ⟨?_, offset?_position hsize hi⟩, fun i j => position_before,
    fun i => position_of_size_le⟩
  obtain ⟨start, hstart⟩ := exists_onLine text i
  exact ⟨start, hstart, position_eq hstart hi⟩

/-- The offset 1 is inside the `é`, and the line feed is at 2. -/
theorem ofText_positions_two_lines :
    let text := "é\nb"
    let index := ofText text
    Text.size text < offsetLimit ∧
      (∃ start, OnLine text start 1 ∧ index.position 1 = ⟨lineNumber text 1, 1 - start⟩) ∧
      index.offset? (index.position 1) = some 1 ∧
      (index.position 2).Before (index.position 3) ∧
      index.position 9 = index.position (Text.size text) := by
  intro text index
  have hsize : Text.size text < offsetLimit := by decide
  obtain ⟨hall, hbefore, hpast⟩ := ofText_positions hsize
  obtain ⟨hposition, hoffset⟩ := hall 1 (by decide)
  exact ⟨hsize, hposition, hoffset, hbefore 2 3 (by decide) (by decide), hpast 9 (by decide)⟩

end LineIndex

end ShellAnalysis
