import ShellAnalysis.Navigate.Folding
import ShellAnalysis.Proofs.Characters
import ShellAnalysis.Proofs.Positions

/-!
# The lines of a text

`IsLine text n line` says that `line` is what stands on line `n`: from the start of
that line up to the line feed, or carriage return and line feed, that ends it, or up
to the end of the text.  Lines have the numbers that positions have.  Cutting a text
into lines gives exactly these, each at the place of its number:

    (linesOf text)[n]? = some line ↔ IsLine text n line            (getElem?_linesOf)
-/

namespace ShellAnalysis

namespace Text

/-! ## Lines and what ends them -/

/-- What can stand behind a line. -/
inductive LineEnd (line : String) : String → Prop
  | feed (rest : String) : line.toList.getLast? ≠ some '\r' → LineEnd line ("\n" ++ rest)
  | returnFeed (rest : String) : LineEnd line ("\r\n" ++ rest)
  | text : line ≠ "" → LineEnd line ""

/-- A text starts with a line. -/
def Leads (line tail : String) : Prop :=
  '\n' ∉ line.toList ∧ ∃ rest, tail = line ++ rest ∧ LineEnd line rest

/-- What stands on line `n`, without what ends the line. -/
def IsLine (text : String) (n : Nat) (line : String) : Prop :=
  ∃ i tail, LineStart text i ∧ lineNumber text i = n ∧ Rest text i tail ∧ Leads line tail

section

variable {text tail line piece : String} {i j n : Nat}

theorem feed_iff_charAt : Feed text i ↔ CharAt text i '\n' := (charAt_iff (by decide) rfl).symm

/-- A line feed ahead is one of the characters ahead. -/
theorem Rest.mem_of_feed (h : Rest text i tail) (hij : i ≤ j) (hj : Feed text j) :
    '\n' ∈ tail.toList := by
  have hfeed : Feed tail (j - i) := by
    unfold Feed at hj ⊢
    rw [← h.byte_add, Nat.add_sub_cancel' hij]
    exact hj
  obtain ⟨rest, before, htail, -⟩ := feed_iff_charAt.1 hfeed
  rw [htail, String.toList_append, String.toList_append, String.toList_singleton]
  simp

/-- A word without line feeds is passed on one line. -/
theorem Rest.not_feed_word {word : String} (h : Rest text i (word ++ tail))
    (hword : '\n' ∉ word.toList) (hij : i ≤ j) (hj : j < i + size word) : ¬Feed text j := by
  intro hfeed
  have hinside : Feed word (j - i) := by
    unfold Feed at hfeed ⊢
    rw [← byte?_append_left (by omega) tail, ← h.byte_add, Nat.add_sub_cancel' hij]
    exact hfeed
  exact hword ((rest_zero word).mem_of_feed (Nat.zero_le _) hinside)

/-- Behind a line feed the next line starts. -/
theorem Rest.next_line (h : Rest text i (piece ++ ("\n" ++ tail))) (hpiece : '\n' ∉ piece.toList) :
    ∃ next, Rest text next tail ∧ LineStart text next ∧
      lineNumber text next = lineNumber text i + 1 := by
  have hpass := h.pass
  have hfeed : Feed text (i + size piece) := by
    refine hpass.byte_zero.trans ?_
    rw [byte?_append_left (by decide)]
    rfl
  refine ⟨i + size piece + 1, hpass.pass, .inr ⟨_, hfeed, rfl⟩, ?_⟩
  rw [← lineNumber_eq_of_not_feed (Nat.le_add_right i (size piece))
    fun j hij hj => h.not_feed_word hpiece hij hj]
  exact Nat.count_succ_eq_succ_count_iff.2 hfeed

/-- The line that starts at an offset is read from what stands there. -/
theorem isLine_iff_leads (hstart : LineStart text i) (hrest : Rest text i tail) :
    IsLine text (lineNumber text i) line ↔ Leads line tail := by
  constructor
  · rintro ⟨j, other, hj, hnumber, hother, hleads⟩
    obtain rfl := hj.unique hstart hnumber
    rwa [← hrest.eq_slice, hother.eq_slice]
  · exact fun hleads => ⟨i, tail, hstart, rfl, hrest, hleads⟩

/-- Behind the last line feed there is no further line. -/
theorem not_isLine_of_not_mem (hrest : Rest text i tail) (htail : '\n' ∉ tail.toList)
    (hn : lineNumber text i < n) : ¬IsLine text n line := by
  rintro ⟨j, -, hj, rfl, -, -⟩
  have hij : i < j := Nat.lt_of_not_le fun hle => Nat.not_le.2 hn (lineNumber_mono text hle)
  rcases hj with rfl | ⟨k, hk, rfl⟩
  · exact absurd hij (Nat.not_lt_zero i)
  · exact htail (hrest.mem_of_feed (Nat.le_of_lt_succ hij) hk)

end

end Text

open Text

namespace Folding

variable {text tail line piece : String} {i n : Nat}

/-! ## Pieces between line feeds -/

/-- The lines that are made of the pieces between line feeds. -/
def pieceLines : List (List Char) → List String
  | [] => []
  | [last] => if last = [] then [] else [.ofList last]
  | piece :: pieces => withoutReturn (.ofList piece) :: pieceLines pieces

theorem linesOf_eq (text : String) : linesOf text = pieceLines (text.toList.splitOn '\n') := by
  unfold linesOf
  rw [String.toList_split_char]
  have hne := List.splitOn_ne_nil '\n' text.toList
  generalize text.toList.splitOn '\n' = pieces at hne
  induction pieces with
  | nil => exact absurd rfl hne
  | cons piece pieces ih =>
    cases pieces with
    | nil =>
      by_cases hpiece : piece = []
      · simp [pieceLines, hpiece]
      · simp [pieceLines, hpiece]
    | cons next more =>
      rw [pieceLines, ← ih (List.cons_ne_nil _ _)]
      · simp
      · simp

theorem append_return (line rest : String) :
    line ++ ("\r\n" ++ rest) = (line ++ "\r") ++ ("\n" ++ rest) := by
  rw [show "\r\n" = "\r" ++ "\n" from rfl, String.append_assoc, String.append_assoc]

theorem withoutReturn_append (line : String) : withoutReturn (line ++ "\r") = line := by
  have hrest : Rest (line ++ "\r") 0 (line ++ "\r") := rest_zero _
  have hlast : hasByte (line ++ "\r") (size (line ++ "\r") - 1) 0x0d = true := by
    rw [hasByte_iff, size_append, show size "\r" = 1 from rfl, Nat.add_sub_cancel,
      ← Nat.add_zero (size line), byte?_append_right]
    rfl
  have hword := hrest.slice_word
  rw [withoutReturn, if_pos hlast, size_append, show size "\r" = 1 from rfl, Nat.add_sub_cancel]
  rwa [Nat.zero_add] at hword

theorem withoutReturn_of_getLast? (h : line.toList.getLast? ≠ some '\r') :
    withoutReturn line = line := by
  refine if_neg fun hlast => h ?_
  have hbyte := hasByte_iff.1 hlast
  have hsize := lt_size_of_byte? hbyte
  have hchar : CharAt line (size line - 1) '\r' := (charAt_iff (by decide) rfl).2 hbyte
  have hpiece := getLast?_slice (boundary_zero line) hchar (Nat.zero_le _)
  rwa [show size line - 1 + ('\r').utf8Size = size line from Nat.sub_add_cancel (by omega),
    slice_all] at hpiece

/-- What stands in front of the first line feed is one text. -/
theorem eq_of_append_feed {before after : String} (hpiece : '\n' ∉ piece.toList)
    (hbefore : '\n' ∉ before.toList) (h : piece ++ ("\n" ++ tail) = before ++ ("\n" ++ after)) :
    piece = before := by
  have hchars := congrArg (fun text => text.toList.splitOn '\n') h
  simp only [String.toList_append] at hchars
  have hcons := (List.splitOn_append_cons_self_of_not_mem hpiece _).symm.trans
    (hchars.trans (List.splitOn_append_cons_self_of_not_mem hbefore _))
  exact String.toList_inj.1 (List.cons.inj hcons).1

theorem withoutReturn_of_leads (hpiece : '\n' ∉ piece.toList)
    (h : Leads line (piece ++ ("\n" ++ tail))) : withoutReturn piece = line := by
  obtain ⟨hline, rest, htail, hend⟩ := h
  cases hend with
  | feed rest hlast =>
    rw [eq_of_append_feed hpiece hline htail]
    exact withoutReturn_of_getLast? hlast
  | returnFeed rest =>
    have hreturn : '\n' ∉ (line ++ "\r").toList := by
      rw [String.toList_append]
      simp [hline]
    rw [eq_of_append_feed hpiece hreturn (htail.trans (append_return line rest))]
    exact withoutReturn_append line
  | text =>
    rw [String.append_empty] at htail
    rw [← htail] at hline
    simp [String.toList_append] at hline

theorem leads_withoutReturn (hpiece : '\n' ∉ piece.toList) (tail : String) :
    Leads (withoutReturn piece) (piece ++ ("\n" ++ tail)) := by
  by_cases hlast : piece.toList.getLast? = some '\r'
  · obtain ⟨front, hfront⟩ := List.getLast?_eq_some_iff.1 hlast
    obtain rfl : piece = .ofList front ++ "\r" := by
      rw [← String.toList_inj, hfront, String.toList_append, String.toList_ofList]
      rfl
    rw [withoutReturn_append]
    refine ⟨fun hmem => hpiece ?_, _, (append_return _ tail).symm, .returnFeed tail⟩
    rw [String.toList_append]
    exact List.mem_append_left _ hmem
  · rw [withoutReturn_of_getLast? hlast]
    exact ⟨hpiece, _, rfl, .feed tail hlast⟩

/-- The line in front of a line feed. -/
theorem leads_feed_iff (hpiece : '\n' ∉ piece.toList) :
    Leads line (piece ++ ("\n" ++ tail)) ↔ withoutReturn piece = line := by
  constructor
  · exact withoutReturn_of_leads hpiece
  · rintro rfl
    exact leads_withoutReturn hpiece tail

/-- The line at the end of a text. -/
theorem leads_end_iff (hpiece : '\n' ∉ piece.toList) :
    Leads line piece ↔ piece ≠ "" ∧ piece = line := by
  constructor
  · rintro ⟨-, rest, rfl, hend⟩
    cases hend with
    | feed | returnFeed => simp [String.toList_append] at hpiece
    | text hne => simpa using hne
  · rintro ⟨hne, rfl⟩
    exact ⟨hpiece, "", (String.append_empty).symm, .text hne⟩

/-! ## Numbers of lines -/

/-- From the start of a line on, the lines are those with the numbers from its own on. -/
theorem getElem?_pieceLines {i : Nat} (chars : List Char) (hstart : LineStart text i)
    (hrest : Rest text i (.ofList chars)) (n : Nat) :
    (pieceLines (chars.splitOn '\n'))[n]? = some line ↔
      IsLine text (lineNumber text i + n) line := by
  by_cases hfeed : '\n' ∈ chars
  · -- The first line ends here; the others are those of what stands behind the line feed.
    obtain ⟨piece, rest, hchars, hpiece⟩ := List.eq_append_cons_of_mem hfeed
    have hlength : rest.length < chars.length := by
      rw [hchars, List.length_append, List.length_cons]
      omega
    have hpiece' : '\n' ∉ (String.ofList piece).toList := by rwa [String.toList_ofList]
    have htail : String.ofList (piece ++ '\n' :: rest) =
        .ofList piece ++ ("\n" ++ .ofList rest) := by simp
    rw [hchars, htail] at hrest
    obtain ⟨next, hnext, hline, hnumber⟩ := hrest.next_line hpiece'
    have hpieces : pieceLines ((piece ++ '\n' :: rest).splitOn '\n') =
        withoutReturn (.ofList piece) :: pieceLines (rest.splitOn '\n') := by
      rw [List.splitOn_append_cons_self_of_not_mem hpiece]
      obtain ⟨first, more, hrest⟩ := List.exists_cons_of_ne_nil (List.splitOn_ne_nil '\n' rest)
      rw [hrest]
      rfl
    rw [hchars, hpieces]
    cases n with
    | zero =>
      rw [List.getElem?_cons_zero, Option.some_inj, Nat.add_zero, isLine_iff_leads hstart hrest,
        leads_feed_iff hpiece']
    | succ n =>
      have hrec := getElem?_pieceLines rest hline hnext n
      rw [hnumber, Nat.add_right_comm] at hrec
      exact hrec
  · -- Only one line is left, or none where the text ends with a line feed.
    rw [List.splitOn_eq_singleton hfeed]
    have hchars : '\n' ∉ (String.ofList chars).toList := by rwa [String.toList_ofList]
    cases n with
    | zero =>
      rw [Nat.add_zero, isLine_iff_leads hstart hrest, leads_end_iff hchars]
      by_cases hnil : chars = []
      · simp [pieceLines, hnil]
      · simp [pieceLines, hnil]
    | succ n =>
      have hnone : (pieceLines [chars])[n + 1]? = none := by
        unfold pieceLines
        split <;> rfl
      rw [hnone]
      exact iff_of_false nofun (not_isLine_of_not_mem hrest hchars (by omega))
termination_by chars.length

theorem getElem?_linesOf : (linesOf text)[n]? = some line ↔ IsLine text n line := by
  have hrest : Rest text 0 (.ofList text.toList) := by
    rw [String.ofList_toList]
    exact rest_zero text
  have hzero : lineNumber text 0 = 0 := Nat.count_zero _
  rw [linesOf_eq, getElem?_pieceLines text.toList (.inl rfl) hrest n, hzero, Nat.zero_add]

end Folding

end ShellAnalysis
