import ShellAnalysis.Proofs.Characters
import ShellAnalysis.Proofs.Resumption
import ShellAnalysis.Proofs.Scanning

/-!
# Heredocs line by line

Scanning an active heredoc is said here in terms of lines.  A line ends after its
line feed or at the end of the text (`LineEnds`); `Lines text i lines j` says
that the lines from `i` on cover the text up to `j`.  A terminator line holds
the delimiter alone, after tabs if they are taken off (`Terminates`).

`Piece text h i` lists the four ways a scan at `i` can come out.  Every scan
that is asked for the body or the terminator comes out in one of them:

    Piece text h i (scan text i accepted h)                        (scan_piece)

The second scan of a heredoc meets the terminator line where the first one
stopped, so no heredoc is more than two pieces.
-/

namespace ShellAnalysis

open Text

namespace Heredoc

/-! ## Lines -/

/-- The line that starts at `i` ends right before `next`: after its line feed, or with the text. -/
structure LineEnds (text : String) (i next : Nat) : Prop where
  lt : i < next
  inner : ∀ j, i ≤ j → j + 1 < next → byte? text j ≠ some 0x0a
  ended : byte? text (next - 1) = some 0x0a ∨ next = size text

/-- The lines from `i` on cover the text up to an offset. -/
inductive Lines (text : String) : Nat → List Span → Nat → Prop
  | nil (i : Nat) : Lines text i [] i
  | cons {i next stop : Nat} {lines : List Span} : LineEnds text i next →
      Lines text next lines stop → Lines text i (.upTo i next :: lines) stop

/-- A line without its leading tabs, if they are taken off. -/
def unindent (stripTabs : Bool) (line : String) : String :=
  if stripTabs then .ofList (line.toList.dropWhile (· == '\t')) else line

/-- The text of the lines, one after the other. -/
def bodyText (text : String) (stripTabs : Bool) (lines : List Span) : String :=
  .join (lines.map fun line => unindent stripTabs (slice text line.start line.stop))

/-- There are only tabs from `i` up to `content`, and all of them if there are any to take off. -/
structure Indents (text : String) (stripTabs : Bool) (i content : Nat) : Prop where
  le : i ≤ content
  tabs : ∀ j, i ≤ j → j < content → byte? text j = some 0x09
  all : stripTabs = true → byte? text content ≠ some 0x09
  none_kept : stripTabs = false → content = i

/-- The line at `i` is a terminator line: tabs if they are taken off, and the delimiter, which ends
at `stop` before a line feed, a carriage return or the end of the text. -/
structure Terminates (text : String) (h : Heredoc) (i stop : Nat) : Prop where
  lt : i < size text
  delimiter : ∃ content, Indents text h.stripTabs i content ∧
    hasPiece text content h.delimiter = true ∧ stop = content + size h.delimiter
  ended : byte? text stop = none ∨ byte? text stop = some 0x0a ∨ byte? text stop = some 0x0d

section

variable {text : String} {h : Heredoc} {i j next stop : Nat} {stripTabs : Bool}

/-! ## Tabs -/

theorem contentStart_indents (text : String) (stripTabs : Bool) (i : Nat) :
    Indents text stripTabs i (contentStart text stripTabs i) := by
  refine ⟨le_contentStart text stripTabs i, ?_, ?_, ?_⟩
  · intro j hij hj
    unfold contentStart at hj
    split at hj
    · obtain ⟨b, hb, htab⟩ := runEnd_bytes hij hj
      rw [hb, beq_iff_eq.1 htab]
    · omega
  · rintro rfl htab
    rcases runEnd_stops text (· == 0x09) i with hnone | ⟨b, hb, hne⟩
    · exact nomatch hnone.symm.trans htab
    · have : b = 0x09 := Option.some.inj (hb.symm.trans htab)
      rw [this] at hne
      cases hne
  · rintro rfl
    rfl

/-- The tabs end where they end. -/
theorem Indents.eq {content content' : Nat} (hc : Indents text stripTabs i content)
    (hc' : Indents text stripTabs i content') : content = content' := by
  cases stripTabs with
  | false => exact (hc.none_kept rfl).trans (hc'.none_kept rfl).symm
  | true =>
    rcases Nat.lt_trichotomy content content' with hlt | heq | hlt
    · exact absurd (hc'.tabs content hc.le hlt) (hc.all rfl)
    · exact heq
    · exact absurd (hc.tabs content' hc'.le hlt) (hc'.all rfl)

/-- A piece that does not start at a tab has no tab in front. -/
theorem head?_slice_ne (hi : Boundary text i) (hj : Boundary text j) (hij : i ≤ j)
    (hb : byte? text i ≠ some 0x09) : (slice text i j).toList.head? ≠ some '\t' := by
  intro hhead
  obtain ⟨cs, hcs⟩ := List.head?_eq_some_iff.1 hhead
  have hslice : slice text i j = "\t" ++ .ofList cs := by
    rw [← String.toList_inj, hcs, String.toList_append]
    simp
  have hrest := rest_of_boundary hi
  rw [← slice_append hij hj.le_size hi hj (boundary_size text), hslice,
    String.append_assoc] at hrest
  refine hb (hrest.byte_zero.trans ?_)
  rw [byte?_append_left (by decide)]
  rfl

/-- What is cut out behind the tabs is the piece without its tabs. -/
theorem slice_runEnd (hi : Boundary text i) (hj : Boundary text j)
    (hle : runEnd text (· == 0x09) i ≤ j) :
    slice text (runEnd text (· == 0x09) i) j =
      .ofList ((slice text i j).toList.dropWhile (· == '\t')) := by
  have hstays : ∀ {i}, Boundary text i → i ≤ j → byte? text i ≠ some 0x09 →
      slice text i j = .ofList ((slice text i j).toList.dropWhile (· == '\t')) := by
    intro i hi hij hb
    have hhead := head?_slice_ne hi hj hij hb
    cases hchars : (slice text i j).toList with
    | nil => rw [← String.toList_inj, hchars]; rfl
    | cons c cs =>
      rw [hchars] at hhead
      have hc : (c == '\t') = false := beq_false_of_ne fun h => hhead (by rw [h]; rfl)
      rw [List.dropWhile_cons, hc, if_neg Bool.false_ne_true, ← hchars, String.ofList_toList]
  fun_induction runEnd text (· == 0x09) i with
  | case1 i b hb htab ih =>
    rw [beq_iff_eq.1 htab] at hb
    have hnext : Boundary text (i + 1) := .succ hb (by decide)
    have hij : i + 1 ≤ j := Nat.le_trans (le_runEnd _ _ _) hle
    have htab : slice text i (i + 1) = "\t" := slice_byte hb (by decide) rfl rfl
    rw [ih hnext hle, ← slice_append (Nat.le_succ i) hij hi hnext hj, htab, String.toList_append]
    rfl
  | case2 i b hb hne => exact hstays hi hle fun htab => hne (by cases hb.symm.trans htab; rfl)
  | case3 i hb => exact hstays hi hle fun htab => by cases hb.symm.trans htab

theorem slice_contentStart (hi : Boundary text i) (hj : Boundary text j)
    (hle : contentStart text stripTabs i ≤ j) :
    slice text (contentStart text stripTabs i) j = unindent stripTabs (slice text i j) := by
  unfold contentStart unindent at *
  cases stripTabs with
  | true => exact slice_runEnd hi hj hle
  | false => rfl

/-! ## The lines of a body -/

theorem LineEnds.boundary (hl : LineEnds text i next) : Boundary text next := by
  rcases hl.ended with hfeed | rfl
  · have hnext := Boundary.succ hfeed (by decide)
    rwa [Nat.sub_add_cancel (Nat.one_le_of_lt hl.lt)] at hnext
  · exact boundary_size text

theorem Lines.boundary {lines : List Span} (hl : Lines text i lines j) (hi : Boundary text i) :
    Boundary text j := by
  induction hl with
  | nil => exact hi
  | cons hline _ ih => exact ih hline.boundary

theorem Lines.le {lines : List Span} (hl : Lines text i lines j) : i ≤ j := by
  induction hl with
  | nil => exact Nat.le_refl _
  | cons hline _ ih => exact Nat.le_trans (Nat.le_of_lt hline.lt) ih

/-- Lines that are there lie in the text, and the first of them starts where they start. -/
theorem Lines.first {lines : List Span} (hl : Lines text i lines j) (hne : lines ≠ []) :
    i < size text ∧ ∃ line ∈ lines, line.start = i := by
  cases hl with
  | nil => exact absurd rfl hne
  | cons hline _ =>
    exact ⟨Nat.lt_of_lt_of_le hline.lt hline.boundary.le_size, _, List.mem_cons_self, rfl⟩

theorem nextLine_lineEnds (hi : i < size text) :
    LineEnds text i (nextLine text (contentStart text stripTabs i)) := by
  have hcontent := contentStart_indents text stripTabs i
  generalize contentStart text stripTabs i = content at hcontent
  have hfeed := runEnd_stops text (· != 0x0a) content
  have hle := hcontent.le
  have hlt := lt_nextLine hi hle
  refine ⟨hlt, fun j hij hj => ?_, ?_⟩
  · rcases Nat.lt_or_ge j content with htab | hge
    · rw [hcontent.tabs j hij htab]
      decide
    · have hj : j < runEnd text (· != 0x0a) content := by
        unfold nextLine find at hj
        simp only at hj
        split at hj <;> omega
      obtain ⟨b, hb, hne⟩ := runEnd_bytes hge hj
      rw [hb]
      rintro ⟨⟩
      cases hne
  · unfold nextLine find
    simp only
    split
    · rename_i hin
      rcases hfeed with hnone | ⟨b, hb, heq⟩
      · exact absurd hin (Nat.not_lt.2 (byte?_eq_none.1 hnone))
      · rw [bne_eq_false_iff_eq.1 heq] at hb
        exact .inl hb
    · exact .inr rfl

theorem terminator?_eq_some {delimiter : String} :
    terminator? text delimiter i = some stop ↔ hasPiece text i delimiter = true ∧
      stop = i + size delimiter ∧
      (byte? text stop = none ∨ byte? text stop = some 0x0a ∨ byte? text stop = some 0x0d) := by
  unfold terminator?
  extract_lets stop' ended
  have hended : ended = true ↔
      (byte? text stop' = none ∨ byte? text stop' = some 0x0a ∨ byte? text stop' = some 0x0d) := by
    unfold ended
    cases byte? text stop' with
    | none => simp
    | some b => simp
  constructor
  · intro heq
    split at heq
    · rename_i hboth
      obtain ⟨hpiece, hend⟩ := Bool.and_eq_true_iff.1 hboth
      obtain rfl := Option.some.inj heq
      exact ⟨hpiece, rfl, hended.1 hend⟩
    · cases heq
  · rintro ⟨hpiece, rfl, hend⟩
    exact if_pos (Bool.and_eq_true_iff.2 ⟨hpiece, hended.2 hend⟩)

/-- The line at `i` is a terminator line if the test on its content says so. -/
theorem terminates_iff (hi : i < size text) :
    Terminates text h i stop ↔
      terminator? text h.delimiter (contentStart text h.stripTabs i) = some stop := by
  have hindents := contentStart_indents text h.stripTabs i
  rw [terminator?_eq_some]
  constructor
  · rintro ⟨-, ⟨content, hcontent, hpiece, hstop⟩, hended⟩
    rw [hcontent.eq hindents] at hpiece hstop
    exact ⟨hpiece, hstop, hended⟩
  · rintro ⟨hpiece, hstop, hended⟩
    exact ⟨hi, ⟨_, hindents, hpiece, hstop⟩, hended⟩

/-- None of the lines is a terminator line. -/
def Unended (text : String) (h : Heredoc) (lines : List Span) : Prop :=
  ∀ line ∈ lines, ∀ stop, ¬ Terminates text h line.start stop

/-- The lines up to the first terminator line are read, or all of them if there is none. -/
theorem body?_lines (h : Heredoc) (hi : Boundary text i) {body : Body}
    (hbody : h.body? text i = some body) :
    ∃ lines, Lines text i lines body.span.stop ∧ Unended text h lines ∧
      body.text = bodyText text h.stripTabs lines ∧
      (body.terminator = none → body.span.stop = size text) ∧
      ∀ line, body.terminator = some line →
        ∃ stop, line = .upTo body.span.stop stop ∧ Terminates text h body.span.stop stop := by
  revert body
  fun_induction body? text h i with
  | case1 i hlt content hcontent stop hstop =>
    intro body hbody
    obtain ⟨line, hline, rfl⟩ := Option.map_eq_some_iff.1 hbody
    obtain ⟨-, rfl⟩ := Span.of_between? hline
    refine ⟨[], .nil i, List.forall_mem_nil _, rfl, ?_, ?_⟩
    · rintro ⟨⟩
    · rintro line ⟨⟩
      exact ⟨stop, rfl, (terminates_iff hlt).2 hstop⟩
  | case2 i hlt content hcontent hnone next =>
    rename_i ih
    intro body hbody
    have hends : LineEnds text i next := nextLine_lineEnds hlt
    have hnext : content ≤ next := le_nextLine (Boundary.le_size hcontent)
    obtain ⟨line, hline, hbody⟩ := Option.bind_eq_some_iff.1 hbody
    obtain ⟨rest, hrest, hbody⟩ := Option.bind_eq_some_iff.1 hbody
    obtain ⟨span, hspan, hbody⟩ := Option.bind_eq_some_iff.1 hbody
    obtain ⟨hle, rfl⟩ := Span.of_between? hspan
    cases hbody
    obtain ⟨lines, hlines, hunended, htext, hsize, hstop⟩ := ih hends.boundary hrest
    have hstop' : (Span.upTo i rest.span.stop).stop = rest.span.stop := Span.stop_upTo hle
    refine ⟨.upTo i next :: lines, .cons hends (hstop'.symm ▸ hlines), ?_, ?_, ?_, ?_⟩
    · refine List.forall_mem_cons.2 ⟨fun stop hterm => ?_, hunended⟩
      cases hnone.symm.trans ((terminates_iff hlt).1 hterm)
    · have hpiece : line = unindent h.stripTabs (slice text i next) :=
        (slice_of_slice? hline).symm.trans (slice_contentStart hi hends.boundary hnext)
      rw [Body.text, String.join_cons, hpiece, bodyText, List.map_cons, String.join_cons,
        Span.stop_upTo (Nat.le_of_lt hends.lt), ← bodyText, ← htext]
      rfl
    · exact fun hnone => hstop'.trans (hsize hnone)
    · exact fun line hline => hstop'.symm ▸ hstop line hline
  | case3 i hlt content hcontent =>
    exact absurd (contentStart_boundary hi) hcontent
  | case4 i hge =>
    rintro body ⟨⟩
    have hsize : i = size text := Nat.le_antisymm hi.le_size (Nat.le_of_not_lt hge)
    refine ⟨[], .nil i, List.forall_mem_nil _, rfl, fun _ => hsize, ?_⟩
    rintro line ⟨⟩

end

/-! ## What a scan gives -/

/-- The ways a scan of an active heredoc can come out, with the state after it. -/
inductive Piece (text : String) (h : Heredoc) (i : Nat) : Option Scanned × Heredoc → Prop
  /-- The line at `i` is a terminator line. -/
  | terminator {stop : Nat} : Terminates text h i stop →
      Piece text h i
        (some ⟨.heredocEnd, h.delimiter, .upTo i stop, none⟩, { h with active := false })
  /-- The first terminator line comes after some others. -/
  | body {lines : List Span} {j stop : Nat} : lines ≠ [] → Lines text i lines j →
      Unended text h lines → Terminates text h j stop →
      Piece text h i
        (some ⟨.heredocBody, bodyText text h.stripTabs lines, .upTo i j, none⟩, h)
  /-- There are lines, and none of them is a terminator line. -/
  | unterminated {lines : List Span} : lines ≠ [] → Lines text i lines (size text) →
      Unended text h lines →
      Piece text h i
        (some ⟨.heredocBody, bodyText text h.stripTabs lines, .upTo i (size text),
          some (.unterminatedHeredoc h.delimiter)⟩, { h with active := false })
  /-- There is no line. -/
  | exhausted : i = size text → Piece text h i (none, { h with active := false })

section

variable {text : String} {h : Heredoc} {i : Nat}

theorem heredocPiece?_piece (h : Heredoc) (hi : Boundary text i) :
    ∃ r, Scanner.heredocPiece? text i h = some r ∧ Piece text h i r := by
  obtain ⟨body, hbody, hread⟩ := exists_body? h hi
  obtain ⟨lines, hlines, hunended, htext, hsize, hstop⟩ := body?_lines h hi hbody
  have hspan : body.span = .upTo i body.span.stop := by
    rw [← hread.start]
    exact Span.eq_upTo body.span
  have hne : ¬body.span.isEmpty = true → lines ≠ [] := by
    rintro hne rfl
    refine hne (Span.isEmpty_iff.2 ?_)
    cases hlines
    exact hread.start.symm
  have hempty : body.span.isEmpty = true → body.span.stop = i := fun hempty =>
    (Span.isEmpty_iff.1 hempty).trans hread.start
  refine ⟨_, Option.map_eq_some_iff.2 ⟨body, hbody, rfl⟩, ?_⟩
  unfold Scanner.nextPiece
  cases hterm : body.terminator with
  | some line =>
    obtain ⟨stop, rfl, hends⟩ := hstop line hterm
    simp only
    split
    · rename_i heq
      rw [hempty heq] at hends ⊢
      exact .terminator hends
    · rename_i heq
      rw [htext, hspan]
      exact .body (hne heq) hlines hunended hends
  | none =>
    have hsize := hsize hterm
    simp only
    split
    · rename_i heq
      exact .exhausted ((hempty heq).symm.trans hsize)
    · rename_i heq
      rw [htext, hspan, hsize]
      exact .unterminated (hne heq) (hsize ▸ hlines) hunended

/-- At a terminator line a scan gives the terminator. -/
theorem Piece.of_terminates {r : Option Scanned × Heredoc} {stop : Nat} (hr : Piece text h i r)
    (hterm : Terminates text h i stop) : r.2.active = false := by
  cases hr with
  | terminator | unterminated | exhausted => rfl
  | body hne hlines hunended =>
    obtain ⟨-, line, hline, hstart⟩ := hlines.first hne
    exact absurd (hstart ▸ hterm) (hunended line hline stop)

end

end Heredoc

/-! ## Scanning -/

namespace Scanner

open Heredoc

variable {text : String} {h : Heredoc} {i : Nat} {accepted : List ScanKind}

/-- Scans on from where the last piece ended, until nothing is found. -/
def scanOn (text : String) (accepted : List ScanKind) :
    (fuel : Nat) → (i : Nat) → Heredoc → List Scanned
  | 0, _, _ => []
  | fuel + 1, i, h =>
    match scan text i accepted h with
    | (some piece, h) => piece :: scanOn text accepted fuel piece.span.stop h
    | (none, _) => []

theorem wantsBody_of_mem (hbody : .heredocBody ∈ accepted ∨ .heredocEnd ∈ accepted) :
    wantsBody accepted = true := by
  unfold wantsBody
  rw [List.any_eq_true]
  rcases hbody with hmem | hmem
  · exact ⟨_, hmem, rfl⟩
  · exact ⟨_, hmem, rfl⟩

theorem scan_of_active (hi : Boundary text i) (hactive : h.active = true)
    (hwants : wantsBody accepted = true) : Piece text h i (scan text i accepted h) := by
  obtain ⟨r, hr, hpiece⟩ := heredocPiece?_piece h hi
  unfold scan scan?
  rw [if_neg (Nat.not_lt.2 hi.le_size), hactive, hwants, Bool.and_true, if_pos rfl, hr]
  exact hpiece

/-- Without a heredoc there is no body and no terminator. -/
theorem scanKinds?_of_body (hkinds : ∀ k ∈ accepted, k = .heredocBody ∨ k = .heredocEnd) :
    scanKinds? text i h accepted = some (none, h) := by
  induction accepted with
  | nil => rfl
  | cons kind kinds ih =>
    obtain ⟨hkind, hrest⟩ := List.forall_mem_cons.1 hkinds
    rcases hkind with rfl | rfl
    · exact ih hrest
    · exact ih hrest

theorem scanOn_of_inactive (hkinds : ∀ k ∈ accepted, k = .heredocBody ∨ k = .heredocEnd)
    (hactive : h.active = false) (fuel : Nat) : scanOn text accepted fuel i h = [] := by
  cases fuel with
  | zero => rfl
  | succ fuel =>
    have hscan : (scan text i accepted h).1 = none := by
      unfold scan scan?
      split
      · rfl
      · rw [hactive, Bool.false_and, if_neg Bool.false_ne_true, scanKinds?_of_body hkinds]
        rfl
    unfold scanOn
    split
    · rename_i heq
      rw [heq] at hscan
      cases hscan
    · rfl

/-- A scan after which no heredoc is active is the last but one. -/
theorem length_scanOn_of_closing (hkinds : ∀ k ∈ accepted, k = .heredocBody ∨ k = .heredocEnd)
    (hcloses : (scan text i accepted h).2.active = false) (fuel : Nat) :
    (scanOn text accepted fuel i h).length ≤ 1 := by
  cases fuel with
  | zero => exact Nat.zero_le 1
  | succ fuel =>
    unfold scanOn
    split
    · rename_i piece h' heq
      rw [heq] at hcloses
      rw [scanOn_of_inactive hkinds hcloses]
      exact Nat.le_refl 1
    · exact Nat.zero_le 1

theorem length_scanOn_le (hi : Boundary text i) (hactive : h.active = true)
    (hwants : wantsBody accepted = true)
    (hkinds : ∀ k ∈ accepted, k = .heredocBody ∨ k = .heredocEnd) (fuel : Nat) :
    (scanOn text accepted fuel i h).length ≤ 2 := by
  have hpiece := scan_of_active hi hactive hwants
  generalize hr : scan text i accepted h = r at hpiece
  cases hpiece with
  | terminator | unterminated | exhausted =>
    exact Nat.le_succ_of_le (length_scanOn_of_closing hkinds (by rw [hr]) fuel)
  | @body lines j stop hne hlines hunended hterm =>
    cases fuel with
    | zero => exact Nat.zero_le 2
    | succ fuel =>
      have hnext := scan_of_active (hlines.boundary hi) hactive hwants
      unfold scanOn
      rw [hr]
      simp only [List.length_cons, Span.stop_upTo hlines.le]
      exact Nat.succ_le_succ (length_scanOn_of_closing hkinds (hnext.of_terminates hterm) fuel)

/-- A scan of an active heredoc gives the terminator line or the lines before it, and none at the
end of the text alone.  The heredoc stays active behind a body without an error, and the scan of a
heredoc is over after two pieces. -/
theorem scan_piece (text : String) (i : Nat) (h : Heredoc) (accepted : List ScanKind)
    (hi : Boundary text i) (hactive : h.active = true)
    (hbody : .heredocBody ∈ accepted ∨ .heredocEnd ∈ accepted) :
    Piece text h i (scan text i accepted h) ∧
      ((scan text i accepted h).1 = none ↔ i = size text) ∧
      ((scan text i accepted h).2.active = true ↔ ∃ piece, (scan text i accepted h).1 = some piece ∧
        piece.kind = .heredocBody ∧ piece.error = none) ∧
      ((∀ k ∈ accepted, k = .heredocBody ∨ k = .heredocEnd) →
        ∀ fuel, (scanOn text accepted fuel i h).length ≤ 2) := by
  have hwants := wantsBody_of_mem hbody
  have hpiece := scan_of_active hi hactive hwants
  refine ⟨hpiece, ?_, ?_, length_scanOn_le hi hactive hwants⟩
  · generalize scan text i accepted h = r at hpiece
    cases hpiece with
    | terminator hterm => exact ⟨nofun, fun hsize => absurd hsize (Nat.ne_of_lt hterm.lt)⟩
    | body hne hlines | unterminated hne hlines =>
      exact ⟨nofun, fun hsize => absurd hsize (Nat.ne_of_lt (hlines.first hne).1)⟩
    | exhausted hsize => exact ⟨fun _ => hsize, fun _ => rfl⟩
  · generalize scan text i accepted h = r at hpiece
    cases hpiece with
    | terminator => exact ⟨nofun, fun ⟨_, hsome, hkind, _⟩ => by cases hsome; cases hkind⟩
    | body => exact ⟨fun _ => ⟨_, rfl, rfl, rfl⟩, fun _ => hactive⟩
    | unterminated => exact ⟨nofun, fun ⟨_, hsome, _, herror⟩ => by cases hsome; cases herror⟩
    | exhausted => exact ⟨nofun, fun ⟨_, hsome, _⟩ => nomatch hsome⟩

/-- Tabs are taken off the lines and the terminator, and a longer word is no terminator. -/
theorem scan_piece_tabs :
    scan "\ta\n\tEOFX\n\t\tEOF\n" 0 [.heredocBody, .heredocEnd] ⟨"EOF", true, false, true⟩ =
        (some ⟨.heredocBody, "a\nEOFX\n", ⟨0, 9⟩, none⟩, ⟨"EOF", true, false, true⟩) ∧
      Piece "\ta\n\tEOFX\n\t\tEOF\n" ⟨"EOF", true, false, true⟩ 0
        (scan "\ta\n\tEOFX\n\t\tEOF\n" 0 [.heredocBody, .heredocEnd] ⟨"EOF", true, false, true⟩) ∧
      ∀ fuel, (scanOn "\ta\n\tEOFX\n\t\tEOF\n" [.heredocBody, .heredocEnd] fuel 0
        ⟨"EOF", true, false, true⟩).length ≤ 2 := by
  have hpiece := scan_piece "\ta\n\tEOFX\n\t\tEOF\n" 0 ⟨"EOF", true, false, true⟩
    [.heredocBody, .heredocEnd] (boundary_zero _) rfl (by decide)
  exact ⟨by decide +kernel, hpiece.1, hpiece.2.2.2 (by decide)⟩

end Scanner

end ShellAnalysis
