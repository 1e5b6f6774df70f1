import ShellAnalysis.Navigate.Folding
import ShellAnalysis.Proofs.Outcome
import ShellAnalysis.Proofs.TextLines

/-!
# Regions that can be folded

Two kinds of regions can be folded (`Foldable`): constructs of the tree that end on
a later line than they start on, and runs of at least two comment lines, as long as
they go.  A comment line is told by what stands on it alone, inside a heredoc too: its
first character that is no blank is a `#`, and no `!` follows, which would be the line
of an interpreter.

Of the regions that start on one line, one that reaches furthest is chosen, and no
other; the chosen ones come by their first lines (`foldingRanges_outermost`).
-/

namespace ShellAnalysis

open Text

namespace Folding

variable {text : String} {root : Node} {lines rest : List String} {number n : Nat}
  {open? : Option Run} {run other : Run} {a b c range : FoldingRange} {ranges : List FoldingRange}

/-! ## Comment lines -/

/-- Line `n` holds a comment and nothing else. -/
def CommentLine (text : String) (n : Nat) : Prop :=
  ∃ line indent comment, IsLine text n line ∧ line.toList = indent ++ '#' :: comment ∧
    (∀ c ∈ indent, isBlank c = true) ∧ comment.head? ≠ some '!'

/-- Comment lines in a row, and no further ones next to them. -/
structure CommentRun (text : String) (first last : Nat) : Prop where
  several : first < last
  comments : ∀ n, first ≤ n → n ≤ last → CommentLine text n
  no_earlier : ∀ n, n + 1 = first → ¬CommentLine text n
  no_later : ¬CommentLine text (last + 1)

theorem isCommentLine_iff {line : String} : isCommentLine line = true ↔
    ∃ indent comment, line.toList = indent ++ '#' :: comment ∧
      (∀ c ∈ indent, isBlank c = true) ∧ comment.head? ≠ some '!' := by
  constructor
  · intro h
    have hcut := List.takeWhile_append_dropWhile (p := isBlank) (l := line.toList)
    have hblank : ∀ c ∈ line.toList.takeWhile isBlank, isBlank c = true :=
      fun c => List.all_eq_true.1 List.all_takeWhile c
    unfold isCommentLine at h
    split at h
    · cases h
    · rename_i comment hnot heq
      refine ⟨_, comment, (heq ▸ hcut).symm, hblank, fun hhead => ?_⟩
      obtain ⟨more, rfl⟩ := List.head?_eq_some_iff.1 hhead
      exact hnot more rfl
    · cases h
  · rintro ⟨indent, comment, hline, hblank, hhead⟩
    have hdrop : line.toList.dropWhile isBlank = '#' :: comment := by
      rw [hline, List.dropWhile_append_of_pos hblank]
      rfl
    unfold isCommentLine
    rw [hdrop]
    cases comment with
    | nil => rfl
    | cons c more =>
      split
      · rename_i heq
        cases heq
        exact absurd rfl hhead
      · rfl
      · rename_i hnot
        exact absurd rfl (hnot _)

/-! ## Runs -/

/-- The list has a comment line at this place. -/
def CommentAt (lines : List String) (n : Nat) : Prop :=
  ∃ line, lines[n]? = some line ∧ isCommentLine line = true

theorem commentAt_linesOf (text : String) : CommentAt (linesOf text) = CommentLine text := by
  funext n
  unfold CommentAt CommentLine
  simp only [getElem?_linesOf, isCommentLine_iff, eq_iff_iff]
  constructor
  · rintro ⟨line, hline, indent, comment, h⟩
    exact ⟨line, indent, comment, hline, h⟩
  · rintro ⟨line, indent, comment, hline, h⟩
    exact ⟨line, hline, indent, comment, h⟩

/-- The comment lines up to the last line of the run are those of the run. -/
structure CommentsUpTo (lines : List String) (run : Run) : Prop where
  le : run.first ≤ run.last
  comments : ∀ n, run.first ≤ n → n ≤ run.last → CommentAt lines n
  no_earlier : ∀ n, n + 1 = run.first → ¬CommentAt lines n
  width : ∃ line, lines[run.last]? = some line ∧ size line = run.width

/-- The run of the lines in front of a line is still open. -/
def OpenBefore (lines : List String) (number : Nat) : Option Run → Prop
  | none => ∀ n, n + 1 = number → ¬CommentAt lines n
  | some run => run.last + 1 = number ∧ CommentsUpTo lines run

theorem CommentsUpTo.unique (h : CommentsUpTo lines run) (h' : CommentsUpTo lines other)
    (hlast : run.last = other.last) : run = other := by
  have hfirst : ∀ {a b : Run}, CommentsUpTo lines a → CommentsUpTo lines b → a.last = b.last →
      b.first ≤ a.first := by
    intro a b ha hb hlast
    refine Nat.le_of_not_lt fun hlt => ?_
    have hle := hb.le
    exact hb.no_earlier (b.first - 1) (by omega) (ha.comments _ (by omega) (by omega))
  obtain ⟨line, hline, hwidth⟩ := h.width
  obtain ⟨line', hline', hwidth'⟩ := h'.width
  rw [hlast, hline'] at hline
  obtain rfl := Option.some.inj hline
  cases run
  cases other
  have hle := hfirst h h' hlast
  have hge := hfirst h' h hlast.symm
  simp only [Run.mk.injEq] at *
  exact ⟨Nat.le_antisymm hge hle, hlast, hwidth.symm.trans hwidth'⟩

/-- Where the comment lines end, the open run is the run that ends there. -/
theorem mem_open_iff (hopen : OpenBefore lines number open?) (hnot : ¬CommentAt lines number) :
    run ∈ open?.toList ↔
      (CommentsUpTo lines run ∧ ¬CommentAt lines (run.last + 1)) ∧ run.last + 1 = number := by
  rw [Option.mem_toList]
  constructor
  · rintro rfl
    obtain ⟨hlast, hrun⟩ := hopen
    exact ⟨⟨hrun, hlast ▸ hnot⟩, hlast⟩
  · rintro ⟨⟨hrun, -⟩, hlast⟩
    cases open? with
    | none => exact absurd (hrun.comments run.last hrun.le (Nat.le_refl _)) (hopen _ hlast)
    | some other =>
      obtain ⟨hother, hopen⟩ := hopen
      rw [hopen.unique hrun (by omega)]

/-- A comment line goes on with the open run or starts one. -/
theorem OpenBefore.comment {line : String} (hopen : OpenBefore lines number open?)
    (hline : lines[number]? = some line) (hcomment : isCommentLine line = true) :
    OpenBefore lines (number + 1)
      (some ⟨(open?.map (·.first)).getD number, number, size line⟩) := by
  have hat : CommentAt lines number := ⟨line, hline, hcomment⟩
  refine ⟨rfl, ?_⟩
  cases open? with
  | none =>
    refine ⟨Nat.le_refl _, fun n hfirst hlast => ?_, hopen, line, hline, rfl⟩
    rwa [Nat.le_antisymm hlast hfirst]
  | some run =>
    obtain ⟨hnumber, hrun⟩ := hopen
    have hle := hrun.le
    refine ⟨?_, fun n hfirst hlast => ?_, hrun.no_earlier, line, hline, rfl⟩
    · show run.first ≤ number
      omega
    · rcases Nat.lt_or_eq_of_le hlast with hlt | rfl
      · refine hrun.comments n hfirst ?_
        simp only at hlt
        omega
      · exact hat

/-- From a line on, the runs are those that do not end earlier. -/
theorem mem_runs_iff (hrest : ∀ k, rest[k]? = lines[number + k]?)
    (hopen : OpenBefore lines number open?) :
    run ∈ runs number open? rest ↔
      (CommentsUpTo lines run ∧ ¬CommentAt lines (run.last + 1)) ∧ number ≤ run.last + 1 := by
  induction rest generalizing number open? with
  | nil =>
    have hnone : ∀ n, number ≤ n → ¬CommentAt lines n := by
      rintro n hn ⟨line, hline, -⟩
      rw [← Nat.add_sub_cancel' hn, ← hrest] at hline
      cases hline
    rw [runs, mem_open_iff hopen (hnone number (Nat.le_refl _))]
    refine and_congr_right fun ⟨hrun, _⟩ => ?_
    have hlast : run.last < number := Nat.lt_of_not_le fun hle =>
      hnone _ hle (hrun.comments _ hrun.le (Nat.le_refl _))
    omega
  | cons line rest ih =>
    have hline : lines[number]? = some line := (hrest 0).symm
    have hnext : ∀ k, rest[k]? = lines[number + 1 + k]? := by
      intro k
      rw [Nat.add_assoc, Nat.add_comm 1 k]
      exact hrest (k + 1)
    rw [runs]
    split
    · rename_i hcomment
      simp only
      rw [ih hnext (hopen.comment hline hcomment)]
      refine and_congr_right fun ⟨_, hlater⟩ => ?_
      have hlast : run.last + 1 ≠ number := by
        rintro rfl
        exact hlater ⟨line, hline, hcomment⟩
      omega
    · rename_i hcomment
      have hnot : ¬CommentAt lines number := by
        rintro ⟨other, hother, h⟩
        obtain rfl := Option.some.inj (hline.symm.trans hother)
        exact hcomment h
      have hnone : OpenBefore lines (number + 1) none := by
        rintro n ⟨⟩
        exact hnot
      rw [List.mem_append, mem_open_iff hopen hnot, ih hnext hnone, ← and_or_left]
      refine and_congr_right fun ⟨hrun, _⟩ => ?_
      have hlast : run.last ≠ number := by
        rintro rfl
        exact hnot (hrun.comments _ hrun.le (Nat.le_refl _))
      omega

/-! ## What can be folded -/

/-- Constructs between braces, brackets, parentheses or quotes, heredoc bodies and `case`. -/
inductive Folds : Form Node → Prop
  | block {body : List Node} : Folds (.block body)
  | subshell {body : List Node} : Folds (.subshell body)
  | commandSub {isSplice : Bool} {body : List Node} : Folds (.commandSub isSplice body)
  | list {items : List Node} : Folds (.list items)
  | dict {entries : List Node} : Folds (.dict entries)
  | argList {positional named : List Node} : Folds (.argList positional named)
  | stringLit {style : StringStyle} {parts : List Node} : Folds (.stringLit style parts)
  | heredocBody {delimiter t : String} {terminated : Bool} : Folds (.heredocBody delimiter t terminated)
  | caseOf {style : ConditionStyle} {subject : Node} {arms : List Node} :
    Folds (.caseOf style subject arms)

theorem folds_iff {node : Node} : folds node = true ↔ Folds node.form := by
  obtain ⟨span, form⟩ := node
  constructor
  · intro h
    cases form <;> first | constructor | cases h
  · intro h
    simp only [Node.form] at h
    cases h <;> rfl

/-- The regions of a text that can be folded. -/
inductive Foldable (root : Node) (text : String) : FoldingRange → Prop
  | construct {node : Node} : node ∈ root.walk → Folds node.form →
      lineNumber text node.span.start < lineNumber text node.span.stop →
      Foldable root text ⟨(LineIndex.ofText text).lineSpan node.span, false⟩
  | comments {first last : Nat} {line : String} : CommentRun text first last →
      IsLine text last line → Foldable root text ⟨⟨⟨first, 0⟩, ⟨last, size line⟩⟩, true⟩

theorem mem_regions : range ∈ regions root (.ofText text) ↔
    ∃ node ∈ root.walk, Folds node.form ∧
      lineNumber text node.span.start < lineNumber text node.span.stop ∧
      ⟨(LineIndex.ofText text).lineSpan node.span, false⟩ = range := by
  have hmultiline : ∀ span : Span, ((LineIndex.ofText text).lineSpan span).isMultiline = true ↔
      lineNumber text span.start < lineNumber text span.stop := by
    intro span
    rw [LineSpan.isMultiline, decide_eq_true_eq, LineIndex.lineSpan]
    simp only [LineIndex.line_position]
  unfold regions
  simp only [List.mem_filterMap, List.mem_map, List.mem_filter, folds_iff,
    Option.ite_none_right_eq_some, Option.some_inj]
  constructor
  · rintro ⟨_, ⟨node, ⟨hnode, hfolds⟩, rfl⟩, hlines, hrange⟩
    exact ⟨node, hnode, hfolds, (hmultiline node.span).1 hlines, hrange⟩
  · rintro ⟨node, hnode, hfolds, hlines, hrange⟩
    exact ⟨_, ⟨node, ⟨hnode, hfolds⟩, rfl⟩, (hmultiline node.span).2 hlines, hrange⟩

theorem mem_runs_linesOf : run ∈ runs 0 none (linesOf text) ↔
    CommentsUpTo (linesOf text) run ∧ ¬CommentAt (linesOf text) (run.last + 1) := by
  have hstart : OpenBefore (linesOf text) 0 none := fun n hn => absurd hn (Nat.succ_ne_zero n)
  rw [mem_runs_iff (fun k => by rw [Nat.zero_add]) hstart]
  exact and_iff_left (Nat.zero_le _)

theorem mem_comments : range ∈ comments text ↔
    ∃ first last line, CommentRun text first last ∧ IsLine text last line ∧
      ⟨⟨⟨first, 0⟩, ⟨last, size line⟩⟩, true⟩ = range := by
  unfold comments
  simp only [List.mem_filterMap, Option.ite_none_right_eq_some, Option.some_inj, mem_runs_linesOf]
  constructor
  · rintro ⟨run, ⟨⟨hle, hcomments, hearlier, line, hline, hwidth⟩, hlater⟩, hlt, rfl⟩
    rw [commentAt_linesOf] at hcomments hearlier hlater
    exact ⟨run.first, run.last, line, ⟨hlt, hcomments, hearlier, hlater⟩,
      getElem?_linesOf.1 hline, by rw [hwidth]⟩
  · rintro ⟨first, last, line, ⟨hlt, hcomments, hearlier, hlater⟩, hline, rfl⟩
    rw [← commentAt_linesOf] at hcomments hearlier hlater
    have hrun : CommentsUpTo (linesOf text) ⟨first, last, size line⟩ :=
      ⟨Nat.le_of_lt hlt, hcomments, hearlier, line, getElem?_linesOf.2 hline, rfl⟩
    exact ⟨⟨first, last, size line⟩, ⟨hrun, hlater⟩, hlt, rfl⟩

theorem mem_candidates :
    range ∈ regions root (.ofText text) ++ comments text ↔ Foldable root text range := by
  rw [List.mem_append, mem_regions, mem_comments]
  constructor
  · rintro (⟨node, hnode, hfolds, hlines, rfl⟩ | ⟨first, last, line, hrun, hline, rfl⟩)
    · exact .construct hnode hfolds hlines
    · exact .comments hrun hline
  · rintro (⟨hnode, hfolds, hlines⟩ | ⟨hrun, hline⟩)
    · exact .inl ⟨_, hnode, hfolds, hlines, rfl⟩
    · exact .inr ⟨_, _, _, hrun, hline, rfl⟩

theorem Foldable.lt (h : Foldable root text range) :
    range.lines.start.line < range.lines.stop.line := by
  cases h with
  | construct _ _ hlines =>
    simp only [LineIndex.lineSpan, LineIndex.line_position]
    exact hlines
  | comments hrun _ => exact hrun.several

/-! ## Choice -/

theorem before_iff : before a b = true ↔ a.lines.start.line < b.lines.start.line ∨
    a.lines.start.line = b.lines.start.line ∧ b.lines.stop.line ≤ a.lines.stop.line := by
  simp [before]

theorem mergeSort_before (ranges : List FoldingRange) :
    (ranges.mergeSort before).Pairwise fun a b => before a b = true := by
  refine List.pairwise_mergeSort (fun a b c hab hbc => ?_) (fun a b => ?_) ranges
  · rw [before_iff] at *
    omega
  · rw [Bool.or_eq_true, before_iff, before_iff]
    omega

theorem firstPerLine_sublist (ranges : List FoldingRange) :
    (firstPerLine ranges).Sublist ranges := by
  fun_induction firstPerLine ranges with
  | case1 => exact .slnil
  | case2 range => exact .refl _
  | case3 a b rest _ ih => exact ih.trans ((List.sublist_cons_self b rest).cons_cons a)
  | case4 a b rest _ ih => exact ih.cons_cons a

/-- At most one region is chosen on a line. -/
theorem firstPerLine_pairwise (h : ranges.Pairwise fun a b => before a b = true) :
    (firstPerLine ranges).Pairwise fun a b => a.lines.start.line < b.lines.start.line := by
  fun_induction firstPerLine ranges with
  | case1 => exact .nil
  | case2 range => exact List.pairwise_singleton _ _
  | case3 a b rest _ ih => exact ih (h.sublist ((List.sublist_cons_self b rest).cons_cons a))
  | case4 a b rest hne ih =>
    obtain ⟨ha, hrest⟩ := List.pairwise_cons.1 h
    have hab := before_iff.1 (ha b List.mem_cons_self)
    refine List.pairwise_cons.2 ⟨fun c hc => ?_, ih hrest⟩
    rcases List.mem_cons.1 ((firstPerLine_sublist _).subset hc) with rfl | hc
    · omega
    · have hbc := before_iff.1 ((List.pairwise_cons.1 hrest).1 c hc)
      omega

/-- The region that is chosen on a line reaches as far as any of the line. -/
theorem exists_mem_firstPerLine (h : ranges.Pairwise fun a b => before a b = true)
    (hrange : range ∈ ranges) : ∃ chosen ∈ firstPerLine ranges,
      chosen.lines.start.line = range.lines.start.line ∧
      range.lines.stop.line ≤ chosen.lines.stop.line := by
  fun_induction firstPerLine ranges generalizing range with
  | case1 => cases hrange
  | case2 a => exact ⟨a, List.mem_singleton_self a, by rw [List.mem_singleton.1 hrange],
      by rw [List.mem_singleton.1 hrange]⟩
  | case3 a b rest heq ih =>
    have hab := before_iff.1 ((List.pairwise_cons.1 h).1 b List.mem_cons_self)
    have hsorted := h.sublist ((List.sublist_cons_self b rest).cons_cons a)
    rcases List.mem_cons.1 hrange with rfl | hrange
    · exact ih hsorted List.mem_cons_self
    rcases List.mem_cons.1 hrange with rfl | hrange
    · -- The region in front of it starts on the same line and reaches at least as far.
      obtain ⟨chosen, hchosen, hstart, hstop⟩ := ih hsorted List.mem_cons_self
      exact ⟨chosen, hchosen, hstart.trans heq, by omega⟩
    · exact ih hsorted (List.mem_cons_of_mem _ hrange)
  | case4 a b rest hne ih =>
    rcases List.mem_cons.1 hrange with rfl | hrange
    · exact ⟨_, List.mem_cons_self, rfl, Nat.le_refl _⟩
    · obtain ⟨chosen, hchosen, hlines⟩ := ih (List.pairwise_cons.1 h).2 hrange
      exact ⟨chosen, List.mem_cons_of_mem _ hchosen, hlines⟩

/-- Of regions by their first lines no two are on one line. -/
theorem eq_of_start_eq (h : ranges.Pairwise fun a b => a.lines.start.line < b.lines.start.line)
    (ha : a ∈ ranges) (hb : b ∈ ranges) (hline : a.lines.start.line = b.lines.start.line) :
    a = b := by
  induction h with
  | nil => cases ha
  | cons hfirst _ ih =>
    rcases List.mem_cons.1 ha with rfl | harest
    · rcases List.mem_cons.1 hb with rfl | hbrest
      · rfl
      · exact absurd hline (Nat.ne_of_lt (hfirst b hbrest))
    · rcases List.mem_cons.1 hb with rfl | hbrest
      · exact absurd hline.symm (Nat.ne_of_lt (hfirst a harest))
      · exact ih harest hbrest

end Folding

open Folding

/-- The regions that are chosen start on later and later lines; each of them can be folded and takes
several lines; and for each region that can be folded exactly one is chosen that starts on the
same line, and it reaches at least as far.  This holds for any tree. -/
theorem foldingRanges_outermost (root : Node) (text : String) :
    let ranges := foldingRanges root text (.ofText text)
    ranges.Pairwise (fun a b => a.lines.start.line < b.lines.start.line) ∧
      (∀ range ∈ ranges, Foldable root text range ∧
        range.lines.start.line < range.lines.stop.line) ∧
      ∀ range, Foldable root text range → ∃ chosen ∈ ranges,
        chosen.lines.start.line = range.lines.start.line ∧
        range.lines.stop.line ≤ chosen.lines.stop.line ∧
        ∀ other ∈ ranges, other.lines.start.line = range.lines.start.line → other = chosen := by
  intro ranges
  have hsorted := mergeSort_before (regions root (.ofText text) ++ comments text)
  have hpairwise : ranges.Pairwise fun a b => a.lines.start.line < b.lines.start.line :=
    firstPerLine_pairwise hsorted
  refine ⟨hpairwise, fun range hrange => ?_, fun range hrange => ?_⟩
  · have hmem := List.mem_mergeSort.1 ((firstPerLine_sublist _).subset hrange)
    have hfoldable := mem_candidates.1 hmem
    exact ⟨hfoldable, hfoldable.lt⟩
  · obtain ⟨chosen, hchosen, hstart, hstop⟩ :=
      exists_mem_firstPerLine hsorted (List.mem_mergeSort.2 (mem_candidates.2 hrange))
    exact ⟨chosen, hchosen, hstart, hstop, fun other hother hline =>
      eq_of_start_eq hpairwise hother hchosen (hline.trans hstart.symm)⟩

/-- A block can be folded, and so can a run of two comment lines in it. -/
theorem foldingRanges_outermost_comments :
    let text := "\x7b\n# a\n# b\n\x7d\n"
    let root := (parse text).root
    let block : FoldingRange := ⟨⟨⟨0, 0⟩, ⟨3, 1⟩⟩, false⟩
    let run : FoldingRange := ⟨⟨⟨1, 0⟩, ⟨2, 3⟩⟩, true⟩
    ∀ range ∈ [block, run], Foldable root text range ∧
      ∃ chosen ∈ foldingRanges root text (.ofText text),
        chosen.lines.start.line = range.lines.start.line ∧
        range.lines.stop.line ≤ chosen.lines.stop.line ∧
        ∀ other ∈ foldingRanges root text (.ofText text),
          other.lines.start.line = range.lines.start.line → other = chosen := by
  intro text root block run
  have hblock : Foldable root text block := by
    have hany : (parse text).statements.any (fun node => folds node && node.span == ⟨0, 11⟩) = true := by
      decide +kernel
    obtain ⟨node, hnode, hfound⟩ := List.any_eq_true.1 hany
    obtain ⟨hfolds, hspan⟩ := Bool.and_eq_true_iff.1 hfound
    have hwalk := Parse.mem_walk_of_mem_statements hnode (Node.mem_walk_self node)
    have hlines : block = ⟨(LineIndex.ofText text).lineSpan node.span, false⟩ := by
      rw [beq_iff_eq.1 hspan]
      decide +kernel
    rw [hlines]
    refine .construct hwalk (folds_iff.1 hfolds) ?_
    rw [beq_iff_eq.1 hspan]
    decide +kernel
  have hlines : linesOf text = ["\x7b", "# a", "# b", "\x7d"] := by
    rw [linesOf_eq]
    decide +kernel
  have hrun : run ∈ comments text := by
    rw [comments, hlines]
    decide +kernel
  have hfoldable : ∀ range ∈ [block, run], Foldable root text range := by
    rw [List.forall_mem_cons, List.forall_mem_singleton]
    exact ⟨hblock, mem_candidates.1 (List.mem_append_right _ hrun)⟩
  exact fun range hrange =>
    ⟨hfoldable range hrange, (foldingRanges_outermost root text).2.2 range (hfoldable range hrange)⟩

end ShellAnalysis
