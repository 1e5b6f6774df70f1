import ShellAnalysis.Workspace.SourcePath
import Mathlib.Data.List.Infix

/-!
# Arguments that spell out the directory of the script

A form that stands for the directory of the script is replaced by the text of
that directory, and the argument is then read as if it had been written so
(`candidate?_form`).  That text is read once more for references, and joined to
the directory once more:

* Where the directory has no `$`, a form in front of a path changes nothing if
  and only if the directory is absolute or is `.` (`candidate?_form_same_iff`);
  any other relative directory is entered twice.
* A `$` in the directory counts as a reference, and what stands before it is lost
  (`candidate?_form_dollar`).
-/

namespace ShellAnalysis

namespace Path

variable {path parent other script : Path} {rest : String} {text piece last : List Char}
  {pieces front : List (List Char)}

/-! ## Pieces -/

theorem split_eq (text : List Char) : split text = text.splitOn '/' := by
  induction text with
  | nil => rfl
  | cons c rest ih =>
    rw [split, ih, List.splitOn_cons_eq_if_modifyHead]
    by_cases hc : c = '/'
    · simp [hc]
    · cases h : rest.splitOn '/' with
      | nil => exact absurd h (List.splitOn_ne_nil '/' rest)
      | cons piece more => simp [hc]

theorem split_append (before after : List Char) :
    split (before ++ '/' :: after) = split before ++ split after := by
  rw [split_eq, split_eq, split_eq, List.splitOn_append_cons_self]

theorem split_ne_nil (text : List Char) : split text ≠ [] := by
  rw [split_eq]
  exact List.splitOn_ne_nil '/' text

/-- No slash is left in the pieces. -/
theorem not_mem_of_mem_split (h : piece ∈ split text) : '/' ∉ piece := by
  induction text generalizing piece with
  | nil =>
    rw [List.mem_singleton.1 h]
    exact List.not_mem_nil
  | cons c rest ih =>
    rw [split] at h
    split at h
    · rcases List.mem_cons.1 h with rfl | h
      · exact List.not_mem_nil
      · exact ih h
    · rename_i hc
      obtain ⟨first, more, hrest⟩ := List.exists_cons_of_ne_nil (split_ne_nil rest)
      rw [hrest] at h ih
      rcases List.mem_cons.1 h with rfl | h
      · have hfirst := ih List.mem_cons_self
        simp [hfirst, Ne.symm hc]
      · exact ih (List.mem_cons_of_mem _ h)

/-- A text whose last piece is not empty ends in another character than a slash. -/
theorem getLast?_of_pieces (h : path.pieces.getLast? = some piece) (hne : piece ≠ []) :
    ∃ c, path.text.toList.getLast? = some c ∧ c ≠ '/' := by
  unfold Path.pieces at h
  cases hlast : path.text.toList.getLast? with
  | none =>
    rw [List.getLast?_eq_none_iff.1 hlast] at h
    cases h
    exact absurd rfl hne
  | some c =>
    refine ⟨c, rfl, ?_⟩
    rintro rfl
    obtain ⟨before, hbefore⟩ := List.getLast?_eq_some_iff.1 hlast
    rw [hbefore, split_append, List.getLast?_append] at h
    cases h
    exact hne rfl

theorem pieces_ofPieces (hne : pieces ≠ []) (hpieces : ∀ piece ∈ pieces, '/' ∉ piece) :
    (ofPieces pieces).pieces = pieces := by
  unfold Path.pieces ofPieces
  rw [String.toList_ofList, split_eq, List.splitOn_intercalate '/' hpieces hne]

theorem stepOf?_eq_none_iff : stepOf? piece = none ↔ isIdle piece := by
  unfold stepOf?
  split
  · simp_all
  · split <;> simp_all

theorem stepOf?_ne_top : stepOf? piece ≠ some .top := by
  unfold stepOf?
  split
  · simp
  · split <;> simp

/-! ## Directories of scripts -/

/-- The directory of a script; empty for a path without one. -/
def directory (script : Path) : Path := script.parent?.getD ⟨""⟩

/-- How directories are written: empty, as the top, or with a piece at the end that counts, for
which a lone `.` counts too. -/
inductive IsDirectory : Path → Prop
  | empty : IsDirectory ⟨""⟩
  | top : IsDirectory ⟨"/"⟩
  | pieces (front : List (List Char)) (last : List Char)
      (hpieces : ∀ piece ∈ front ++ [last], '/' ∉ piece) (hne : last ≠ [])
      (halone : isIdle last → front = []) : IsDirectory (ofPieces (front ++ [last]))

theorem withoutIdleEnd_eq_append (h : withoutIdleEnd pieces ≠ []) :
    ∃ front last, withoutIdleEnd pieces = front ++ [last] ∧ isIdle last = false := by
  unfold withoutIdleEnd at h ⊢
  cases hdrop : pieces.reverse.dropWhile isIdle with
  | nil => simp [hdrop] at h
  | cons last front =>
    refine ⟨front.reverse, last, List.reverse_cons, ?_⟩
    have hhead := List.head?_dropWhile_not isIdle pieces.reverse
    rw [hdrop] at hhead
    simpa using hhead

theorem mem_of_mem_withoutIdleEnd (h : piece ∈ withoutIdleEnd pieces) : piece ∈ pieces := by
  unfold withoutIdleEnd at h
  exact List.mem_reverse.1 ((List.dropWhile_sublist isIdle).subset (List.mem_reverse.1 h))

theorem isDirectory_of_parent? (h : script.parent? = some parent) : parent.IsDirectory := by
  unfold parent? at h
  split at h
  · cases h
  · rename_i first rest hpieces
    have hslash : ∀ piece ∈ first :: rest, '/' ∉ piece := by
      rw [← hpieces]
      exact fun piece hpiece => not_mem_of_mem_split hpiece
    split at h
    · split at h
      · cases h
      · cases h
        exact .empty
    · have hkept : ∀ piece ∈ withoutIdleEnd (withoutIdleEnd rest).dropLast, piece ∈ rest :=
        fun piece hpiece => mem_of_mem_withoutIdleEnd
          ((List.dropLast_sublist _).subset (mem_of_mem_withoutIdleEnd hpiece))
      split at h
      · split at h
        · cases h
          exact .top
        · rename_i hfirst
          cases h
          refine .pieces [] first (fun piece hpiece => ?_) hfirst fun _ => rfl
          rw [List.mem_singleton.1 hpiece]
          exact hslash first List.mem_cons_self
      · rename_i hsome
        cases h
        obtain ⟨front, last, hlast, hidle⟩ := withoutIdleEnd_eq_append hsome
        rw [hlast] at hkept ⊢
        refine .pieces (first :: front) last (fun piece hpiece => ?_) ?_ fun h => ?_
        · exact hslash piece (List.mem_cons.2 ((List.mem_cons.1 hpiece).imp_right (hkept piece)))
        · rintro rfl
          cases hidle
        · rw [hidle] at h
          cases h

theorem isDirectory_directory (script : Path) : script.directory.IsDirectory := by
  unfold directory
  cases h : script.parent? with
  | none => exact .empty
  | some parent => exact isDirectory_of_parent? h

/-! ## Paths from a directory on -/

/-- The path with another behind it, and a slash between them. -/
def under (path : Path) (rest : String) : Path := ⟨path.text ++ "/" ++ rest⟩

theorem pieces_under (path : Path) (rest : String) :
    (path.under rest).pieces = path.pieces ++ (Path.mk rest).pieces := by
  unfold Path.pieces under
  rw [String.toList_append, String.toList_append, List.append_assoc]
  exact split_append _ _

theorem isAbsolute_under (h : path.text ≠ "") :
    (path.under rest).isAbsolute = path.isAbsolute := by
  have htext : path.text.toList ≠ [] := by simpa using h
  obtain ⟨c, more, hc⟩ := List.exists_cons_of_ne_nil htext
  simp [isAbsolute, under, hc]

theorem steps_under (h : path.text ≠ "") :
    (path.under rest).steps = path.steps ++ (Path.mk rest).pieces.filterMap stepOf? := by
  have hhead : (path.under rest).pieces.head? = path.pieces.head? := by
    have hpieces : path.pieces ≠ [] := split_ne_nil _
    rw [pieces_under, List.head?_append_of_ne_nil _ hpieces]
  unfold steps
  rw [isAbsolute_under h, hhead, pieces_under, List.filterMap_append, List.append_assoc]

theorem top_mem_steps : PathStep.top ∈ path.steps ↔ path.isAbsolute := by
  have hnames : PathStep.top ∉ path.pieces.filterMap stepOf? := by
    intro htop
    obtain ⟨piece, -, hpiece⟩ := List.mem_filterMap.1 htop
    exact stepOf?_ne_top hpiece
  unfold steps
  rw [List.mem_append, or_iff_left hnames]
  split
  · simp_all
  · split <;> simp_all

theorem join_of_absolute (h : other.isAbsolute) : path.join other.text = other :=
  if_pos h

theorem IsDirectory.join (hpath : path.IsDirectory) (h : other.isAbsolute = false)
    (hempty : path.text ≠ "") (htop : path.text ≠ "/") :
    path.join other.text = path.under other.text := by
  cases hpath with
  | empty => exact absurd rfl hempty
  | top => exact absurd rfl htop
  | pieces front last hpieces hne halone =>
    have hlast : (ofPieces (front ++ [last])).pieces.getLast? = some last := by
      rw [pieces_ofPieces (by simp) hpieces, List.getLast?_concat]
    obtain ⟨c, hc, hslash⟩ := getLast?_of_pieces hlast hne
    rw [Path.join, if_neg (ne_true_of_eq_false h), hc]
    split
    · rename_i heq
      cases heq
    · rename_i heq
      exact absurd (Option.some.inj heq) hslash
    · rfl

/-- A relative directory goes nowhere if and only if it is `.`. -/
theorem IsDirectory.filterMap_eq_nil_iff (hpath : path.IsDirectory) (hempty : path.text ≠ "")
    (habsolute : path.isAbsolute = false) :
    path.pieces.filterMap stepOf? = [] ↔ path = ⟨"."⟩ := by
  cases hpath with
  | empty => exact absurd rfl hempty
  | top => cases habsolute
  | pieces front last hpieces hne halone =>
    constructor
    · intro hnil
      rw [pieces_ofPieces (by simp) hpieces, List.filterMap_eq_nil_iff] at hnil
      have hidle : isIdle last := stepOf?_eq_none_iff.1 (hnil last (by simp))
      have hdot : last = ['.'] := by simpa [isIdle, hne] using hidle
      rw [halone hidle, hdot]
      rfl
    · intro hdot
      rw [hdot]
      rfl

/-- The steps to a relative path are those of the directory and then its own. -/
theorem IsDirectory.steps_join (hpath : path.IsDirectory) (h : other.isAbsolute = false)
    (hempty : path.text ≠ "") :
    (path.join other.text).steps = path.steps ++ other.pieces.filterMap stepOf? := by
  by_cases htop : path.text = "/"
  · obtain rfl : path = ⟨"/"⟩ := by
      cases path
      exact congrArg Path.mk htop
    have hjoin : (Path.mk "/").join other.text = (Path.mk "").under other.text := by
      rw [Path.join, if_neg (ne_true_of_eq_false h)]
      rfl
    have habsolute : ((Path.mk "").under other.text).isAbsolute := by simp [isAbsolute, under]
    rw [hjoin, steps, if_pos habsolute, pieces_under]
    rfl
  · rw [hpath.join h hempty htop, steps_under hempty]

end Path

namespace SourcePath

variable {directory script : Path} {form rest argument : String} {pattern value text : List Char}

/-! ## Replacing -/

theorem replaceFrom_eq (pattern value : List Char) (skip : Nat) (text : List Char) :
    replaceFrom pattern value skip text = replaceAll pattern value (text.drop skip) := by
  induction text generalizing skip with
  | nil =>
    rw [List.drop_nil]
    rfl
  | cons c rest ih =>
    cases skip with
    | zero => rfl
    | succ skip => exact ih skip

/-- A text that the pattern does not occur in stays as it is. -/
theorem replaceAll_eq_self (h : ¬pattern <:+: text) : replaceAll pattern value text = text := by
  induction text with
  | nil => rfl
  | cons c rest ih =>
    have hfirst : ¬pattern.isPrefixOf (c :: rest) :=
      fun hfirst => h (List.isPrefixOf_iff_prefix.1 hfirst).isInfix
    have hrest : ¬pattern <:+: rest := fun hrest => h (List.infix_cons hrest)
    rw [replaceAll, replaceFrom, if_neg hfirst, ← replaceAll, ih hrest]

theorem replaceAll_append (h : pattern ≠ []) (rest : List Char) :
    replaceAll pattern value (pattern ++ rest) = value ++ replaceAll pattern value rest := by
  obtain ⟨c, more, rfl⟩ := List.exists_cons_of_ne_nil h
  have hfirst : (c :: more).isPrefixOf (c :: (more ++ rest)) :=
    List.isPrefixOf_iff_prefix.2 (List.prefix_append (c :: more) rest)
  rw [replaceAll, List.cons_append, replaceFrom, if_pos hfirst, replaceFrom_eq,
    List.length_cons, Nat.add_sub_cancel, List.drop_left]

/-! ## Forms -/

theorem form_chars : ∀ form ∈ scriptDirForms, '$' ∈ form.toList ∧ '/' ∉ form.toList := by
  decide +kernel

/-- No form occurs in one that stands behind it. -/
theorem forms_pairwise : scriptDirForms.Pairwise fun form later => ¬form.toList <:+: later.toList := by
  decide +kernel

/-- No form occurs in the text. -/
def Plain (text : List Char) : Prop := ∀ form ∈ scriptDirForms, ¬form.toList <:+: text

theorem plain_of_not_mem (h : '$' ∉ text) : Plain text :=
  fun form hform hoccurs => h (hoccurs.subset (form_chars form hform).1)

/-- What has no slash occurs on one side of a slash. -/
theorem infix_slash (before after : List Char) (hpattern : '/' ∉ pattern)
    (h : pattern <:+: before ++ '/' :: after) : pattern <:+: before ∨ pattern <:+: after := by
  have hnil : ∀ {front : List Char}, '/' ∉ front → front <+: '/' :: after → front = [] := by
    intro front hfront h
    rcases List.prefix_cons_iff.1 h with rfl | ⟨more, rfl, -⟩
    · rfl
    · exact absurd List.mem_cons_self hfront
  rcases List.infix_append_iff.1 h with h | h | ⟨front, back, rfl, hfront, hback⟩
  · exact .inl h
  · rcases List.infix_cons_iff.1 h with h | h
    · rw [hnil hpattern h]
      exact .inl List.nil_infix
    · exact .inr h
  · rw [hnil (fun hslash => hpattern (List.mem_append_right _ hslash)) hback, List.append_nil]
    exact .inl hfront.isInfix

theorem Plain.slash {before after : List Char} (hbefore : Plain before) (hafter : Plain after) :
    Plain (before ++ '/' :: after) := fun form hform hoccurs =>
  (infix_slash _ _ (form_chars form hform).2 hoccurs).elim (hbefore form hform) (hafter form hform)

theorem foldl_replaceAll_eq_self {forms : List String}
    (h : ∀ form ∈ forms, ¬form.toList <:+: text) :
    forms.foldl (fun text form => replaceAll form.toList value text) text = text := by
  induction forms with
  | nil => rfl
  | cons form forms ih =>
    rw [List.foldl_cons, replaceAll_eq_self (h form List.mem_cons_self)]
    exact ih fun form hform => h form (List.mem_cons_of_mem _ hform)

theorem Plain.expand (h : Plain text) : expand directory text = text := foldl_replaceAll_eq_self h

/-- The form in front of a path is replaced by the directory, and nothing else is. -/
theorem expand_form (hform : form ∈ scriptDirForms) (hdirectory : Plain directory.text.toList)
    (htext : Plain text) :
    expand directory (form.toList ++ '/' :: text) = directory.text.toList ++ '/' :: text := by
  obtain ⟨before, after, hforms⟩ := List.append_of_mem hform
  have hpairwise := forms_pairwise
  rw [hforms] at hpairwise
  have hbefore : ∀ earlier ∈ before, ¬earlier.toList <:+: form.toList ++ '/' :: text := by
    intro earlier hearlier hoccurs
    have hmem : earlier ∈ scriptDirForms := hforms ▸ List.mem_append_left _ hearlier
    rcases infix_slash _ _ (form_chars earlier hmem).2 hoccurs with hoccurs | hoccurs
    · exact (List.pairwise_append.1 hpairwise).2.2 _ hearlier _ List.mem_cons_self hoccurs
    · exact htext earlier hmem hoccurs
  have hafter : ∀ later ∈ after, ¬later.toList <:+: directory.text.toList ++ '/' :: text :=
    fun later hlater => hdirectory.slash htext later
      (hforms ▸ List.mem_append_right _ (List.mem_cons_of_mem _ hlater))
  have hne : form.toList ≠ [] := List.ne_nil_of_mem (form_chars form hform).1
  have hrest : ¬form.toList <:+: '/' :: text := fun hoccurs =>
    (infix_slash [] _ (form_chars form hform).2 hoccurs).elim
      (fun hnil => hne (List.infix_nil.1 hnil)) (htext form hform)
  unfold SourcePath.expand
  rw [hforms, List.foldl_append, foldl_replaceAll_eq_self hbefore, List.foldl_cons,
    replaceAll_append hne, replaceAll_eq_self hrest, foldl_replaceAll_eq_self hafter]

/-! ## Candidates -/

/-- The path that a text leads to when its forms are replaced. -/
def follow? (directory : Path) (text : List Char) : Option Path :=
  match afterLastDollar? text with
  | none => some (directory.join (String.ofList text))
  | some reference =>
    match (afterReference reference).dropWhile (· = '/') with
    | [] => none
    | suffix => some (directory.join (String.ofList suffix))

theorem candidate?_eq (argument : String) (script : Path) :
    candidate? argument script =
      follow? script.directory (expand script.directory argument.toList) := by
  simp only [candidate?, Path.directory]
  generalize expand _ argument.toList = text
  rfl

theorem follow?_of_not_mem (h : '$' ∉ text) :
    follow? directory text = some (directory.join (String.ofList text)) := by
  rw [follow?, afterLastDollar?, if_neg h]

theorem afterLastDollar?_append (before : List Char) {after : List Char} (h : '$' ∉ after) :
    afterLastDollar? (before ++ '$' :: after) = some after := by
  have hafter : ∀ c ∈ after.reverse, decide (c ≠ '$') = true := by
    intro c hc
    refine decide_eq_true fun heq => h ?_
    rw [← heq]
    exact List.mem_reverse.1 hc
  rw [afterLastDollar?, if_pos (by simp), List.reverse_append, List.reverse_cons,
    List.append_assoc, List.takeWhile_append_of_pos hafter]
  simp

/-- What stands before the last reference does not matter. -/
theorem follow?_append {before after : List Char} (h : '$' ∉ after) :
    follow? directory (before ++ '$' :: after) = follow? directory ('$' :: after) := by
  have hnone := afterLastDollar?_append [] h
  rw [List.nil_append] at hnone
  rw [follow?, follow?, afterLastDollar?_append before h, hnone]

theorem toList_slash (before after : String) :
    (before ++ "/" ++ after).toList = before.toList ++ '/' :: after.toList := by
  rw [String.toList_append, String.toList_append, List.append_assoc]
  rfl

/-- A form in front of a path is read as the text of the directory. -/
theorem candidate?_form (hform : form ∈ scriptDirForms)
    (hdirectory : Plain script.directory.text.toList) (hrest : Plain rest.toList) :
    candidate? (form ++ "/" ++ rest) script =
      candidate? (script.directory.text ++ "/" ++ rest) script := by
  rw [candidate?_eq, candidate?_eq, toList_slash, toList_slash,
    expand_form hform hdirectory hrest, (hdirectory.slash hrest).expand]

/-- Without references an argument is a path from the directory on. -/
theorem candidate?_of_not_mem (h : '$' ∉ argument.toList) :
    candidate? argument script = some (script.directory.join argument) := by
  rw [candidate?_eq, (plain_of_not_mem h).expand, follow?_of_not_mem h, String.ofList_toList]

/-- A `$` in the directory counts as a reference: what stands before it is lost. -/
theorem candidate?_form_dollar {before after : String} (hform : form ∈ scriptDirForms)
    (hdirectory : script.directory.text = before ++ "$" ++ after)
    (hplain : Plain script.directory.text.toList) (hafter : '$' ∉ after.toList)
    (hrest : '$' ∉ rest.toList) :
    candidate? (form ++ "/" ++ rest) script =
      follow? script.directory ('$' :: (after ++ "/" ++ rest).toList) := by
  have hreference : '$' ∉ (after ++ "/" ++ rest).toList := by
    rw [toList_slash]
    simp [hafter, hrest]
  have hspelled : script.directory.text.toList ++ '/' :: rest.toList =
      before.toList ++ '$' :: (after ++ "/" ++ rest).toList := by
    rw [hdirectory, toList_slash, String.toList_append, String.toList_append]
    simp
  rw [candidate?_eq, toList_slash, expand_form hform hplain (plain_of_not_mem hrest), hspelled,
    follow?_append hreference]

/-- The directory is `/a$b-c`. -/
theorem candidate?_dollar_directory :
    candidate? "$_this_dir/lib.ysh" ⟨"/a$b-c/main.ysh"⟩ = some ⟨"/a$b-c/-c/lib.ysh"⟩ := by
  decide +kernel

theorem candidate?_form_of_not_mem (hform : form ∈ scriptDirForms)
    (hdirectory : '$' ∉ script.directory.text.toList) (hrest : '$' ∉ rest.toList) :
    candidate? (form ++ "/" ++ rest) script =
      some (script.directory.join (script.directory.under rest).text) := by
  rw [candidate?_form hform (plain_of_not_mem hdirectory) (plain_of_not_mem hrest)]
  apply candidate?_of_not_mem
  rw [toList_slash]
  simp [hdirectory, hrest]

/-- In a directory that is absolute, a form in front of a path changes nothing. -/
theorem candidate?_form_absolute (hform : form ∈ scriptDirForms)
    (hdirectory : '$' ∉ script.directory.text.toList) (hrest : '$' ∉ rest.toList)
    (hrelative : (Path.mk rest).isAbsolute = false) (habsolute : script.directory.isAbsolute)
    (htop : script.directory.text ≠ "/") :
    candidate? (form ++ "/" ++ rest) script = candidate? rest script := by
  have hempty : script.directory.text ≠ "" := by
    intro hempty
    rw [Path.isAbsolute, hempty] at habsolute
    cases habsolute
  have hunder : (script.directory.under rest).isAbsolute := by
    rwa [Path.isAbsolute_under hempty]
  rw [candidate?_form_of_not_mem hform hdirectory hrest, candidate?_of_not_mem hrest,
    Path.join_of_absolute hunder, script.isDirectory_directory.join hrelative hempty htop]

/-- In a directory without `$`, a form in front of a path leads to the same place as the path alone
if and only if the directory is absolute or `.`. -/
theorem candidate?_form_same_iff (hform : form ∈ scriptDirForms)
    (hdirectory : '$' ∉ script.directory.text.toList) (hrest : '$' ∉ rest.toList)
    (hrelative : (Path.mk rest).isAbsolute = false) :
    ∃ spelled plain, candidate? (form ++ "/" ++ rest) script = some spelled ∧
      candidate? rest script = some plain ∧
      (spelled.same plain ↔ script.directory.isAbsolute ∨ script.directory = ⟨"."⟩) := by
  refine ⟨_, _, candidate?_form_of_not_mem hform hdirectory hrest, candidate?_of_not_mem hrest, ?_⟩
  have hwritten := script.isDirectory_directory
  generalize script.directory = parent at *
  rw [Path.same, beq_iff_eq]
  by_cases hempty : parent.text = ""
  · -- then the form leads to the top
    obtain rfl : parent = ⟨""⟩ := by
      cases parent
      exact congrArg Path.mk hempty
    have hunder : ((Path.mk "").under rest).isAbsolute := by
      simp [Path.isAbsolute, Path.under]
    have hplain : (Path.mk "").join rest = ⟨rest⟩ := by
      unfold Path.join
      rw [hrelative]
      simp
    rw [Path.join_of_absolute hunder, hplain]
    constructor
    · intro heq
      have htop := Path.top_mem_steps.2 hunder
      have hnot := Path.top_mem_steps.1 (heq ▸ htop)
      rw [hrelative] at hnot
      cases hnot
    · rintro (habsolute | hdot)
      · cases habsolute
      · exact absurd hdot (by decide)
  rw [hwritten.steps_join hrelative hempty]
  cases habsolute : parent.isAbsolute with
  | true =>
    have hunder : (parent.under rest).isAbsolute := by rw [Path.isAbsolute_under hempty, habsolute]
    rw [Path.join_of_absolute hunder]
    simp [Path.steps_under hempty]
  | false =>
    -- the directory is entered twice
    have hunder : (parent.under rest).isAbsolute = false := by
      rw [Path.isAbsolute_under hempty, habsolute]
    have hpieces : (parent.under rest).pieces.filterMap Path.stepOf? =
        parent.pieces.filterMap Path.stepOf? ++ (Path.mk rest).pieces.filterMap Path.stepOf? := by
      rw [← List.filterMap_append, ← Path.pieces_under]
    rw [hwritten.steps_join hunder hempty, hpieces, List.append_cancel_left_eq,
      List.append_left_eq_self, hwritten.filterMap_eq_nil_iff hempty habsolute]
    simp

/-- The directory is `a`. -/
theorem candidate?_relative_directory :
    candidate? "$_this_dir/lib.ysh" ⟨"a/main.ysh"⟩ = some ⟨"a/a/lib.ysh"⟩ := by
  decide +kernel

/-- So in an absolute directory the file that is found is the same, whatever the file system
answers. -/
theorem resolve?_form (fs : FileSystem) (hform : form ∈ scriptDirForms)
    (hdirectory : '$' ∉ script.directory.text.toList) (hrest : '$' ∉ rest.toList)
    (hrelative : (Path.mk rest).isAbsolute = false) (habsolute : script.directory.isAbsolute)
    (htop : script.directory.text ≠ "/") :
    resolve? fs (form ++ "/" ++ rest) script = resolve? fs rest script := by
  rw [resolve?, candidate?_form_absolute hform hdirectory hrest hrelative habsolute htop, resolve?]

end SourcePath

end ShellAnalysis
