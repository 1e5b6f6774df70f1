import ShellAnalysis.Proofs.ScriptDirectory

/-!
# Arguments with unknown variables

In front of a path, a reference to a variable that does not stand for the directory
of the script is dropped, and the path is read as if it stood alone.  In braces this
holds for every such variable (`candidate?_braced`).  Without braces it holds if and
only if the name of the variable does not begin with one of the names that stand for
the directory (`candidate?_bare_same_iff`): these are replaced wherever they occur, so
of a longer name the rest is left, and it is read as the end of the directory's own
name (`candidate?_longer_name`).
-/

namespace ShellAnalysis

namespace Path

variable {path : Path} {suffix : List Char}

/-- What has no slash belongs to the last piece of what stands in front of it. -/
theorem split_append_piece (text : List Char) (h : '/' ∉ suffix) :
    ∃ front last, split text = front ++ [last] ∧
      split (text ++ suffix) = front ++ [last ++ suffix] := by
  induction text with
  | nil =>
    refine ⟨[], [], rfl, ?_⟩
    rw [split_eq, List.nil_append, List.splitOn_eq_singleton h]
    rfl
  | cons c rest ih =>
    obtain ⟨front, last, hrest, happend⟩ := ih
    rw [List.cons_append, split, split, hrest, happend]
    by_cases hc : c = '/'
    · rw [if_pos hc, if_pos hc]
      exact ⟨[] :: front, last, rfl, rfl⟩
    · rw [if_neg hc, if_neg hc]
      cases front with
      | nil => exact ⟨[], c :: last, rfl, rfl⟩
      | cons piece more => exact ⟨(c :: piece) :: more, last, rfl, rfl⟩

theorem isAbsolute_append {more : String} (h : path.isAbsolute = true) :
    (Path.mk (path.text ++ more)).isAbsolute = true := by
  rw [isAbsolute, beq_iff_eq] at h ⊢
  rw [String.toList_append, List.head?_append, h]
  rfl

/-- A piece with another character than points is a name. -/
theorem stepOf?_of_mem {piece : List Char} {c : Char} (hmem : c ∈ piece) (hc : c ≠ '.') :
    stepOf? piece = some (.name (String.ofList piece)) := by
  have hidle : isIdle piece = false := by
    rw [isIdle, Bool.or_eq_false_iff, beq_eq_false_iff_ne, beq_eq_false_iff_ne]
    constructor <;> rintro rfl <;> simp_all
  have hup : (piece == ['.', '.']) = false := by
    rw [beq_eq_false_iff_ne]
    rintro rfl
    simp_all
  rw [stepOf?, hidle, hup]
  rfl

/-- With more behind its last piece, a path leads to another place. -/
theorem steps_append_ne {more : String} {c : Char} (habsolute : path.isAbsolute = true)
    (hslash : '/' ∉ more.toList) (hmem : c ∈ more.toList) (hc : c ≠ '.') :
    (Path.mk (path.text ++ more)).steps ≠ path.steps := by
  obtain ⟨front, last, hpieces, hmore⟩ := split_append_piece path.text.toList hslash
  rw [← String.toList_append] at hmore
  intro h
  rw [steps, steps, if_pos (isAbsolute_append habsolute), if_pos habsolute, pieces, pieces, hpieces,
    hmore, List.filterMap_append, List.filterMap_append, List.append_cancel_left_eq,
    List.append_cancel_left_eq, List.filterMap_cons,
    stepOf?_of_mem (List.mem_append_right last hmem) hc] at h
  have hlast : stepOf? last = some (.name (String.ofList (last ++ more.toList))) := by
    cases hstep : stepOf? last with
    | none => simp [hstep] at h
    | some step => simpa [hstep] using h.symm
  unfold stepOf? at hlast
  split at hlast
  · cases hlast
  · split at hlast
    · cases hlast
    · have heq : last = last ++ more.toList :=
        String.ofList_inj.1 (PathStep.name.inj (Option.some.inj hlast))
      rw [List.self_eq_append_right.1 heq] at hmem
      cases hmem

end Path

namespace SourcePath

variable {directory script : Path} {form rest name known suffix : String} {text : List Char}

/-! ## Names -/

/-- The variables that stand for the directory of the script. -/
def scriptDirNames : List String := ["_this_dir", "SCRIPT_DIR"]

/-- A letter or an underscore, and then letters, digits and underscores. -/
def IsVariable (name : String) : Prop :=
  ∃ first more, name.toList = first :: more ∧ (first.isAlpha = true ∨ first = '_') ∧
    ∀ c ∈ more, c.isAlphanum = true ∨ c = '_'

theorem IsVariable.chars (h : IsVariable name) : ∀ c ∈ name.toList, isNameChar c = true := by
  obtain ⟨first, more, hname, hfirst, hmore⟩ := h
  intro c hc
  rw [hname] at hc
  rw [isNameChar, Bool.or_eq_true, beq_iff_eq]
  rcases List.mem_cons.1 hc with rfl | hc
  · refine hfirst.imp_left fun halpha => ?_
    rw [Char.isAlphanum, halpha, Bool.true_or]
  · exact hmore c hc

theorem IsVariable.not_mem {c : Char} (h : IsVariable name) (hc : isNameChar c = false) :
    c ∉ name.toList := fun hmem => by
  rw [h.chars c hmem] at hc
  cases hc

theorem IsVariable.exists_cons (h : IsVariable name) :
    ∃ first more, name.toList = first :: more ∧ ∀ c, isNameChar c = false → first ≠ c := by
  obtain ⟨first, more, hname, -⟩ := id h
  refine ⟨first, more, hname, ?_⟩
  rintro c hc rfl
  refine h.not_mem hc ?_
  rw [hname]
  exact List.mem_cons_self

theorem IsVariable.inside_braces (h : IsVariable name) :
    ∀ c ∈ name.toList, decide (c ≠ '}') = true := by
  intro c hc
  refine decide_eq_true ?_
  rintro rfl
  exact h.not_mem (by decide) hc

theorem isVariable_of_mem : ∀ known ∈ scriptDirNames, IsVariable known := by
  simp only [scriptDirNames, List.forall_mem_cons, List.not_mem_nil, false_implies, implies_true,
    and_true]
  exact ⟨⟨'_', "this_dir".toList, rfl, by decide, by simp⟩,
    ⟨'S', "CRIPT_DIR".toList, rfl, by decide, by simp⟩⟩

/-! ## Forms in a reference -/

/-- A form is a command, or one of the names, with or without braces. -/
theorem form_cases : ∀ form ∈ scriptDirForms,
    ['$', '('] <+: form.toList ∨
      (∃ known ∈ scriptDirNames, form.toList = '$' :: '{' :: (known.toList ++ ['}'])) ∨
      ∃ known ∈ scriptDirNames, form.toList = '$' :: known.toList := by
  decide +kernel

theorem bare_mem : ∀ known ∈ scriptDirNames, "$" ++ known ∈ scriptDirForms := by
  decide +kernel

/-- Where there is one `$` in front, a form can only stand at the front. -/
theorem occurs_at_front (hform : form ∈ scriptDirForms) (htext : '$' ∉ text)
    (h : form.toList <:+: '$' :: text) : form.toList <+: '$' :: text := by
  rcases List.infix_cons_iff.1 h with hfront | hinside
  · exact hfront
  · exact absurd (hinside.subset (form_chars form hform).1) htext

/-- A form that stands in a reference without braces is one of the names, and the name of the
variable begins with it. -/
theorem bare_cases (hform : form ∈ scriptDirForms) (hname : IsVariable name)
    (h : form.toList <+: '$' :: (name.toList ++ '/' :: text)) :
    ∃ known ∈ scriptDirNames, form.toList = '$' :: known.toList ∧ known.toList <+: name.toList := by
  have hfirst : ∀ c, isNameChar c = false → ¬['$', c] <+: '$' :: (name.toList ++ '/' :: text) := by
    intro c hc hpair
    obtain ⟨first, more, hchars, hfirst⟩ := hname.exists_cons
    rw [hchars, List.cons_append, List.cons_prefix_cons, List.cons_prefix_cons] at hpair
    exact hfirst c hc hpair.2.1.symm
  rcases form_cases form hform with hcommand | ⟨known, -, hbraced⟩ | ⟨known, hknown, hbare⟩
  · exact absurd (hcommand.trans h) (hfirst '(' (by decide))
  · refine absurd (List.IsPrefix.trans ?_ h) (hfirst '{' (by decide))
    rw [hbraced]
    exact ⟨_, rfl⟩
  · refine ⟨known, hknown, hbare, ?_⟩
    rw [hbare, List.cons_prefix_cons] at h
    -- The name that is known has no slash, so it does not reach behind the variable.
    rcases List.prefix_or_prefix_of_prefix h.2 (List.prefix_append _ _) with hle | ⟨more, hmore⟩
    · exact hle
    · rw [← hmore, List.prefix_append_right_inj] at h
      rcases List.prefix_cons_iff.1 h.2 with hnil | ⟨after, hslash, -⟩
      · rw [← hmore, hnil, List.append_nil]
      · have hmem : '/' ∈ known.toList := by
          rw [← hmore, hslash]
          simp
        exact absurd hmem ((isVariable_of_mem known hknown).not_mem (by decide))

/-- A form that stands in a reference with braces is the name of the variable in braces. -/
theorem mem_of_braced (hform : form ∈ scriptDirForms) (hname : IsVariable name)
    (h : form.toList <+: '$' :: '{' :: (name.toList ++ '}' :: text)) : name ∈ scriptDirNames := by
  rcases form_cases form hform with hcommand | ⟨known, hknown, hbraced⟩ | ⟨known, hknown, hbare⟩
  · have hpair := hcommand.trans h
    rw [List.cons_prefix_cons, List.cons_prefix_cons] at hpair
    exact absurd hpair.2.1 (by decide)
  · rw [hbraced, List.cons_prefix_cons, List.cons_prefix_cons] at h
    obtain ⟨more, hmore⟩ := h.2.2
    rw [List.append_assoc] at hmore
    have htake := congrArg (List.takeWhile fun c => decide (c ≠ '}')) hmore
    rw [List.takeWhile_append_of_pos (isVariable_of_mem known hknown).inside_braces,
      List.takeWhile_append_of_pos hname.inside_braces] at htake
    have heq : known = name := String.toList_inj.1 (by simpa using htake)
    rwa [← heq]
  · obtain ⟨first, more, hchars, hfirst⟩ := (isVariable_of_mem known hknown).exists_cons
    rw [hbare, hchars, List.cons_prefix_cons, List.cons_prefix_cons] at h
    exact absurd h.2.1 (hfirst '{' (by decide))

/-! ## References that are dropped -/

theorem follow?_reference {reference : List Char} (hreference : '$' ∉ reference)
    (hafter : afterReference reference = '/' :: rest.toList)
    (hrelative : (Path.mk rest).isAbsolute = false) (hne : rest ≠ "") :
    follow? directory ('$' :: reference) = some (directory.join rest) := by
  have hlast := afterLastDollar?_append [] hreference
  rw [List.nil_append] at hlast
  obtain ⟨c, more, hchars⟩ := List.exists_cons_of_ne_nil (mt String.toList_eq_nil_iff.1 hne)
  have hc : c ≠ '/' := by
    rintro rfl
    rw [Path.isAbsolute, hchars] at hrelative
    cases hrelative
  have hdrop : ('/' :: rest.toList).dropWhile (fun c => decide (c = '/')) = c :: more := by
    rw [hchars]
    simp [hc]
  rw [follow?, hlast]
  simp only [hafter, hdrop]
  rw [← hchars, String.ofList_toList]

theorem afterReference_bare (hname : IsVariable name) :
    afterReference (name.toList ++ '/' :: text) = '/' :: text := by
  have hdrop : (name.toList ++ '/' :: text).dropWhile isNameChar = '/' :: text := by
    rw [List.dropWhile_append_of_pos hname.chars]
    rfl
  obtain ⟨first, more, hchars, hfirst⟩ := hname.exists_cons
  rw [hchars] at hdrop ⊢
  unfold afterReference
  split
  · rename_i heq
    exact absurd (List.cons.inj heq).1 (hfirst '{' (by decide))
  · rename_i heq
    exact absurd (List.cons.inj heq).1 (hfirst '(' (by decide))
  · exact hdrop

theorem afterReference_braced (hname : IsVariable name) :
    afterReference ('{' :: (name.toList ++ '}' :: text)) = text := by
  rw [afterReference, List.dropWhile_append_of_pos hname.inside_braces]
  simp

theorem toList_bare (name rest : String) :
    ("$" ++ name ++ "/" ++ rest).toList = '$' :: (name.toList ++ '/' :: rest.toList) := by
  rw [toList_slash, String.toList_append]
  rfl

theorem toList_braced (name rest : String) :
    ("$\x7b" ++ name ++ "\x7d/" ++ rest).toList =
      '$' :: '{' :: (name.toList ++ '}' :: '/' :: rest.toList) := by
  rw [String.toList_append, String.toList_append, String.toList_append, List.append_assoc,
    List.append_assoc]
  rfl

/-- In braces, a variable that does not stand for the directory is dropped. -/
theorem candidate?_braced (hname : IsVariable name) (hother : name ∉ scriptDirNames)
    (hrest : '$' ∉ rest.toList) (hrelative : (Path.mk rest).isAbsolute = false) (hne : rest ≠ "") :
    candidate? ("$\x7b" ++ name ++ "\x7d/" ++ rest) script = candidate? rest script := by
  have hreference : '$' ∉ '{' :: (name.toList ++ '}' :: '/' :: rest.toList) := by
    have hmem : '$' ∉ name.toList := hname.not_mem (by decide)
    simp [hmem, hrest]
  have hplain : Plain ('$' :: '{' :: (name.toList ++ '}' :: '/' :: rest.toList)) :=
    fun form hform hoccurs =>
      hother (mem_of_braced hform hname (occurs_at_front hform hreference hoccurs))
  rw [candidate?_eq, toList_braced, hplain.expand,
    follow?_reference hreference (afterReference_braced hname) hrelative hne,
    candidate?_of_not_mem hrest]

/-- Without braces, a variable is dropped if its name does not begin with one of the names that
stand for the directory. -/
theorem candidate?_bare (hname : IsVariable name)
    (hother : ∀ known ∈ scriptDirNames, ¬known.toList <+: name.toList)
    (hrest : '$' ∉ rest.toList) (hrelative : (Path.mk rest).isAbsolute = false) (hne : rest ≠ "") :
    candidate? ("$" ++ name ++ "/" ++ rest) script = candidate? rest script := by
  have hreference : '$' ∉ name.toList ++ '/' :: rest.toList := by
    have hmem : '$' ∉ name.toList := hname.not_mem (by decide)
    simp [hmem, hrest]
  have hplain : Plain ('$' :: (name.toList ++ '/' :: rest.toList)) := by
    intro form hform hoccurs
    obtain ⟨known, hknown, -, hbegins⟩ :=
      bare_cases hform hname (occurs_at_front hform hreference hoccurs)
    exact hother known hknown hbegins
  rw [candidate?_eq, toList_bare, hplain.expand,
    follow?_reference hreference (afterReference_bare hname) hrelative hne,
    candidate?_of_not_mem hrest]

/-! ## Longer names -/

/-- The one form that occurs, at the front, is replaced. -/
theorem expand_front (hform : form ∈ scriptDirForms)
    (hothers : ∀ other ∈ scriptDirForms, other.toList <:+: form.toList ++ text → other = form)
    (hdirectory : '$' ∉ directory.text.toList) (htext : '$' ∉ text) :
    expand directory (form.toList ++ text) = directory.text.toList ++ text := by
  obtain ⟨before, after, hforms⟩ := List.append_of_mem hform
  have hnodup : scriptDirForms.Nodup := by decide
  rw [hforms] at hnodup
  have hbefore : ∀ earlier ∈ before, ¬earlier.toList <:+: form.toList ++ text := by
    intro earlier hearlier hoccurs
    have heq := hothers earlier (hforms ▸ List.mem_append_left _ hearlier) hoccurs
    exact (List.nodup_append.1 hnodup).2.2 _ hearlier _ List.mem_cons_self heq
  have hplain : Plain (directory.text.toList ++ text) := by
    refine plain_of_not_mem ?_
    simp [hdirectory, htext]
  have hafter : ∀ later ∈ after, ¬later.toList <:+: directory.text.toList ++ text :=
    fun later hlater =>
      hplain later (hforms ▸ List.mem_append_right _ (List.mem_cons_of_mem _ hlater))
  have hne : form.toList ≠ [] := List.ne_nil_of_mem (form_chars form hform).1
  unfold SourcePath.expand
  rw [hforms, List.foldl_append, foldl_replaceAll_eq_self hbefore, List.foldl_cons,
    replaceAll_append hne, replaceAll_eq_self (plain_of_not_mem htext form hform),
    foldl_replaceAll_eq_self hafter]

/-- No name that stands for the directory begins with another one. -/
theorem eq_of_begins : ∀ known ∈ scriptDirNames, ∀ other ∈ scriptDirNames,
    (known.toList <+: other.toList ∨ other.toList <+: known.toList) → known = other := by
  decide

/-- Of a name that begins with one that stands for the directory, the rest is read as the end of
the directory's own name. -/
theorem candidate?_longer_name (hname : IsVariable (known ++ suffix))
    (hknown : known ∈ scriptDirNames) (hdirectory : '$' ∉ script.directory.text.toList)
    (habsolute : script.directory.isAbsolute = true) (hrest : '$' ∉ rest.toList) :
    candidate? ("$" ++ (known ++ suffix) ++ "/" ++ rest) script =
      some ((Path.mk (script.directory.text ++ suffix)).under rest) := by
  have hform : "$" ++ known ∈ scriptDirForms := bare_mem known hknown
  have hspelled : ("$" ++ (known ++ suffix) ++ "/" ++ rest).toList =
      ("$" ++ known).toList ++ (suffix.toList ++ '/' :: rest.toList) := by
    rw [toList_bare, String.toList_append, String.toList_append, List.append_assoc]
    rfl
  have hdollar : '$' ∉ (known ++ suffix).toList := hname.not_mem (by decide)
  have htext : '$' ∉ suffix.toList ++ '/' :: rest.toList := by
    rw [String.toList_append, List.mem_append, not_or] at hdollar
    simp [hdollar.2, hrest]
  have hothers : ∀ other ∈ scriptDirForms,
      other.toList <:+: ("$" ++ known).toList ++ (suffix.toList ++ '/' :: rest.toList) →
      other = "$" ++ known := by
    intro other hother hoccurs
    rw [← hspelled, toList_bare] at hoccurs
    have hreference : '$' ∉ (known ++ suffix).toList ++ '/' :: rest.toList := by
      rw [List.mem_append, not_or]
      exact ⟨hdollar, by simp [hrest]⟩
    obtain ⟨known', hknown', hbare, hbegins⟩ :=
      bare_cases hother hname (occurs_at_front hother hreference hoccurs)
    rw [String.toList_append] at hbegins
    obtain rfl := eq_of_begins known' hknown' known hknown
      (List.prefix_or_prefix_of_prefix hbegins (List.prefix_append _ _))
    rw [← String.toList_inj, hbare, String.toList_append]
    rfl
  have hplain : '$' ∉ script.directory.text.toList ++ (suffix.toList ++ '/' :: rest.toList) :=
    fun hmem => (List.mem_append.1 hmem).elim hdirectory htext
  have hpath : String.ofList
      (script.directory.text.toList ++ (suffix.toList ++ '/' :: rest.toList)) =
      ((Path.mk (script.directory.text ++ suffix)).under rest).text := by
    rw [← String.toList_inj, String.toList_ofList, Path.under, toList_slash, String.toList_append,
      List.append_assoc]
  have hfirst : (Path.mk (script.directory.text ++ suffix)).isAbsolute = true :=
    Path.isAbsolute_append habsolute
  have hnonempty : (Path.mk (script.directory.text ++ suffix)).text ≠ "" := by
    intro hempty
    rw [Path.isAbsolute, hempty] at hfirst
    cases hfirst
  have hunder : ((Path.mk (script.directory.text ++ suffix)).under rest).isAbsolute = true := by
    rw [Path.isAbsolute_under hnonempty, hfirst]
  rw [candidate?_eq, hspelled, expand_front hform hothers hdirectory htext,
    follow?_of_not_mem hplain, hpath, Path.join_of_absolute hunder]

/-- The directory is `/a`, and no variable `_this_dirx` stands for it. -/
theorem candidate?_this_dirx :
    candidate? "$_this_dirx/lib.ysh" ⟨"/a/main.ysh"⟩ = some ⟨"/ax/lib.ysh"⟩ := by
  decide +kernel

/-- The end of a longer name leads away from the directory. -/
theorem not_same_longer_name (hname : IsVariable (known ++ suffix)) (hsuffix : suffix ≠ "")
    (habsolute : script.directory.isAbsolute = true)
    (hrelative : (Path.mk rest).isAbsolute = false) :
    ¬((Path.mk (script.directory.text ++ suffix)).under rest).same
      (script.directory.join rest) = true := by
  intro hsame
  have hempty : script.directory.text ≠ "" := by
    intro hempty
    rw [Path.isAbsolute, hempty] at habsolute
    cases habsolute
  have hlonger : (Path.mk (script.directory.text ++ suffix)).text ≠ "" := by
    simp [hempty]
  have hplain := script.isDirectory_directory.steps_join hrelative hempty
  have hsteps := beq_iff_eq.1 hsame
  rw [Path.steps_under hlonger, hplain, List.append_cancel_right_eq] at hsteps
  have hchar : ∀ d, isNameChar d = false → d ∉ suffix.toList := by
    intro d hd hmem
    refine hname.not_mem hd ?_
    rw [String.toList_append]
    exact List.mem_append_right _ hmem
  obtain ⟨c, hmem⟩ := List.exists_mem_of_ne_nil _ (mt String.toList_eq_nil_iff.1 hsuffix)
  refine Path.steps_append_ne habsolute (hchar '/' (by decide)) hmem ?_ hsteps
  rintro rfl
  exact hchar '.' (by decide) hmem

/-- Without braces and in an absolute directory, a variable that does not stand for the directory
leads to the same place as the path alone if and only if its name does not begin with one of the
names that do. -/
theorem candidate?_bare_same_iff (hname : IsVariable name) (hother : name ∉ scriptDirNames)
    (hdirectory : '$' ∉ script.directory.text.toList)
    (habsolute : script.directory.isAbsolute = true) (hrest : '$' ∉ rest.toList)
    (hrelative : (Path.mk rest).isAbsolute = false) (hne : rest ≠ "") :
    ∃ spelled plain, candidate? ("$" ++ name ++ "/" ++ rest) script = some spelled ∧
      candidate? rest script = some plain ∧
      (spelled.same plain = true ↔ ∀ known ∈ scriptDirNames, ¬known.toList <+: name.toList) := by
  by_cases hbegins : ∀ known ∈ scriptDirNames, ¬known.toList <+: name.toList
  · have hplain : candidate? rest script = some (script.directory.join rest) :=
      candidate?_of_not_mem hrest
    exact ⟨_, _, (candidate?_bare hname hbegins hrest hrelative hne).trans hplain, hplain,
      iff_of_true (beq_self_eq_true _) hbegins⟩
  · have hknown : ∃ known ∈ scriptDirNames, known.toList <+: name.toList := by
      simpa only [not_forall, not_not, exists_prop] using hbegins
    obtain ⟨known, hknown, suffix, hsuffix⟩ := hknown
    obtain rfl : name = known ++ .ofList suffix := by
      rw [← String.toList_inj, ← hsuffix, String.toList_append, String.toList_ofList]
    have hsuffix : String.ofList suffix ≠ "" := by
      intro hempty
      rw [hempty, String.append_empty] at hother
      exact hother hknown
    exact ⟨_, _, candidate?_longer_name hname hknown hdirectory habsolute hrest,
      candidate?_of_not_mem hrest,
      iff_of_false (not_same_longer_name hname hsuffix habsolute hrelative) hbegins⟩

/-- Where the variable is dropped, the file that is found is that of the path alone, whatever the file
system answers. -/
theorem resolve?_braced (fs : FileSystem) (hname : IsVariable name) (hother : name ∉ scriptDirNames)
    (hrest : '$' ∉ rest.toList) (hrelative : (Path.mk rest).isAbsolute = false) (hne : rest ≠ "") :
    resolve? fs ("$\x7b" ++ name ++ "\x7d/" ++ rest) script = resolve? fs rest script := by
  rw [resolve?, candidate?_braced hname hother hrest hrelative hne, resolve?]

theorem resolve?_bare (fs : FileSystem) (hname : IsVariable name)
    (hother : ∀ known ∈ scriptDirNames, ¬known.toList <+: name.toList)
    (hrest : '$' ∉ rest.toList) (hrelative : (Path.mk rest).isAbsolute = false) (hne : rest ≠ "") :
    resolve? fs ("$" ++ name ++ "/" ++ rest) script = resolve? fs rest script := by
  rw [resolve?, candidate?_bare hname hother hrest hrelative hne, resolve?]

end SourcePath

end ShellAnalysis
