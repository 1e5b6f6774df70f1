import ShellAnalysis.Proofs.Accounts.Parses
import ShellAnalysis.Proofs.Declarations

/-!
# Where the names of symbols stand

The name of a symbol was recorded by the parser, or it is looked for in the text
of the statement that assigns to it (`Named`).  Either way it is what stands in
the text under its span: the tree is built from the text, and a name that is
looked for is compared with the text before it is taken.  If none is found the
span is empty, at the start of the statement.

    findIdentifier text span name keyword = some found  →
      span.start ≤ found.start ∧ found.stop ≤ min span.stop (span.start + 256)
                                                              (findIdentifier_spec)

That a name lies within the construct that declares it is another matter: a name
that is missing is recorded where reading stopped, and a heredoc body can stand
between the lines of a construct.  Without either, no name reaches out of its
construct, and so none out of its symbol (`nameSpan_within`).
-/

namespace ShellAnalysis

open Text

/-! ## Looking for a name -/

namespace IdentifierSearch

variable {text name : String} {keyword : Option String} {i stop : Nat} {found : Span}

theorem byte?_of_startsName (h : ((byte? text i).map isNameStart).getD false = true) :
    ∃ b, byte? text i = some b ∧ IsAscii b := by
  cases hb : byte? text i with
  | none =>
    rw [hb] at h
    cases h
  | some b =>
    rw [hb] at h
    exact ⟨b, rfl, isAscii_of_isNameByte (Bool.or_eq_true_iff.2 (.inl h))⟩

/-- The names between two offsets lie between them, and are whole characters. -/
theorem names_between (hstop : Boundary text stop) :
    ∀ found ∈ names text i stop,
      i ≤ found.start ∧ found.start < found.stop ∧ found.stop ≤ stop ∧ Cut text found := by
  fun_induction names text i stop with
  | case1 i hlt hname last ih =>
    obtain ⟨b, hb, hascii⟩ := byte?_of_startsName hname
    have hrun : i + 1 ≤ runEnd text isNameByte (i + 1) := Heredoc.le_runEnd text isNameByte (i + 1)
    have hlast : i < last ∧ last ≤ stop := by omega
    have hcut : Boundary text last := by
      rcases Nat.le_total (runEnd text isNameByte (i + 1)) stop with hle | hle
      · have heq : last = runEnd text isNameByte (i + 1) := Nat.min_eq_left hle
        rw [heq]
        exact runEnd_boundary_of_class (fun _ => isAscii_of_isNameByte) (.succ hb hascii)
      · have heq : last = stop := Nat.min_eq_right hle
        rwa [heq]
    have hspan : (Span.upTo i last).stop = last := Span.stop_upTo (Nat.le_of_lt hlast.1)
    refine List.forall_mem_cons.2 ⟨⟨Nat.le_refl i, ?_, ?_, ?_⟩, fun found hfound => ?_⟩
    · exact Nat.lt_of_lt_of_eq hlast.1 hspan.symm
    · exact Nat.le_trans (Nat.le_of_eq hspan) hlast.2
    · exact cut_upTo (.of_byte hb hascii) hcut
    · obtain ⟨hle, hrest⟩ := ih found hfound
      exact ⟨by omega, hrest⟩
  | case2 i hlt hname ih =>
    intro found hfound
    obtain ⟨hle, hrest⟩ := ih found hfound
    exact ⟨Nat.le_of_succ_le hle, hrest⟩
  | case3 => exact nofun

/-- What is found is one of the names that were gone through, and is spelled like the one that was
looked for. -/
theorem search_spec {previous : Option Span} {spans : List Span}
    (h : search text name keyword stop previous spans = some found) :
    found ∈ spans ∧ slice text found.start found.stop = name := by
  fun_induction search text name keyword stop previous spans with
  | case1 => cases h
  | case2 _ span rest _ hmatch =>
    cases h
    exact ⟨List.mem_cons_self, beq_iff_eq.1 (Bool.and_eq_true_iff.1 hmatch).1⟩
  | case3 _ span rest _ _ ih =>
    obtain ⟨hmem, hslice⟩ := ih h
    exact ⟨List.mem_cons_of_mem _ hmem, hslice⟩

end IdentifierSearch

/-- A name that is found lies in the statement and in the window at its start, and is what stands
in the text there. -/
theorem findIdentifier_spec {text name : String} {span found : Span} {keyword : Option String}
    (h : findIdentifier text span name keyword = some found) :
    span.start ≤ found.start ∧ found.stop ≤ min span.stop (span.start + 256) ∧
      slice? text found.start found.stop = some name := by
  unfold findIdentifier at h
  simp only at h
  split at h
  · cases h
  obtain ⟨hmem, hslice⟩ := IdentifierSearch.search_spec h
  obtain ⟨hstart, hlt, hstop, hcut⟩ :=
    IdentifierSearch.names_between (floor_boundary text _) found hmem
  have hfloor := floor_le text (min (min span.stop (min span.start (size text) +
    IdentifierSearch.window)) (size text))
  -- Nothing is found from the end of the text on, so the statement starts in the text.
  unfold IdentifierSearch.window at hfloor hstop
  refine ⟨by omega, by omega, ?_⟩
  rw [hcut.slice?, hslice]

/-! ## Where a symbol has its name from -/

/-- The node assigns to the name: a mutation to a variable, or a shell assignment. -/
def Node.Assigns (v : Node) (name : String) : Prop :=
  match v.form with
  | .mutation _ targets _ _ => name ∈ targets.filterMap varName?
  | .shellAssignment assigned _ _ => assigned.text = name
  | _ => False

namespace SymbolTable

open Node Parse

variable {text : String} {limits : Limits} {index : LineIndex} {v : Node} {symbol : SymbolInfo}

/-- Where the name of a symbol comes from that a node declares. -/
inductive Named (text : String) (v : Node) (symbol : SymbolInfo) : Prop
  /-- It was recorded when the node was read. -/
  | recorded (name : Name) : name ∈ v.form.names → name.text = symbol.name →
      name.span = symbol.nameSpan → v.span = symbol.span → Named text v symbol
  /-- It is looked for in a statement that assigns to it. -/
  | searched (w : Node) (keyword : Option String) : w = v ∨ w ∈ v.form.children →
      w.span = symbol.span → w.Assigns symbol.name →
      symbol.nameSpan = (findIdentifier text w.span symbol.name keyword).getD (.empty w.start) →
      Named text v symbol

theorem declaredNames_named {keyword : DeclKeyword} {names : List TypedName} {value : Option Node}
    {span : Span} (h : symbol ∈ declaredNames index span keyword names value) :
    Named text ⟨span, .varDecl keyword names value⟩ symbol := by
  unfold declaredNames at h
  obtain ⟨typed, htyped, rfl⟩ := List.mem_map.1 h
  exact .recorded typed.name (List.mem_flatMap.2 ⟨typed, htyped, List.mem_cons_self⟩) rfl rfl rfl

theorem mutatedNames_named {keyword : MutationKeyword} {targets : List Node} {op : AssignOp}
    {value : Node} {span : Span} (h : symbol ∈ mutatedNames text index span keyword targets) :
    Named text ⟨span, .mutation keyword targets op value⟩ symbol := by
  unfold mutatedNames at h
  obtain ⟨⟨targetSpan, form⟩, htarget, hsymbol⟩ := List.mem_filterMap.1 h
  cases form with
  | var name =>
    cases hsymbol
    refine .searched _ _ (.inl rfl) rfl ?_ rfl
    exact List.mem_filterMap.2 ⟨_, htarget, rfl⟩
  | _ => cases hsymbol

theorem assignedNames_named {c : Command Node} {span : Span}
    (h : symbol ∈ assignedNames text index c) : Named text ⟨span, .command c⟩ symbol := by
  unfold assignedNames at h
  split at h
  · obtain ⟨⟨assignedSpan, form⟩, hassigned, hsymbol⟩ := List.mem_filterMap.1 h
    cases form with
    | shellAssignment name append value =>
      cases hsymbol
      refine .searched ⟨assignedSpan, .shellAssignment name append value⟩ none (.inr ?_) rfl rfl rfl
      simp [Node.form, Form.children, hassigned]
    | _ => cases hsymbol
  · cases h

/-- Every symbol that a node declares has its name from the parser or from the search. -/
theorem declared_named (h : symbol ∈ declared text index v) : Named text v symbol := by
  obtain ⟨span, form⟩ := v
  cases form with
  | callable kind name params body =>
    simp only [declared] at h
    split at h
    · cases h
    · cases List.mem_singleton.1 h
      exact .recorded name List.mem_cons_self rfl rfl rfl
  | param name type fallback group rest =>
    simp only [declared] at h
    split at h
    · cases h
    · cases List.mem_singleton.1 h
      exact .recorded name List.mem_cons_self rfl rfl rfl
  | shellFunction name body =>
    cases List.mem_singleton.1 h
    exact .recorded name List.mem_cons_self rfl rfl rfl
  | varDecl keyword names value => exact declaredNames_named h
  | mutation keyword targets op value => exact mutatedNames_named h
  | command c => exact assignedNames_named h
  | forLoop style vars iterable body =>
    obtain ⟨name, hname, rfl⟩ := List.mem_map.1 h
    exact .recorded name hname rfl rfl rfl
  | _ => cases h

/-- A symbol of a parsed text is declared by a node of its tree. -/
theorem mem_build_parse (h : symbol ∈ (build (parseWith limits text).root text).symbols) :
    ∃ v ∈ (parseWith limits text).root.walk, symbol ∈ declared text (.ofText text) v := by
  obtain ⟨found, hfound, hsymbol⟩ := List.mem_flatMap.1 h
  obtain ⟨statement, hstatement, rfl⟩ := List.mem_map.1 hfound
  rw [visit_symbols] at hsymbol
  obtain ⟨v, hv, hsymbol⟩ := List.mem_flatMap.1 hsymbol
  exact ⟨v, mem_walk_of_mem_statements hstatement (mem_walk_of_mem_tour hv), hsymbol⟩

/-- What a statement itself declares is among the symbols. -/
theorem mem_build_of_statement {root : Node} (hv : v ∈ root.statements)
    (h : symbol ∈ declared text (.ofText text) v) : symbol ∈ (build root text).symbols := by
  refine List.mem_flatMap.2 ⟨_, List.mem_map_of_mem hv, ?_⟩
  rw [visit_symbols, tour_eq]
  exact List.mem_append_left _ h

/-! ## Main result -/

/-- The name of a symbol is what stands in the text under its span, unless the symbol is an
assignment of which the name was not found; then the span is empty at its start. -/
theorem slice?_nameSpan (h : symbol ∈ (build (parseWith limits text).root text).symbols) :
    slice? text symbol.nameSpan.start symbol.nameSpan.stop = some symbol.name ∨
      symbol.nameSpan = .empty symbol.span.start ∧
        ∃ v ∈ (parseWith limits text).root.walk, v.span = symbol.span ∧ v.Assigns symbol.name := by
  obtain ⟨v, hv, hdeclared⟩ := mem_build_parse h
  cases declared_named hdeclared with
  | recorded name hname htext hspan =>
    have hslice := slice?_name hv hname
    rw [htext, hspan] at hslice
    exact .inl hslice
  | searched w keyword hw hspan hassigns hsearched =>
    cases hfound : findIdentifier text w.span symbol.name keyword with
    | some found =>
      rw [hfound, Option.getD_some] at hsearched
      rw [hsearched]
      exact .inl (findIdentifier_spec hfound).2.2
    | none =>
      rw [hfound, Option.getD_none, Node.start, hspan] at hsearched
      refine .inr ⟨hsearched, w, ?_, hspan, hassigns⟩
      rcases hw with rfl | hw
      · exact hv
      · exact mem_walk_of_child hv hw

/-- In a text without heredocs of which nothing is reported, no name reaches out of its symbol. -/
theorem nameSpan_within (hlacks : ∀ i, hasPiece text i "<<" = false)
    (hquiet : (parseWith limits text).diagnostics = [])
    (h : symbol ∈ (build (parseWith limits text).root text).symbols) :
    symbol.nameSpan.Within symbol.span := by
  obtain ⟨v, hv, hdeclared⟩ := mem_build_parse h
  cases declared_named hdeclared with
  | recorded name hname htext hname' hspan =>
    rw [← hname', ← hspan]
    exact (walk_packed hlacks hquiet v hv).names name hname
  | searched w keyword hw hspan hassigns hsearched =>
    rw [hsearched, ← hspan]
    cases hfound : findIdentifier text w.span symbol.name keyword with
    | some found =>
      obtain ⟨hstart, hstop, -⟩ := findIdentifier_spec hfound
      exact ⟨hstart, Nat.le_trans hstop (Nat.min_le_left _ _)⟩
    | none => exact ⟨Nat.le_refl _, w.start_le_stop⟩

/-- The names of symbols stand where their spans say.  What stands under such a span is the name, or
the span is empty at the start of an assignment.  A name that is looked for is found within the
first 256 bytes of the declaration or not at all.  And in a text without heredocs of which nothing
is reported every name lies within its symbol. -/
theorem build_nameSpans (text : String) (limits : Limits) :
    (∀ symbol ∈ (build (parseWith limits text).root text).symbols,
      slice? text symbol.nameSpan.start symbol.nameSpan.stop = some symbol.name ∨
        symbol.nameSpan = .empty symbol.span.start ∧
          ∃ v ∈ (parseWith limits text).root.walk,
            v.span = symbol.span ∧ v.Assigns symbol.name) ∧
    (∀ span name keyword found, findIdentifier text span name keyword = some found →
      span.start ≤ found.start ∧ found.stop ≤ min span.stop (span.start + 256)) ∧
    ((∀ i, hasPiece text i "<<" = false) → (parseWith limits text).diagnostics = [] →
      ∀ symbol ∈ (build (parseWith limits text).root text).symbols,
        symbol.nameSpan.Within symbol.span) :=
  ⟨fun _ => slice?_nameSpan,
    fun _ _ _ _ h => ⟨(findIdentifier_spec h).1, (findIdentifier_spec h).2.1⟩,
    fun hlacks hquiet _ => nameSpan_within hlacks hquiet⟩

/-- Of three targets the first follows the keyword, and the second one is not found. -/
theorem build_nameSpans_targets :
    findIdentifier "setvar a, b, c = x" ⟨0, 18⟩ "a" (some "setvar") = some ⟨7, 1⟩ ∧
    7 + 1 ≤ min 18 (0 + 256) ∧
    ∃ symbol ∈ (build (parseWith {} "setvar a, b, c = x").root "setvar a, b, c = x").symbols,
      symbol.name = "b" ∧ symbol.nameSpan = .empty 0 ∧ symbol.nameSpan.Within symbol.span := by
  obtain ⟨-, hwindow, hwithin⟩ := build_nameSpans "setvar a, b, c = x" {}
  have hfound : findIdentifier "setvar a, b, c = x" ⟨0, 18⟩ "a" (some "setvar") =
      some ⟨7, 1⟩ := by decide +kernel
  have hany : (parseWith {} "setvar a, b, c = x").root.statements.any (fun v =>
      (declared "setvar a, b, c = x" (.ofText "setvar a, b, c = x") v).any fun symbol =>
        symbol.name == "b" && symbol.nameSpan == .empty 0) = true := by decide +kernel
  obtain ⟨v, hv, hany⟩ := List.any_eq_true.1 hany
  obtain ⟨symbol, hsymbol, hnamed⟩ := List.any_eq_true.1 hany
  obtain ⟨hname, hspan⟩ := Bool.and_eq_true_iff.1 hnamed
  have hmem := mem_build_of_statement hv hsymbol
  have hlacks : ∀ i, hasPiece "setvar a, b, c = x" i "<<" = false :=
    lacks_of_forall_lt (by decide) (by decide)
  exact ⟨hfound, (hwindow _ _ _ _ hfound).2, symbol, hmem, beq_iff_eq.1 hname, beq_iff_eq.1 hspan,
    hwithin hlacks (by decide +kernel) symbol hmem⟩

end SymbolTable

end ShellAnalysis
