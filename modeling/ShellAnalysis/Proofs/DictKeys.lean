import ShellAnalysis.Proofs.NameSpans

/-!
# The keys of a symbol

A constant that is alone in its declaration and has a dict literal as its value
is a symbol with keys, and no other symbol has any.  The keys are the bare and
the plainly quoted ones of the entries of that literal.  Of a key that stands
there more than once the first counts (`FirstOf`), and computed keys, entries
that could not be read, and dicts inside the literal do not count at all.

    keys are behind the name, in the declaration, and spelled like the text
                                                                   (KeysOf)
    a symbol has keys iff it is such a constant                (build_keys)

A name and a key in one construct are no nodes, so the shape of the tree alone
does not say which of them comes first.  It is noted when the construct is read
(`Form.Keyed`), however much of the literal is missing by then.
-/

namespace ShellAnalysis

open Text

namespace Node

/-- The key of an entry stands for a name: it is bare, or a string of one piece of text or none. -/
inductive LiteralKey : DictKey Node → Name → Prop
  | bare (name : Name) : LiteralKey (.name name) name
  | blank (style : StringStyle) (span : Span) :
    LiteralKey (.quoted ⟨span, .stringLit style []⟩) ⟨"", span⟩
  | quoted (style : StringStyle) (span piece : Span) (t : String) :
    LiteralKey (.quoted ⟨span, .stringLit style [⟨piece, .text t⟩]⟩) ⟨t, piece⟩

theorem literalKey?_eq_some_iff {key : DictKey Node} {name : Name} :
    literalKey? key = some name ↔ LiteralKey key name := by
  constructor
  · intro h
    unfold literalKey? at h
    split at h
    · cases h
      exact .bare _
    · cases h
      exact .blank _ _
    · cases h
      exact .quoted ..
    · cases h
  · rintro (_ | _ | _) <;> rfl

theorem entryKey?_eq_some_iff {v : Node} {name : Name} :
    v.entryKey? = some name ↔ ∃ key value, v.form = .dictEntry key value ∧ LiteralKey key name := by
  obtain ⟨span, form⟩ := v
  cases form with
  | dictEntry key value =>
    refine literalKey?_eq_some_iff.trans ⟨fun h => ⟨key, value, rfl, h⟩, ?_⟩
    rintro ⟨_, _, hform, h⟩
    cases hform
    exact h
  | _ => exact iff_of_false nofun (by rintro ⟨_, _, hform, -⟩; cases hform)

/-- The names are the literal keys of those of the entries that have one, in order. -/
inductive EntryKeys : List Node → List Name → Prop
  | nil : EntryKeys [] []
  | literal {entry : Node} {entries : List Node} {key : DictKey Node} {value : Option Node} {name : Name}
      {names : List Name} : entry.form = .dictEntry key value → LiteralKey key name →
    EntryKeys entries names → EntryKeys (entry :: entries) (name :: names)
  | other {entry : Node} {entries : List Node} {names : List Name} :
    (∀ key value name, entry.form = .dictEntry key value → ¬ LiteralKey key name) →
    EntryKeys entries names → EntryKeys (entry :: entries) names

theorem entryKeys_filterMap (entries : List Node) :
    EntryKeys entries (entries.filterMap entryKey?) := by
  induction entries with
  | nil => exact .nil
  | cons entry entries ih =>
    cases hkey : entry.entryKey? with
    | none =>
      rw [List.filterMap_cons_none hkey]
      refine .other (fun key value name hform hliteral => ?_) ih
      cases hkey.symm.trans (entryKey?_eq_some_iff.2 ⟨key, value, hform, hliteral⟩)
    | some name =>
      rw [List.filterMap_cons_some hkey]
      obtain ⟨key, value, hform, hliteral⟩ := entryKey?_eq_some_iff.1 hkey
      exact .literal hform hliteral ih

/-- The node declares one constant, and its value is the dict literal with these entries. -/
def DictConst (v : Node) (typed : TypedName) (entries : List Node) : Prop :=
  ∃ span, v.form = .varDecl .const [typed] (some ⟨span, .dict entries⟩)

end Node

namespace SymbolTable

open Node Parse

variable {text : String} {limits : Limits} {index : LineIndex} {names : List Name}
  {keys : List KeyInfo} {v : Node} {symbol : SymbolInfo} {typed : TypedName} {entries : List Node}

/-! ## The first of each key -/

/-- The keys are those of the names, in order and each once, and stand where the first name with
their text stands. -/
structure FirstOf (index : LineIndex) (names : List Name) (keys : List KeyInfo) : Prop where
  texts : keys.map (·.key) = (names.map (·.text)).eraseDups
  first : ∀ key ∈ keys, names.find? (·.text == key.key) = some ⟨key.key, key.span⟩
  lines : ∀ key ∈ keys, key.lines = index.lineSpan key.span

theorem FirstOf.mem (h : FirstOf index names keys) {key : KeyInfo} (hkey : key ∈ keys) :
    (⟨key.key, key.span⟩ : Name) ∈ names :=
  List.mem_of_find?_eq_some (h.first key hkey)

theorem FirstOf.any_eq_true (h : FirstOf index names keys) {t : String} :
    keys.any (·.key == t) = true ↔ t ∈ names.map (·.text) := by
  rw [← List.mem_eraseDups, ← h.texts, List.any_eq_true, List.mem_map]
  simp only [beq_iff_eq]

/-- A name whose text is there already changes nothing. -/
theorem FirstOf.again (h : FirstOf index names keys) {name : Name}
    (hthere : name.text ∈ names.map (·.text)) : FirstOf index (names ++ [name]) keys where
  texts := by
    rw [List.map_append, List.map_singleton, List.eraseDups_append, List.cons_removeAll,
      List.contains_iff_mem.2 hthere, if_neg (by decide), List.nil_removeAll, h.texts]
    exact (List.append_nil _).symm
  first := fun key hkey => by rw [List.find?_append, h.first key hkey, Option.some_or]
  lines := h.lines

/-- A name with a new text is one more key. -/
theorem FirstOf.push (h : FirstOf index names keys) {name : Name}
    (hnew : name.text ∉ names.map (·.text)) :
    FirstOf index (names ++ [name])
      (keys ++ [⟨name.text, name.span, index.lineSpan name.span⟩]) where
  texts := by
    rw [List.map_append, List.map_append, List.map_singleton, List.map_singleton,
      List.eraseDups_append, List.cons_removeAll, if_pos (by simpa using hnew),
      List.nil_removeAll, h.texts]
    rfl
  first := by
    have hnone : names.find? (·.text == name.text) = none := by
      refine List.find?_eq_none.2 fun other hother heq => hnew ?_
      exact beq_iff_eq.1 heq ▸ List.mem_map_of_mem hother
    rw [List.forall_mem_append, List.forall_mem_singleton, List.find?_append, hnone,
      Option.none_or]
    refine ⟨fun key hkey => ?_, List.find?_cons_of_pos (beq_self_eq_true _)⟩
    rw [List.find?_append, h.first key hkey, Option.some_or]
  lines := by
    rw [List.forall_mem_append, List.forall_mem_singleton]
    exact ⟨h.lines, rfl⟩

theorem FirstOf.addKey (h : FirstOf index names keys) (name : Name) :
    FirstOf index (names ++ [name])
      (addKey keys ⟨name.text, name.span, index.lineSpan name.span⟩) := by
  unfold SymbolTable.addKey
  split
  · rename_i hthere
    exact h.again (h.any_eq_true.1 hthere)
  · rename_i hnew
    exact h.push (mt h.any_eq_true.2 hnew)

theorem FirstOf.foldl (h : FirstOf index names keys) (rest : List Name) :
    FirstOf index (names ++ rest) (rest.foldl (fun keys name =>
      SymbolTable.addKey keys ⟨name.text, name.span, index.lineSpan name.span⟩) keys) := by
  induction rest generalizing names keys with
  | nil => rwa [List.append_nil]
  | cons name rest ih =>
    rw [List.append_cons]
    exact ih (h.addKey name)

/-- A dict literal has keys, those of its entries. -/
theorem literalKeys?_dict (index : LineIndex) (span : Span) (entries : List Node) :
    ∃ keys, literalKeys? index ⟨span, .dict entries⟩ = some keys ∧
      FirstOf index (entries.filterMap entryKey?) keys := by
  have hempty : FirstOf index [] [] := ⟨rfl, nofun, nofun⟩
  refine ⟨_, ?_, hempty.foldl (entries.filterMap entryKey?)⟩
  simp only [literalKeys?]
  congr 3
  funext entry
  obtain ⟨_, form⟩ := entry
  cases form <;> rfl

theorem exists_dict_of_literalKeys? {value : Node}
    (h : (literalKeys? index value).isSome = true) :
    ∃ span entries, value = ⟨span, .dict entries⟩ := by
  obtain ⟨span, form⟩ := value
  cases form with
  | dict entries => exact ⟨span, entries, rfl⟩
  | _ => cases h

/-! ## Symbols with keys -/

/-- Only a constant with a dict literal is declared with keys. -/
theorem dictConst_of_keys (h : symbol ∈ declared text index v)
    (hkeys : symbol.keys.isSome = true) : ∃ typed entries, v.DictConst typed entries := by
  obtain ⟨span, form⟩ := v
  cases form with
  | callable kind name params body =>
    simp only [declared] at h
    split at h
    · cases h
    · cases List.mem_singleton.1 h
      cases hkeys
  | param name type fallback group rest =>
    simp only [declared] at h
    split at h
    · cases h
    · cases List.mem_singleton.1 h
      cases hkeys
  | shellFunction name body =>
    cases List.mem_singleton.1 h
    cases hkeys
  | varDecl keyword names value =>
    obtain ⟨typed, -, rfl⟩ := List.mem_map.1 h
    simp only at hkeys
    split at hkeys
    · obtain ⟨valueSpan, entries, rfl⟩ := exists_dict_of_literalKeys? hkeys
      exact ⟨_, entries, valueSpan, rfl⟩
    · cases hkeys
  | mutation keyword targets op value =>
    obtain ⟨⟨targetSpan, form⟩, -, hsymbol⟩ := List.mem_filterMap.1 h
    cases form with
    | var name =>
      cases hsymbol
      cases hkeys
    | _ => cases hsymbol
  | command c =>
    simp only [declared, assignedNames] at h
    split at h
    · obtain ⟨⟨assignedSpan, form⟩, -, hsymbol⟩ := List.mem_filterMap.1 h
      cases form with
      | shellAssignment name append value =>
        cases hsymbol
        cases hkeys
      | _ => cases hsymbol
    · cases h
  | forLoop style vars iterable body =>
    obtain ⟨name, -, rfl⟩ := List.mem_map.1 h
    cases hkeys
  | _ => cases h

/-- Such a constant is declared once, with the keys of the literal. -/
theorem declared_of_dictConst (text : String) (index : LineIndex) (h : v.DictConst typed entries) :
    ∃ symbol keys, declared text index v = [symbol] ∧
      symbol.declaration = ⟨typed.name.text, .const, v.span⟩ ∧ symbol.nameSpan = typed.name.span ∧
      symbol.keys = some keys ∧ FirstOf index (entries.filterMap entryKey?) keys := by
  obtain ⟨span, form⟩ := v
  obtain ⟨valueSpan, rfl⟩ := h
  obtain ⟨keys, hkeys, hfirst⟩ := literalKeys?_dict index valueSpan entries
  exact ⟨_, keys, rfl, rfl, rfl, hkeys, hfirst⟩

/-! ## Where keys stand -/

/-- A literal key lies in its entry, and is what stands in the text there if it is not empty. -/
theorem literalKey_stands {key : DictKey Node} {value : Option Node} {name : Name}
    (hv : v ∈ (parseWith limits text).root.walk) (hform : v.form = .dictEntry key value)
    (hkey : LiteralKey key name) :
    name.span.Within v.span ∧
      (name.text = "" ∨ slice? text name.span.start name.span.stop = some name.text) := by
  cases hkey with
  | bare =>
    have hkeyed := walk_keyed hv
    rw [hform] at hkeyed
    exact ⟨hkeyed, .inr (slice?_name hv (by rw [hform]; exact List.mem_cons_self))⟩
  | blank =>
    have hin := walk_within hv (by rw [hform]; exact List.mem_cons_self)
    exact ⟨hin, .inl rfl⟩
  | quoted style span piece t =>
    have hlit : (⟨span, .stringLit style [⟨piece, .text t⟩]⟩ : Node) ∈ v.form.items := by
      rw [hform]
      exact List.mem_cons_self
    have hlit' := mem_walk_of_child hv (Form.mem_children.2 (.inl hlit))
    have hpiece := mem_walk_of_child hlit' List.mem_cons_self
    have hin := (walk_within hlit' List.mem_cons_self).trans (walk_within hv hlit)
    exact ⟨hin, .inr (slice?_spelling hpiece rfl)⟩

/-- The literal keys of a constant stand behind its name and in its declaration. -/
theorem entryKey_stands {key : Name} (hv : v ∈ (parseWith limits text).root.walk)
    (h : v.DictConst typed entries) (hkey : key ∈ entries.filterMap entryKey?) :
    typed.name.span.stop < key.span.start ∧ key.span.Within v.span ∧
      (key.text = "" ∨ slice? text key.span.start key.span.stop = some key.text) := by
  obtain ⟨valueSpan, hform⟩ := h
  obtain ⟨entry, hentry, hsome⟩ := List.mem_filterMap.1 hkey
  obtain ⟨dictKey, fallback, hentryForm, hliteral⟩ := entryKey?_eq_some_iff.1 hsome
  have hbehind := walk_keyed hv
  rw [hform] at hbehind
  have hdict : (⟨valueSpan, .dict entries⟩ : Node) ∈ v.form.items := by
    rw [hform]
    exact List.mem_cons_self
  have hdict' := mem_walk_of_child hv (Form.mem_children.2 (.inl hdict))
  have hin := (walk_within hdict' hentry).trans (walk_within hv hdict)
  obtain ⟨hstands, hspelled⟩ :=
    literalKey_stands (mem_walk_of_child hdict' hentry) hentryForm hliteral
  exact ⟨hbehind typed List.mem_cons_self key hkey, hstands.trans hin, hspelled⟩

/-! ## Main result -/

/-- The keys of a symbol are the literal ones of these entries, the first of each.  They stand
behind the name of the symbol and in its declaration, and what stands in the text there is the key
or the key is empty. -/
structure KeysOf (text : String) (entries : List Node) (symbol : SymbolInfo)
    (keys : List KeyInfo) : Prop where
  literal : ∃ names, EntryKeys entries names ∧ FirstOf (.ofText text) names keys
  behind : ∀ key ∈ keys, symbol.nameSpan.stop < key.span.start
  within : ∀ key ∈ keys, key.span.Within symbol.span
  spelled : ∀ key ∈ keys,
    key.key = "" ∨ slice? text key.span.start key.span.stop = some key.key

/-- A symbol of a parsed text has keys if and only if it is that of a constant which is alone in its
declaration and has a dict literal as its value.  The keys are those of the literal. -/
theorem build_keys (text : String) (limits : Limits) :
    (build (parseWith limits text).root text).symbols =
      ((parseWith limits text).root.statements.flatMap tour).flatMap
        (declared text (.ofText text)) ∧
    ∀ v ∈ (parseWith limits text).root.statements.flatMap tour,
      (∀ symbol ∈ declared text (.ofText text) v, symbol.keys.isSome = true →
        ∃ typed entries, v.DictConst typed entries) ∧
      ∀ typed entries, v.DictConst typed entries →
        ∃ symbol keys, declared text (.ofText text) v = [symbol] ∧
          symbol.declaration = ⟨typed.name.text, .const, v.span⟩ ∧
          symbol.nameSpan = typed.name.span ∧ symbol.keys = some keys ∧
          KeysOf text entries symbol keys := by
  refine ⟨build_symbols _ text, fun v hmem => ⟨fun _ => dictConst_of_keys, ?_⟩⟩
  intro typed entries hconst
  obtain ⟨statement, hstatement, htour⟩ := List.mem_flatMap.1 hmem
  have hv := mem_walk_of_mem_statements hstatement (mem_walk_of_mem_tour htour)
  obtain ⟨symbol, keys, hdeclared, hdeclaration, hname, hkeys, hfirst⟩ :=
    declared_of_dictConst text (.ofText text) hconst
  have hspan : symbol.span = v.span := congrArg (·.span) hdeclaration
  have hstands := fun key (hkey : key ∈ keys) => entryKey_stands hv hconst (hfirst.mem hkey)
  have hliteral : ∃ names, EntryKeys entries names ∧ FirstOf (.ofText text) names keys :=
    ⟨_, entryKeys_filterMap entries, hfirst⟩
  refine ⟨symbol, keys, hdeclared, hdeclaration, hname, hkeys, hliteral, ?_, ?_, ?_⟩
  · exact fun key hkey => hname ▸ (hstands key hkey).1
  · exact fun key hkey => hspan ▸ (hstands key hkey).2.1
  · exact fun key hkey => (hstands key hkey).2.2

/-- A dict literal with the key `a` twice, a quoted key, an expression as a key and an empty key. -/
def keysScript : String := "const d = \x7ba: \x7bb\x7d, 'q': 1, [c]: 2, '', a\x7d"

/-- Neither the expression nor the key `b` of the dict inside counts. -/
theorem build_keys_script :
    ∃ v ∈ (parseWith {} keysScript).root.statements.flatMap tour, ∃ entries symbol keys,
      symbol.keys = some keys ∧ keys.map (·.key) = ["a", "q", ""] ∧
      KeysOf keysScript entries symbol keys := by
  have hany : (parseWith {} keysScript).root.statements.any (fun v =>
      (declared keysScript (.ofText keysScript) v).any fun symbol =>
        symbol.keys.map (·.map (·.key)) == some ["a", "q", ""]) = true := by
    decide +kernel
  obtain ⟨v, hv, hany⟩ := List.any_eq_true.1 hany
  obtain ⟨symbol, hsymbol, hkeys⟩ := List.any_eq_true.1 hany
  obtain ⟨keys, hkeys, htexts⟩ := Option.map_eq_some_iff.1 (beq_iff_eq.1 hkeys)
  have htour := List.mem_flatMap_of_mem hv (tour_eq v ▸ List.mem_cons_self)
  obtain ⟨hconst, hhas⟩ := (build_keys keysScript {}).2 v htour
  obtain ⟨typed, entries, hconst⟩ := hconst symbol hsymbol (by rw [hkeys]; rfl)
  obtain ⟨symbol', keys', hdeclared, -, -, hkeys', hkeysOf⟩ := hhas typed entries hconst
  rw [hdeclared, List.mem_singleton] at hsymbol
  subst hsymbol
  cases hkeys.symm.trans hkeys'
  exact ⟨v, htour, entries, symbol, keys, hkeys, htexts, hkeysOf⟩

end SymbolTable

end ShellAnalysis
