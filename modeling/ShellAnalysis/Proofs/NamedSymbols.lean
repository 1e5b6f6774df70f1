import ShellAnalysis.Proofs.NameSpans
import ShellAnalysis.Proofs.Outline

/-!
# Symbols without a name

Where a name is missing the parser records an empty one.  No empty name gets
into a list of variables, and the pass over the tree leaves out callables and
parameters that have none.  Shell functions are left: after `function` without a
name behind it the tree holds a function with an empty one, and so does the
table.  Every other symbol has a name (`build_named`), and so has every other
item of the outline, as the outline holds nothing that is not in the table
(`flatten_outline_sublist`).
-/

namespace ShellAnalysis

/-- The node is a shell function of which the name is missing. -/
def Node.IsNamelessFunction (v : Node) : Prop :=
  ∃ name body, v.form = .shellFunction name body ∧ name.text = ""

namespace SymbolTable

open Node OutlineItem Parse

variable {text : String} {limits : Limits} {v : Node} {symbol : SymbolInfo}

/-- Only a shell function declares the empty name, in a tree that was built from a text. -/
theorem declarations_named {d : Declaration} (hv : v.Fine text)
    (hparts : ∀ c ∈ v.form.children, c.Fine text) (hd : d ∈ v.declarations) (hname : d.name = "") :
    v.IsNamelessFunction ∧ d = ⟨"", .func, v.span⟩ := by
  obtain ⟨span, form⟩ := v
  cases form with
  | callable kind name params body =>
    simp only [declarations, Node.form] at hd
    split at hd
    · cases hd
    · rename_i hne
      cases List.mem_singleton.1 hd
      exact absurd hname hne
  | param name type fallback group rest =>
    simp only [declarations, Node.form] at hd
    split at hd
    · cases hd
    · rename_i hne
      cases List.mem_singleton.1 hd
      exact absurd hname hne
  | shellFunction name body =>
    cases List.mem_singleton.1 hd
    exact ⟨⟨name, body, rfl, hname⟩, congrArg (Declaration.mk · _ _) hname⟩
  | varDecl keyword names value =>
    obtain ⟨typed, htyped, rfl⟩ := List.mem_map.1 hd
    exact absurd hname (hv.given _ (List.mem_map_of_mem htyped))
  | mutation keyword targets op value =>
    obtain ⟨name, hname', rfl⟩ := List.mem_map.1 hd
    obtain ⟨target, htarget, hvar⟩ := List.mem_filterMap.1 hname'
    have hfine : target.Fine text := hparts target (by simp [Node.form, Form.children, htarget])
    obtain ⟨targetSpan, form⟩ := target
    cases form with
    | var =>
      cases hvar
      exact absurd hname (hfine.given _ List.mem_cons_self)
    | _ => cases hvar
  | command c =>
    simp only [declarations, Node.form] at hd
    split at hd
    · obtain ⟨assigned, hassigned, hsome⟩ := List.mem_filterMap.1 hd
      have hfine : assigned.Fine text :=
        hparts assigned (by simp [Node.form, Form.children, hassigned])
      obtain ⟨assignedSpan, form⟩ := assigned
      cases form with
      | shellAssignment =>
        cases hsome
        exact absurd hname (hfine.given _ List.mem_cons_self)
      | _ => cases hsome
    · cases hd
  | forLoop style vars iterable body =>
    obtain ⟨name, hmem, rfl⟩ := List.mem_map.1 hd
    exact absurd hname (hv.given _ (List.mem_map_of_mem hmem))
  | _ => cases hd

/-- The outline, flattened, holds symbols of the table in their order. -/
theorem flatten_outline_sublist (root : Node) (text : String) :
    ((build root text).outline.flatMap flatten).Sublist (build root text).symbols := by
  rw [build_symbols, flatten_outline, ← map_flatMap_markedTour, ← map_markedSymbols]
  exact List.filter_sublist.map _

/-- A symbol of a parsed text without a name, in the table or anywhere in the outline, is that of a
shell function without one. -/
theorem build_named
    (h : symbol ∈ (build (parseWith limits text).root text).symbols ∨
      symbol ∈ (build (parseWith limits text).root text).outline.flatMap flatten)
    (hname : symbol.name = "") :
    ∃ v ∈ (parseWith limits text).root.walk,
      v.IsNamelessFunction ∧ symbol.declaration = ⟨"", .func, v.span⟩ := by
  have hsymbol : symbol ∈ (build (parseWith limits text).root text).symbols :=
    h.elim id fun houtline => (flatten_outline_sublist _ text).subset houtline
  obtain ⟨v, hv, hdeclared⟩ := mem_build_parse hsymbol
  have hd : symbol.declaration ∈ v.declarations := by
    rw [← declared_declarations text (.ofText text)]
    exact List.mem_map_of_mem hdeclared
  have hparts : ∀ c ∈ v.form.children, c.Fine text :=
    fun c hc => walk_fine (mem_walk_of_child hv hc)
  exact ⟨v, hv, declarations_named (walk_fine hv) hparts hd hname⟩

/-- A statement of which the only declaration is that of the empty name. -/
example : ((parseWith {} "function \x7b x=1; \x7d").root.statements.flatMap Node.declarations).map
    (·.name) = [""] := by
  decide +kernel

end SymbolTable

end ShellAnalysis
