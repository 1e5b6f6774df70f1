import ShellAnalysis.Proofs.Declarations

/-!
# The outline and the table

A visit gives its symbols twice: in a list, where those of a node stand before
those below it, and in an outline, where those of a callable's body stand
inside it.  Flattened, the outline is the list without what parameters hold:

    flatten (visit node).outline =
      (tour of node, without what parameters hold).flatMap declared  (flatten_visit)

So a lookup of a name and the outline items of that name are the same symbols
in the same order (`outline_lookup`), apart from parameters and what stands
inside their defaults.
-/

namespace ShellAnalysis

namespace OutlineItem

/-- The symbol of an item, then those of the items in it. -/
def flatten : OutlineItem → List SymbolInfo
  | mk symbol children => symbol :: children.attach.flatMap fun ⟨child, _⟩ => flatten child
termination_by item => item
decreasing_by
  rename_i hchild
  have := List.sizeOf_lt_of_mem hchild
  simp only [mk.sizeOf_spec]
  omega

theorem flatten_mk (symbol : SymbolInfo) (children : List OutlineItem) :
    flatten ⟨symbol, children⟩ = symbol :: children.flatMap flatten := by
  rw [flatten]
  simp [List.flatMap_def]

/-- Items with nothing in them. -/
theorem flatten_leaves (symbols : List SymbolInfo) :
    (symbols.map (mk · [])).flatMap flatten = symbols := by
  induction symbols with
  | nil => rfl
  | cons symbol symbols ih =>
    rw [List.map_cons, List.flatMap_cons, flatten_mk, ih]
    rfl

end OutlineItem

namespace Node

def isParam (node : Node) : Bool :=
  match node.form with
  | .param .. => true
  | _ => false

end Node

namespace SymbolTable

open Node OutlineItem

variable {text : String} {index : LineIndex} {node : Node} {held : Bool}

/-! ## What parameters hold -/

/-- The tour, with a mark on every node that is a parameter or stands inside the default of one. -/
def markedTour (held : Bool) (node : Node) : List (Node × Bool) :=
  (node, held || node.isParam) :: (visited node).attach.flatMap fun ⟨child, _⟩ =>
    markedTour (held || node.isParam) child
termination_by node
decreasing_by exact sizeOf_lt_of_mem_visited ‹_›

theorem markedTour_eq (held : Bool) (node : Node) :
    markedTour held node = (node, held || node.isParam) ::
      (visited node).flatMap (markedTour (held || node.isParam)) := by
  rw [markedTour]
  simp [List.flatMap_def]

theorem markedTour_of_isParam (held : Bool) (hparam : node.isParam = true) :
    markedTour held node = markedTour true node := by
  rw [markedTour_eq, markedTour_eq, hparam, Bool.or_true, Bool.or_true]

theorem mem_tour_self (node : Node) : node ∈ tour node := by
  rw [tour_eq]
  exact List.mem_cons_self

theorem mem_tour_trans {v w : Node} (hw : w ∈ tour node) (hv : v ∈ tour w) : v ∈ tour node := by
  induction node using tour.induct with
  | case1 node ih =>
    rw [tour_eq] at hw
    rcases List.mem_cons.1 hw with rfl | hw
    · exact hv
    · obtain ⟨child, hchild, hw⟩ := List.mem_flatMap.1 hw
      rw [tour_eq]
      exact List.mem_cons_of_mem _ (List.mem_flatMap.2 ⟨child, hchild, ih child hchild hw⟩)

theorem map_markedTour (held : Bool) (node : Node) :
    (markedTour held node).map (·.1) = tour node := by
  induction node using tour.induct generalizing held with
  | case1 node ih =>
    have hbelow : (visited node).map (fun child =>
        (markedTour (held || node.isParam) child).map (·.1)) = (visited node).map tour :=
      List.map_congr_left fun child hchild => ih child hchild _
    rw [markedTour_eq, tour_eq, List.map_cons, List.map_flatMap, List.flatMap_def, hbelow,
      List.flatMap_def]

/-- What stands inside a default is marked throughout. -/
theorem mem_markedTour_true {entry : Node × Bool} (h : entry ∈ markedTour true node) :
    entry.2 = true := by
  induction node using tour.induct with
  | case1 node ih =>
    rw [markedTour_eq, Bool.true_or] at h
    rcases List.mem_cons.1 h with rfl | h
    · rfl
    · obtain ⟨child, hchild, h⟩ := List.mem_flatMap.1 h
      exact ih child hchild h

theorem exists_mem_markedTour {v : Node} (held : Bool) (h : v ∈ tour node) :
    ∃ mark, (v, mark) ∈ markedTour held node := by
  rw [← map_markedTour held] at h
  obtain ⟨⟨_, mark⟩, hmem, rfl⟩ := List.mem_map.1 h
  exact ⟨mark, hmem⟩

theorem mem_markedTour_of_held {v : Node} (h : v ∈ tour node) :
    (v, true) ∈ markedTour true node := by
  obtain ⟨mark, hmem⟩ := exists_mem_markedTour true h
  rwa [show mark = true from mem_markedTour_true hmem] at hmem

theorem mem_tour_of_mem_markedTour {v : Node} {mark : Bool} (h : (v, mark) ∈ markedTour held node) :
    v ∈ tour node := by
  rw [← map_markedTour held]
  exact List.mem_map_of_mem h

/-- Parameters are marked. -/
theorem mark_of_isParam {v : Node} {mark : Bool} (h : (v, mark) ∈ markedTour held node)
    (hparam : v.isParam = true) : mark = true := by
  induction node using tour.induct generalizing held with
  | case1 node ih =>
    rw [markedTour_eq] at h
    rcases List.mem_cons.1 h with h | h
    · obtain ⟨rfl, rfl⟩ := Prod.mk.inj h
      rw [hparam, Bool.or_true]
    · obtain ⟨child, hchild, h⟩ := List.mem_flatMap.1 h
      exact ih child hchild h

/-- A mark comes from a parameter: the node itself, or one that has the node in its default. -/
theorem mem_markedTour_false {v : Node} :
    (v, true) ∈ markedTour false node ↔
      ∃ param ∈ tour node, param.isParam = true ∧ v ∈ tour param := by
  induction node using tour.induct with
  | case1 node ih =>
    cases hparam : node.isParam with
    | true =>
      rw [markedTour_of_isParam false hparam]
      constructor
      · exact fun h => ⟨node, mem_tour_self node, hparam, mem_tour_of_mem_markedTour h⟩
      · rintro ⟨param, hmem, -, hv⟩
        exact mem_markedTour_of_held (mem_tour_trans hmem hv)
    | false =>
      rw [markedTour_eq, tour_eq, hparam, Bool.false_or]
      constructor
      · intro h
        rcases List.mem_cons.1 h with h | h
        · cases h
        · obtain ⟨child, hchild, h⟩ := List.mem_flatMap.1 h
          obtain ⟨param, hmem, hfound⟩ := (ih child hchild).1 h
          exact ⟨param, List.mem_cons_of_mem _ (List.mem_flatMap.2 ⟨child, hchild, hmem⟩), hfound⟩
      · rintro ⟨param, hmem, hfound, hv⟩
        rcases List.mem_cons.1 hmem with rfl | hmem
        · rw [hparam] at hfound
          cases hfound
        · obtain ⟨child, hchild, hmem⟩ := List.mem_flatMap.1 hmem
          have hbelow := (ih child hchild).2 ⟨param, hmem, hfound, hv⟩
          exact List.mem_cons_of_mem _ (List.mem_flatMap.2 ⟨child, hchild, hbelow⟩)

/-- The symbols that the nodes of a marked tour declare, with the marks of the nodes. -/
def markedSymbols (text : String) (index : LineIndex) (nodes : List (Node × Bool)) :
    List (SymbolInfo × Bool) :=
  nodes.flatMap fun (node, held) => (declared text index node).map (·, held)

theorem map_markedSymbols (nodes : List (Node × Bool)) :
    (markedSymbols text index nodes).map (·.1) =
      (nodes.map (·.1)).flatMap (declared text index) := by
  unfold markedSymbols
  rw [List.map_flatMap, List.flatMap_map]
  congr 1
  funext entry
  rw [List.map_map]
  exact List.map_id _

/-- The symbols without a mark. -/
def unmarked (symbols : List (SymbolInfo × Bool)) : List SymbolInfo :=
  (symbols.filter (!·.2)).map (·.1)

theorem unmarked_filter (name : String) (symbols : List (SymbolInfo × Bool)) :
    unmarked (symbols.filter (·.1.name == name)) = (unmarked symbols).filter (·.name == name) := by
  unfold unmarked
  rw [List.filter_map, List.filter_filter, List.filter_filter]
  congr 2
  funext entry
  exact Bool.and_comm _ _

theorem unmarked_map (symbols : List SymbolInfo) (mark : Bool) :
    unmarked (symbols.map (·, mark)) = if mark then [] else symbols := by
  induction symbols with
  | nil => cases mark <;> rfl
  | cons symbol symbols ih =>
    cases mark with
    | true => exact ih
    | false => exact congrArg (symbol :: ·) ih

theorem unmarked_markedSymbols_cons (node : Node) (mark : Bool) (nodes : List (Node × Bool)) :
    unmarked (markedSymbols text index ((node, mark) :: nodes)) =
      (if mark then [] else declared text index node) ++
        unmarked (markedSymbols text index nodes) := by
  rw [← unmarked_map]
  unfold unmarked markedSymbols
  rw [List.flatMap_cons, List.filter_append, List.map_append]

theorem unmarked_markedSymbols_flatMap (parts : List Node) (tours : Node → List (Node × Bool)) :
    unmarked (markedSymbols text index (parts.flatMap tours)) =
      parts.flatMap fun part => unmarked (markedSymbols text index (tours part)) := by
  unfold unmarked markedSymbols
  rw [List.flatMap_assoc, List.filter_flatMap, List.map_flatMap]

/-- Nothing of a tour inside a parameter is left without its marks. -/
theorem unmarked_markedTour_true (node : Node) :
    unmarked (markedSymbols text index (markedTour true node)) = [] := by
  have hmarked : ∀ entry ∈ markedSymbols text index (markedTour true node), entry.2 = true := by
    intro entry hentry
    obtain ⟨place, hplace, hentry⟩ := List.mem_flatMap.1 hentry
    obtain ⟨symbol, -, rfl⟩ := List.mem_map.1 hentry
    exact mem_markedTour_true hplace
  unfold unmarked
  rw [List.filter_eq_nil_iff.2 fun entry hentry => by simp [hmarked entry hentry], List.map_nil]

/-- Only parameters are declared as such. -/
theorem isParam_of_mem_declarations {declaration : Declaration}
    (h : declaration ∈ node.declarations) (hkind : declaration.kind = .param) :
    node.isParam = true := by
  obtain ⟨span, form⟩ := node
  cases form with
  | callable kind name params body =>
    simp only [declarations, Node.form] at h
    split at h
    · cases h
    · cases List.mem_singleton.1 h
      cases kind <;> cases hkind
  | param => rfl
  | shellFunction name body =>
    cases List.mem_singleton.1 h
    cases hkind
  | varDecl keyword names value =>
    obtain ⟨typed, -, rfl⟩ := List.mem_map.1 h
    cases keyword <;> cases hkind
  | mutation keyword targets op value =>
    obtain ⟨name, -, rfl⟩ := List.mem_map.1 h
    cases hkind
  | command c =>
    simp only [declarations, Node.form] at h
    split at h
    · obtain ⟨assignment, -, hassignment⟩ := List.mem_filterMap.1 h
      unfold assignment? at hassignment
      split at hassignment <;> cases hassignment
      cases hkind
    · cases h
  | forLoop style vars iterable body =>
    obtain ⟨name, -, rfl⟩ := List.mem_map.1 h
    cases hkind
  | _ => cases h

/-! ## The outline -/

/-- A callable declares itself or nothing. -/
theorem declared_callable (text : String) (index : LineIndex) (span : Span) (kind : CallableKind)
    (name : Name) (params : List Node) (body : Node) :
    declared text index ⟨span, .callable kind name params body⟩ = [] ∨
      ∃ symbol, declared text index ⟨span, .callable kind name params body⟩ = [symbol] := by
  by_cases hname : name.text.isEmpty = true
  · exact .inl (if_pos hname)
  · exact .inr ⟨_, if_neg hname⟩

/-- A node that is no parameter outlines what it declares before what is outlined below it. -/
theorem flatten_assemble (below : List Found) (hparam : node.isParam = false) :
    (assemble node (declared text index node) below).outline.flatMap flatten =
      declared text index node ++ (below.flatMap (·.outline)).flatMap flatten := by
  obtain ⟨span, form⟩ := node
  have hitem (symbol : SymbolInfo) (outline : List OutlineItem) :
      [OutlineItem.mk symbol outline].flatMap flatten = [symbol] ++ outline.flatMap flatten := by
    rw [List.flatMap_singleton, flatten_mk, List.singleton_append]
  have hleaves (own : List SymbolInfo) (outline : List OutlineItem) :
      (own.map (OutlineItem.mk · []) ++ outline).flatMap flatten =
        own ++ outline.flatMap flatten := by
    rw [List.flatMap_append, flatten_leaves]
  cases form with
  | callable kind name params body =>
    rcases declared_callable text index span kind name params body with hown | ⟨symbol, hown⟩
    · rw [hown]
      rfl
    · rw [hown]
      exact hitem symbol _
  | shellFunction name body => exact hitem _ _
  | param => cases hparam
  | _ => exact hleaves _ _

/-- Parts that are outlined one after another, where this is known of each. -/
theorem flatten_visit_of {parts : List Node}
    (h : ∀ part ∈ parts, (visit text index part).outline.flatMap flatten =
      unmarked (markedSymbols text index (markedTour false part))) :
    ((parts.map (visit text index)).flatMap (·.outline)).flatMap flatten =
      unmarked (markedSymbols text index (parts.flatMap (markedTour false))) := by
  rw [unmarked_markedSymbols_flatMap, List.flatMap_map, List.flatMap_assoc, List.flatMap_def,
    List.flatMap_def]
  exact congrArg List.flatten (List.map_congr_left h)

/-- The outline of a node, flattened: the symbols of its tour that no parameter holds. -/
theorem flatten_visit (text : String) (index : LineIndex) (node : Node) :
    (visit text index node).outline.flatMap flatten =
      unmarked (markedSymbols text index (markedTour false node)) := by
  induction node using tour.induct with
  | case1 node ih =>
    rw [visit_eq]
    cases hparam : node.isParam with
    | true =>
      have hnothing (own : List SymbolInfo) (below : List Found) :
          (assemble node own below).outline = [] := by
        obtain ⟨span, form⟩ := node
        cases form with
        | param => rfl
        | _ => cases hparam
      rw [hnothing, markedTour_of_isParam false hparam, unmarked_markedTour_true,
        List.flatMap_nil]
    | false =>
      rw [flatten_assemble _ hparam, flatten_visit_of ih, markedTour_eq, hparam,
        unmarked_markedSymbols_cons]
      rfl

theorem map_flatMap_markedTour (parts : List Node) :
    (parts.flatMap (markedTour false)).map (·.1) = parts.flatMap tour := by
  rw [List.map_flatMap]
  exact congrArg (List.flatMap · parts) (funext (map_markedTour false))

/-- For any tree, the outline, flattened, holds the symbols that no parameter holds. -/
theorem flatten_outline (root : Node) (text : String) :
    (build root text).outline.flatMap flatten =
      unmarked (markedSymbols text (.ofText text) (root.statements.flatMap (markedTour false))) :=
  flatten_visit_of fun part _ => flatten_visit text _ part

/-- For any tree, a lookup gives the symbols of the name along the tours of the statements, and
the outline, flattened, gives those of them that are no parameters and that no default holds. -/
theorem outline_lookup (root : Node) (text name : String) :
    let found := (markedSymbols text (.ofText text)
      (root.statements.flatMap (markedTour false))).filter (·.1.name == name)
    (build root text).lookup name = found.map (·.1) ∧
      ((build root text).outline.flatMap flatten).filter (·.name == name) = unmarked found ∧
      ∀ entry ∈ found, entry.1.kind = .param → entry.2 = true := by
  intro found
  refine ⟨?_, ?_, ?_⟩
  · rw [lookup, build_symbols, ← map_flatMap_markedTour, ← map_markedSymbols, List.filter_map]
    rfl
  · rw [flatten_outline, ← unmarked_filter]
  · intro entry hentry hkind
    obtain ⟨⟨node, mark⟩, hmarked, hentry⟩ := List.mem_flatMap.1 (List.mem_filter.1 hentry).1
    obtain ⟨symbol, hsymbol, rfl⟩ := List.mem_map.1 hentry
    have hdeclaration : symbol.declaration ∈ node.declarations := by
      rw [← declared_declarations text (.ofText text)]
      exact List.mem_map_of_mem hsymbol
    obtain ⟨part, -, hmarked⟩ := List.mem_flatMap.1 hmarked
    exact mark_of_isParam hmarked (isParam_of_mem_declarations hdeclaration hkind)

end SymbolTable

end ShellAnalysis
