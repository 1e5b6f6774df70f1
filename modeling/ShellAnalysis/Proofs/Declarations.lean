import ShellAnalysis.Proofs.Built.Parses
import ShellAnalysis.Symbol.Table

/-!
# The declarations that a symbol table holds

A visit goes through a tree in an order of its own (`SymbolTable.tour`) and
leaves some parts out (`SymbolTable.missed`): the parameters of a callable
without a name, and the default of a parameter without one.  Every other node
is visited once, and every declaration in it gives one symbol:

    the symbols are the declarations along the tour       (build_declarations)
    nothing else is left out, and nothing comes twice     (build_parse_perm)
    with every name in place nothing is left out at all   (build_parse_complete)
-/

namespace ShellAnalysis

/-- One declaring occurrence: a name, what it is declared as, and the declaring construct. -/
structure Declaration where
  name : String
  kind : SymbolKind
  span : Span
  deriving Repr, DecidableEq

/-- The declaration that a symbol stands for. -/
def SymbolInfo.declaration (symbol : SymbolInfo) : Declaration :=
  ⟨symbol.name, symbol.kind, symbol.span⟩

namespace CallableKind

def symbolKind : CallableKind → SymbolKind
  | .proc => .proc
  | .func => .func

end CallableKind

namespace DeclKeyword

def symbolKind : DeclKeyword → SymbolKind
  | .var => .var
  | .const => .const

end DeclKeyword

namespace Node

/-- The name of a plain variable. -/
def varName? : Node → Option String
  | ⟨_, .var name⟩ => some name
  | _ => none

/-- The declaration of a shell assignment. -/
def assignment? : Node → Option Declaration
  | ⟨span, .shellAssignment name _ _⟩ => some ⟨name.text, .var, span⟩
  | _ => none

/-- What a node itself declares. -/
def declarations (node : Node) : List Declaration :=
  match node.form with
  | .callable kind name _ _ =>
    if name.text = "" then [] else [⟨name.text, kind.symbolKind, node.span⟩]
  | .param name _ _ _ _ => if name.text = "" then [] else [⟨name.text, .param, node.span⟩]
  | .shellFunction name _ => [⟨name.text, .func, node.span⟩]
  | .varDecl keyword names _ =>
    names.map fun typed => ⟨typed.name.text, keyword.symbolKind, node.span⟩
  | .mutation _ targets _ _ => (targets.filterMap varName?).map fun name => ⟨name, .var, node.span⟩
  | .command c => if c.words = [] then c.assignments.filterMap assignment? else []
  | .forLoop _ vars _ _ => vars.map fun name => ⟨name.text, .var, node.span⟩
  | _ => []

/-- The parts of a node that are not visited. -/
def leftOut (node : Node) : List Node :=
  match node.form with
  | .callable _ name params _ => if name.text = "" then params else []
  | .param name _ fallback _ _ => if name.text = "" then fallback.toList else []
  | _ => []

end Node

namespace SymbolTable

open Node

variable {text : String} {index : LineIndex} {node : Node}

/-! ## Declarations of one node -/

theorem map_mutatedNames (keyword : MutationKeyword) (span : Span) (targets : List Node) :
    (mutatedNames text index span keyword targets).map (·.declaration) =
      (targets.filterMap varName?).map fun name => ⟨name, .var, span⟩ := by
  unfold mutatedNames
  rw [List.map_filterMap, List.map_filterMap]
  congr 1
  funext target
  obtain ⟨targetSpan, form⟩ := target
  cases form <;> rfl

theorem map_assignedNames (c : Command Node) :
    (assignedNames text index c).map (·.declaration) =
      if c.words = [] then c.assignments.filterMap assignment? else [] := by
  unfold assignedNames
  by_cases hwords : c.words = []
  · rw [if_pos hwords, if_pos (List.isEmpty_iff.2 hwords), List.map_filterMap]
    congr 1
    funext assignment
    obtain ⟨span, form⟩ := assignment
    cases form <;> rfl
  · rw [if_neg hwords, if_neg (mt List.isEmpty_iff.1 hwords), List.map_nil]

theorem map_declaredNames (keyword : DeclKeyword) (span : Span) (names : List TypedName)
    (value : Option Node) :
    (declaredNames index span keyword names value).map (·.declaration) =
      names.map fun typed => ⟨typed.name.text, keyword.symbolKind, span⟩ := by
  unfold declaredNames
  cases keyword <;> exact List.map_map

/-- A node gives one symbol for each of its declarations, in their order. -/
theorem declared_declarations (text : String) (index : LineIndex) (node : Node) :
    (declared text index node).map (·.declaration) = node.declarations := by
  obtain ⟨span, form⟩ := node
  cases form with
  | callable kind name params body =>
    simp only [declared, Node.declarations, Node.form, String.isEmpty_iff]
    split
    · rfl
    · cases kind <;> rfl
  | param name type fallback group rest =>
    simp only [declared, Node.declarations, Node.form, String.isEmpty_iff]
    split <;> rfl
  | varDecl keyword names value => exact map_declaredNames keyword span names value
  | mutation keyword targets op value => exact map_mutatedNames keyword span targets
  | command c => exact map_assignedNames c
  | forLoop style vars iterable body => exact List.map_map
  | _ => rfl

/-! ## The order of a visit -/

theorem sizeOf_lt_of_mem_visited {child : Node} (h : child ∈ visited node) :
    sizeOf child < sizeOf node :=
  Node.sizeOf_lt_of_mem_parts (mem_form_of_mem_visited h)

/-- The node and what is visited below it, in the order of the visit. -/
def tour (node : Node) : List Node :=
  node :: (visited node).attach.flatMap fun ⟨child, _⟩ => tour child
termination_by node
decreasing_by exact sizeOf_lt_of_mem_visited ‹_›

/-- What is below the node and not visited. -/
def missed (node : Node) : List Node :=
  node.leftOut.flatMap walk ++ (visited node).attach.flatMap fun ⟨child, _⟩ => missed child
termination_by node
decreasing_by exact sizeOf_lt_of_mem_visited ‹_›

theorem tour_eq (node : Node) : tour node = node :: (visited node).flatMap tour := by
  rw [tour]
  simp [List.flatMap_def]

theorem missed_eq (node : Node) :
    missed node = node.leftOut.flatMap walk ++ (visited node).flatMap missed := by
  rw [missed]
  simp [List.flatMap_def]

theorem visit_eq (text : String) (index : LineIndex) (node : Node) :
    visit text index node =
      assemble node (declared text index node) ((visited node).map (visit text index)) := by
  rw [visit, List.attach_map_val]

/-- Parts that are visited one after another, where this is known of each. -/
theorem visit_symbols_of {parts : List Node}
    (h : ∀ part ∈ parts,
      (visit text index part).symbols = (tour part).flatMap (declared text index)) :
    (parts.map (visit text index)).flatMap (·.symbols) =
      (parts.flatMap tour).flatMap (declared text index) := by
  rw [List.flatMap_map, List.flatMap_assoc, List.flatMap_def, List.flatMap_def]
  exact congrArg List.flatten (List.map_congr_left h)

/-- The symbols of a part of a tree are those that the nodes along the tour declare. -/
theorem visit_symbols (text : String) (index : LineIndex) (node : Node) :
    (visit text index node).symbols = (tour node).flatMap (declared text index) := by
  induction node using tour.induct with
  | case1 node ih =>
    rw [visit_eq, tour_eq, List.flatMap_cons, ← visit_symbols_of ih]
    rfl

theorem children_perm (node : Node) : node.children.Perm (visited node ++ node.leftOut) := by
  obtain ⟨span, form⟩ := node
  have hsorted : (Node.mk span form).children.Perm form.children := List.mergeSort_perm _ _
  refine hsorted.trans ?_
  cases form with
  | callable kind name params body =>
    simp only [visited, leftOut, Node.form, Form.children, String.isEmpty_iff]
    split
    · exact List.perm_append_comm
    · rw [List.append_nil]
  | param name type fallback group rest =>
    simp only [visited, leftOut, Node.form, Form.children, String.isEmpty_iff]
    split
    · exact List.Perm.refl _
    · rw [List.append_nil]
  | _ =>
    refine hsorted.symm.trans ?_
    exact List.Perm.of_eq (List.append_nil _).symm

theorem flatMap_append_perm {parts : List Node} {f g h : Node → List Node}
    (hparts : ∀ part ∈ parts, (f part).Perm (g part ++ h part)) :
    (parts.flatMap f).Perm (parts.flatMap g ++ parts.flatMap h) := by
  induction parts with
  | nil => exact .refl _
  | cons part rest ih =>
    obtain ⟨hpart, hrest⟩ := List.forall_mem_cons.1 hparts
    calc (f part ++ rest.flatMap f).Perm
          ((g part ++ h part) ++ (rest.flatMap g ++ rest.flatMap h)) := hpart.append (ih hrest)
      _ = g part ++ (h part ++ (rest.flatMap g ++ rest.flatMap h)) := List.append_assoc ..
      List.Perm _ (g part ++ (rest.flatMap g ++ (h part ++ rest.flatMap h))) :=
        .append_left _ (List.perm_append_comm_assoc ..)
      _ = (g part ++ rest.flatMap g) ++ (h part ++ rest.flatMap h) := (List.append_assoc ..).symm

/-- Every node of a tree is visited once, or it is among those that are not visited. -/
theorem walk_perm (node : Node) : node.walk.Perm (tour node ++ missed node) := by
  induction node using tour.induct with
  | case1 node ih =>
    rw [walk_eq, tour_eq, missed_eq, List.cons_append]
    refine .cons node ?_
    calc (node.children.flatMap walk).Perm ((visited node ++ node.leftOut).flatMap walk) :=
          (children_perm node).flatMap_right _
      _ = (visited node).flatMap walk ++ node.leftOut.flatMap walk := List.flatMap_append
      List.Perm _ (((visited node).flatMap tour ++ (visited node).flatMap missed) ++
          node.leftOut.flatMap walk) := (flatMap_append_perm ih).append_right _
      _ = (visited node).flatMap tour ++
          ((visited node).flatMap missed ++ node.leftOut.flatMap walk) := List.append_assoc ..
      List.Perm _ ((visited node).flatMap tour ++
          (node.leftOut.flatMap walk ++ (visited node).flatMap missed)) :=
        .append_left _ List.perm_append_comm

/-- What is missed stands in the parts that visited nodes leave out. -/
theorem mem_missed {v : Node} :
    v ∈ missed node ↔ ∃ above ∈ tour node, ∃ part ∈ above.leftOut, v ∈ part.walk := by
  induction node using tour.induct with
  | case1 node ih =>
    rw [missed_eq, tour_eq, List.mem_append, List.mem_flatMap, List.mem_flatMap]
    constructor
    · rintro (hhere | ⟨child, hchild, hv⟩)
      · exact ⟨node, List.mem_cons_self, hhere⟩
      · obtain ⟨above, habove, hpart⟩ := (ih child hchild).1 hv
        exact ⟨above, List.mem_cons_of_mem _ (List.mem_flatMap.2 ⟨child, hchild, habove⟩), hpart⟩
    · rintro ⟨above, habove, hpart⟩
      rcases List.mem_cons.1 habove with rfl | habove
      · exact .inl hpart
      · obtain ⟨child, hchild, habove⟩ := List.mem_flatMap.1 habove
        exact .inr ⟨child, hchild, (ih child hchild).2 ⟨above, habove, hpart⟩⟩

theorem mem_walk_of_mem_tour {v : Node} (h : v ∈ tour node) : v ∈ node.walk :=
  (walk_perm node).mem_iff.2 (List.mem_append_left _ h)

/-! ## The whole table -/

/-- For any tree, the table holds the symbols along the tours of its statements, in order. -/
theorem build_symbols (root : Node) (text : String) :
    (build root text).symbols =
      (root.statements.flatMap tour).flatMap (declared text (.ofText text)) :=
  visit_symbols_of fun part _ => visit_symbols text _ part

/-- For any tree, the table holds the declarations along the tours of its statements, in order. -/
theorem build_declarations (root : Node) (text : String) :
    (build root text).symbols.map (·.declaration) =
      (root.statements.flatMap tour).flatMap Node.declarations := by
  rw [build_symbols, List.map_flatMap, List.flatMap_def, List.flatMap_def]
  exact congrArg List.flatten (List.map_congr_left fun v _ => declared_declarations text _ v)

/-- A lookup gives the declarations of the name, in the same order. -/
theorem lookup_declarations (root : Node) (text name : String) :
    ((build root text).lookup name).map (·.declaration) =
      ((root.statements.flatMap tour).flatMap Node.declarations).filter (·.name == name) := by
  rw [← build_declarations, List.filter_map]
  rfl

/-- Each declaration of a parsed tree has one symbol and each symbol is of one, apart from the
declarations in parts that are left out. -/
theorem build_parse_perm (text : String) (limits : Limits) :
    ((parseWith limits text).root.walk.flatMap Node.declarations).Perm
      ((build (parseWith limits text).root text).symbols.map (·.declaration) ++
        (missed (parseWith limits text).root).flatMap Node.declarations) := by
  generalize hroot : (parseWith limits text).root = root
  rw [Parse.root_eq] at hroot
  have hdeclares : root.declarations = [] := hroot ▸ rfl
  have hvisited : (visited root).Perm root.statements := by
    rw [← hroot]
    exact List.mergeSort_perm _ _
  rw [build_declarations, ← List.flatMap_append]
  calc (root.walk.flatMap Node.declarations).Perm
        ((tour root ++ missed root).flatMap Node.declarations) := (walk_perm root).flatMap_right _
    _ = ((visited root).flatMap tour ++ missed root).flatMap Node.declarations := by
      rw [tour_eq, List.cons_append, List.flatMap_cons, hdeclares, List.nil_append]
    List.Perm _ ((root.statements.flatMap tour ++ missed root).flatMap Node.declarations) :=
      ((hvisited.flatMap_right tour).append_right _).flatMap_right _

/-- Where every callable and every parameter has its name, no declaration is without a symbol. -/
theorem build_parse_complete (text : String) (limits : Limits)
    (h : ∀ v ∈ (parseWith limits text).root.walk, v.leftOut = []) :
    ((parseWith limits text).root.walk.flatMap Node.declarations).Perm
      ((build (parseWith limits text).root text).symbols.map (·.declaration)) := by
  have hmissed : missed (parseWith limits text).root = [] := by
    refine List.eq_nil_iff_forall_not_mem.2 fun v hv => ?_
    obtain ⟨above, habove, part, hpart, -⟩ := mem_missed.1 hv
    rw [h above (mem_walk_of_mem_tour habove)] at hpart
    cases hpart
  have hperm := build_parse_perm text limits
  rwa [hmissed, List.flatMap_nil, List.append_nil] at hperm

end SymbolTable

end ShellAnalysis
