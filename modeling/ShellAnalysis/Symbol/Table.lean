import ShellAnalysis.Symbol.Basic
import ShellAnalysis.Symbol.Search
import ShellAnalysis.Tree.Node

/-!
# The symbols of a file

One pass over the tree finds every declaration, in visiting order: those of a
node itself before those below it, the parameters of a callable before its
body, and otherwise children in source order.  There are no scopes: a lookup
gives every declaration of the name in the file.
-/

namespace ShellAnalysis

/-- The declarations of a file. -/
structure SymbolTable where
  /-- In the order in which they are found. -/
  symbols : List SymbolInfo
  outline : List OutlineItem
  lineIndex : LineIndex

namespace SymbolTable

/-! ## Lookup -/

/-- Every declaration of the name, in the order of finding. -/
def lookup (table : SymbolTable) (name : String) : List SymbolInfo :=
  table.symbols.filter (·.name == name)

/-- The names, each once, in the order of their first declarations. -/
def names (table : SymbolTable) : List String :=
  (table.symbols.map (·.name)).eraseDups

/-- All declarations, those of one name together. -/
def byName (table : SymbolTable) : List SymbolInfo :=
  table.names.flatMap table.lookup

/-- The first declaration of the name that has the literal key, and the key. -/
def lookupKey? (table : SymbolTable) (name key : String) : Option (SymbolInfo × KeyInfo) :=
  (table.lookup name).findSome? fun symbol => (symbol.key? key).map (symbol, ·)

/-! ## Declarations of one node -/

/-- A symbol with the lines of its spans. -/
def symbolOf (index : LineIndex) (span : Span) (name : Name) (kind : SymbolKind)
    (detail : Option String) : SymbolInfo :=
  ⟨name.text, kind, span, name.span, index.lineSpan span, index.lineSpan name.span, none, detail,
    none⟩

/-- A variable whose name is looked for in the text; an empty name span at the start of the
statement if it is not found. -/
def searched (text : String) (index : LineIndex) (span : Span) (name : String)
    (keyword : Option String) (detail : String) : SymbolInfo :=
  let nameSpan := (findIdentifier text span name keyword).getD (.empty span.start)
  symbolOf index span ⟨name, nameSpan⟩ .var (some detail)

/-- The names of the parameters, in order. -/
def paramNames (params : List Node) : List String :=
  params.filterMap fun
    | ⟨_, .param name ..⟩ => some name.text
    | _ => none

/-- The signature of a callable. -/
def signature (kind : CallableKind) (name : String) (params : List String) : String :=
  match kind with
  | .proc => "proc " ++ name ++ " (" ++ ", ".intercalate params ++ ")"
  | .func => "func " ++ name ++ "(" ++ ", ".intercalate params ++ ")"

/-- Adds a key unless it is there already. -/
def addKey (keys : List KeyInfo) (key : KeyInfo) : List KeyInfo :=
  if keys.any (·.key == key.key) then keys else keys ++ [key]

/-- The literal keys of a dict literal, the first of each. -/
def literalKeys? (index : LineIndex) : Node → Option (List KeyInfo)
  | ⟨_, .dict entries⟩ =>
    let literal? : Node → Option Name
      | ⟨_, .dictEntry key _⟩ => Node.literalKey? key
      | _ => none
    some ((entries.filterMap literal?).foldl
      (fun keys name => addKey keys ⟨name.text, name.span, index.lineSpan name.span⟩) [])
  | _ => none

/-- The symbols of a declaration.  Only a constant that is alone in its declaration has keys. -/
def declaredNames (index : LineIndex) (span : Span) (keyword : DeclKeyword)
    (names : List TypedName) (value : Option Node) : List SymbolInfo :=
  let (kind, word) := match keyword with
    | .var => (SymbolKind.var, "var")
    | .const => (SymbolKind.const, "const")
  let keys := match keyword, names, value with
    | .const, [_], some value => literalKeys? index value
    | _, _, _ => none
  names.map fun typed =>
    let detail := match typed.type with
      | some type => word ++ " " ++ typed.name.text ++ " " ++ type.text
      | none => word ++ " " ++ typed.name.text
    { symbolOf index span typed.name kind (some detail) with keys }

/-- The symbols of the plain variables that a mutation assigns to. -/
def mutatedNames (text : String) (index : LineIndex) (span : Span) (keyword : MutationKeyword)
    (targets : List Node) : List SymbolInfo :=
  let word := match keyword with
    | .setvar => some "setvar"
    | .setglobal => some "setglobal"
    | .bare => none
  targets.filterMap fun
    | ⟨_, .var name⟩ =>
      let detail := match word with
        | some word => word ++ " " ++ name
        | none => name ++ " ="
      some (searched text index span name word detail)
    | _ => none

/-- The symbols of the assignments of a command without words. -/
def assignedNames (text : String) (index : LineIndex) (c : Command Node) : List SymbolInfo :=
  if c.words.isEmpty then
    c.assignments.filterMap fun
      | ⟨span, .shellAssignment name _ _⟩ =>
        some (searched text index span name.text none (name.text ++ "="))
      | _ => none
  else []

/-- The symbols that a node declares itself. -/
def declared (text : String) (index : LineIndex) : Node → List SymbolInfo
  | ⟨span, .callable kind name params _⟩ =>
    if name.text.isEmpty then []
    else
      let params := paramNames params
      let symbolKind := match kind with
        | .proc => SymbolKind.proc
        | .func => SymbolKind.func
      [{ symbolOf index span name symbolKind (some (signature kind name.text params)) with
          params := some params }]
  | ⟨span, .param name type _ _ _⟩ =>
    if name.text.isEmpty then []
    else [symbolOf index span name .param (type.map fun t => name.text ++ " " ++ t.text)]
  | ⟨span, .shellFunction name _⟩ =>
    [{ symbolOf index span name .func (some (name.text ++ "()")) with params := some [] }]
  | ⟨span, .varDecl keyword names value⟩ => declaredNames index span keyword names value
  | ⟨span, .mutation keyword targets _ _⟩ => mutatedNames text index span keyword targets
  | ⟨_, .command c⟩ => assignedNames text index c
  | ⟨span, .forLoop _ vars _ _⟩ =>
    vars.map fun name => symbolOf index span name .var (some ("for " ++ name.text))
  | _ => []

/-! ## The pass -/

/-- The nodes below a node that are visited, in order.  Of a callable without a name only the body
is, and of a parameter without one nothing. -/
def visited (node : Node) : List Node :=
  match node.form with
  | .callable _ name params body => if name.text.isEmpty then [body] else params ++ [body]
  | .param name _ fallback _ _ => if name.text.isEmpty then [] else fallback.toList
  | _ => node.children

theorem mem_form_of_mem_visited {node child : Node} (h : child ∈ visited node) :
    child ∈ node.form.children := by
  unfold visited at h
  split at h
  · rename_i heq
    rw [heq]
    split at h <;> simp_all [Form.children]
  · rename_i heq
    rw [heq]
    split at h <;> simp_all [Form.children]
  · exact List.mem_mergeSort.1 h

/-- What is found in a part of the tree. -/
structure Found where
  symbols : List SymbolInfo
  outline : List OutlineItem

/-- What is found in a node, from what it declares and what is found below it.  A callable holds
the declarations of its body; parameters and what is inside their defaults are not outlined. -/
def assemble (node : Node) (own : List SymbolInfo) (below : List Found) : Found :=
  let outline := below.flatMap (·.outline)
  ⟨own ++ below.flatMap (·.symbols),
    match node.form with
    | .callable .. | .shellFunction .. =>
      match own with
      | [symbol] => [⟨symbol, outline⟩]
      | _ => outline
    | .param .. => []
    | _ => own.map (⟨·, []⟩) ++ outline⟩

/-- What is found in a node and below it. -/
def visit (text : String) (index : LineIndex) (node : Node) : Found :=
  assemble node (declared text index node)
    ((visited node).attach.map fun ⟨child, _⟩ => visit text index child)
termination_by node
decreasing_by exact Node.sizeOf_lt_of_mem_parts (mem_form_of_mem_visited ‹_›)

/-- The symbols of the tree of a text. -/
def build (root : Node) (text : String) : SymbolTable :=
  let index := LineIndex.ofText text
  let found := root.statements.map (visit text index)
  ⟨found.flatMap (·.symbols), found.flatMap (·.outline), index⟩

end SymbolTable

end ShellAnalysis
