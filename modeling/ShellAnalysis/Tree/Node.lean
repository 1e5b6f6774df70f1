import ShellAnalysis.Tree.Form

/-!
# The syntax tree

A node is a span and a form whose parts are nodes.  `Node.make` builds a node
whose span holds those of its parts.  `children` are the parts in source order;
`walk` and `covering` go down through them.
-/

namespace ShellAnalysis

inductive Node where
  | mk (span : Span) (form : Form Node)

namespace Node

instance : Inhabited Node := ⟨⟨default, .error⟩⟩

def span : Node → Span
  | mk s _ => s

def form : Node → Form Node
  | mk _ f => f

/-- A node over a span, which is widened where a part lies outside of it. -/
def make (form : Form Node) (span : Span) : Node :=
  ⟨form.children.foldl (fun s child => s.cover child.span) span, form⟩

/-- A node for input that does not fit. -/
def error (span : Span) : Node := ⟨span, .error⟩

def isError : Node → Bool
  | ⟨_, .error⟩ => true
  | _ => false

/-- The parts in the order of their starts; equal starts in the order of the fields. -/
def children (node : Node) : List Node :=
  node.form.children.mergeSort fun a b => a.span.start ≤ b.span.start

/-- The statements of a program, a block or a subshell. -/
def statements (node : Node) : List Node := node.form.statements

/-- The name of a command, if its first word is plain text. -/
def commandName? (c : Command Node) : Option String :=
  match c.words with
  | ⟨_, .word [⟨_, .text name⟩]⟩ :: _ => some name
  | _ => none

/-- The literal key of a dict entry and where it stands, for bare and plainly quoted keys. -/
def literalKey? : DictKey Node → Option Name
  | .name name => some name
  | .quoted ⟨span, .stringLit _ []⟩ => some ⟨"", span⟩
  | .quoted ⟨_, .stringLit _ [⟨span, .text text⟩]⟩ => some ⟨text, span⟩
  | _ => none

/-! ## Descent -/

theorem sizeOf_lt_of_mem_toList {part? : Option Node} {child : Node} (h : child ∈ part?.toList) :
    sizeOf child < sizeOf part? := by
  cases part? <;> simp_all

theorem sizeOf_lt_of_mem_form {form : Form Node} {child : Node} (h : child ∈ form.children) :
    sizeOf child < sizeOf form := by
  have inList : ∀ parts : List Node, child ∈ parts → sizeOf child < sizeOf parts :=
    fun _ => List.sizeOf_lt_of_mem
  have inOption : ∀ part? : Option Node, child ∈ part?.toList → sizeOf child < sizeOf part? :=
    fun _ => sizeOf_lt_of_mem_toList
  cases form with
  | command c =>
    cases c
    simp only [Form.children, List.mem_append, Form.command.sizeOf_spec,
      Command.mk.sizeOf_spec] at h ⊢
    grind
  | dictEntry key value =>
    cases key <;>
      simp only [Form.children, List.mem_cons, Form.dictEntry.sizeOf_spec,
        DictKey.name.sizeOf_spec, DictKey.quoted.sizeOf_spec,
        DictKey.computed.sizeOf_spec] at h ⊢ <;>
      grind
  | _ => simp [Form.children] at h ⊢ <;> grind

/-- A part of a node is smaller than the node. -/
theorem sizeOf_lt_of_mem_parts {node child : Node} (h : child ∈ node.form.children) :
    sizeOf child < sizeOf node := by
  have h := sizeOf_lt_of_mem_form h
  cases node with
  | mk s f => simp only [form, mk.sizeOf_spec] at h ⊢; omega

theorem sizeOf_lt_of_mem_children {node child : Node} (h : child ∈ node.children) :
    sizeOf child < sizeOf node := sizeOf_lt_of_mem_parts (List.mem_mergeSort.1 h)

/-- The node and everything below it, each node before its children. -/
def walk (node : Node) : List Node :=
  node :: node.children.attach.flatMap fun ⟨child, _⟩ => child.walk
termination_by node
decreasing_by exact sizeOf_lt_of_mem_children ‹_›

theorem walk_eq (node : Node) : node.walk = node :: node.children.flatMap walk := by
  rw [walk]
  simp [List.flatMap_def]

/-- The innermost node that has the offset in it or right after it. -/
def covering (node : Node) (offset : Nat) : Option Node :=
  if node.span.touches offset then
    some ((node.children.attach.findSome? fun ⟨child, _⟩ => child.covering offset).getD node)
  else none
termination_by node
decreasing_by exact sizeOf_lt_of_mem_children ‹_›

end Node

end ShellAnalysis
