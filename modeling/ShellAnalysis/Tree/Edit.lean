import ShellAnalysis.Tree.Node

/-!
# Changing finished nodes

Two changes are made to a statement after it was built: a heredoc body that
was read between its lines is put into it (`attachHeredoc?`), and the block
argument of its last command is taken off (`takeBlock?`).
-/

namespace ShellAnalysis.Node

/-! ## Heredoc bodies -/

mutual

/-- Puts a heredoc body into the innermost command list or pipeline between whose lines it stands.
None if the statement has no place for it. -/
def attachHeredoc? (node body : Node) : Option Node :=
  match node with
  | ⟨span, .background inner⟩ =>
    (attachHeredoc? inner body).map fun inner => ⟨span, .background inner⟩
  | ⟨span, .redirected inner redirects⟩ =>
    (attachHeredoc? inner body).map fun inner => ⟨span, .redirected inner redirects⟩
  | ⟨span, .andOr ops items heredocs⟩ =>
    match attachInside? items body with
    | some items? => items?.map fun items => ⟨span, .andOr ops items heredocs⟩
    | none => some ⟨span, .andOr ops items (heredocs ++ [body])⟩
  | ⟨span, .pipeline negated items heredocs⟩ =>
    match attachInside? items body with
    | some items? => items?.map fun items => ⟨span, .pipeline negated items heredocs⟩
    | none => some ⟨span, .pipeline negated items (heredocs ++ [body])⟩
  | _ => none

/-- Puts the body into the first item that holds its start, if any does.  None if no item does,
`some none` if the one that does has no place for it. -/
def attachInside? (items : List Node) (body : Node) : Option (Option (List Node)) :=
  match items with
  | [] => none
  | item :: rest =>
    if item.span.contains body.span.start then some ((attachHeredoc? item body).map (· :: rest))
    else (attachInside? rest body).map fun rest? => rest?.map (item :: ·)

end

/-! ## Block arguments -/

mutual

/-- Does the statement end in a command with a block argument? -/
def endsWithBlock : Node → Bool
  | ⟨_, .command c⟩ => c.block.isSome
  | ⟨_, .pipeline _ items _⟩ | ⟨_, .andOr _ items _⟩ => lastEndsWithBlock items
  | _ => false

/-- Does the last item end in a command with a block argument? -/
def lastEndsWithBlock : List Node → Bool
  | [] => false
  | [item] => endsWithBlock item
  | _ :: item :: rest => lastEndsWithBlock (item :: rest)

end

/-- A node from `start` to the last end of its parts, or to `start` if it has none. -/
def shrinkTo? (form : Form Node) (start : Nat) : Checked Node :=
  (Span.between? start ((form.children.map (·.span.stop)).max?.getD start)).map (⟨·, form⟩)

mutual

/-- Takes the block argument off the last command, if there is one.  What stays behind is shrunk to
its parts. -/
def takeBlock? : Node → Checked (Option (Node × Node))
  | ⟨span, .command c⟩ =>
    match c.block with
    | none => some none
    | some block =>
      (shrinkTo? (.command { c with block := none }) span.start).map fun rest => some (rest, block)
  | ⟨span, .pipeline negated items heredocs⟩ => do
    match ← takeLastBlock? items with
    | none => return none
    | some (items, block) =>
      (shrinkTo? (.pipeline negated items heredocs) span.start).map fun rest => some (rest, block)
  | ⟨span, .andOr ops items heredocs⟩ => do
    match ← takeLastBlock? items with
    | none => return none
    | some (items, block) =>
      (shrinkTo? (.andOr ops items heredocs) span.start).map fun rest => some (rest, block)
  | _ => some none

/-- Takes the block argument off the last item. -/
def takeLastBlock? : List Node → Checked (Option (List Node × Node))
  | [] => some none
  | [item] => (takeBlock? item).map (·.map fun (item, block) => ([item], block))
  | first :: item :: rest =>
    (takeLastBlock? (item :: rest)).map (·.map fun (items, block) => (first :: items, block))

end

end ShellAnalysis.Node
