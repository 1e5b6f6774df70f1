import ShellAnalysis.Tree.Node
import ShellAnalysis.Text.Bytes

/-!
# `source` commands

The commands of a tree that pull another file in, with the path they name.
-/

namespace ShellAnalysis

/-- A `source` command. -/
structure SourceCommand where
  /-- The path argument, without one layer of quotes around it. -/
  path : String
  /-- The path argument. -/
  span : Span
  /-- The whole command. -/
  commandSpan : Span
  deriving Repr, DecidableEq

namespace SourceCommand

/-- What stands between two of the quote, if the list starts and ends with one. -/
def between? (quote : Char) (chars : List Char) : Option (List Char) :=
  match chars with
  | first :: rest =>
    if first == quote && rest.getLast? == some quote then some rest.dropLast else none
  | [] => none

/-- A text without one layer of matching quotes. -/
def unquote (text : String) : String :=
  match between? (Char.ofNat 0x27) text.toList with
  | some inner => String.ofList inner
  | none =>
    match between? '"' text.toList with
    | some inner => String.ofList inner
    | none => text

/-- The `source` command that a node is, if it is one with an argument. -/
def ofNode? (text : String) : Node → Option SourceCommand
  | ⟨span, .command c⟩ =>
    match Node.commandName? c, c.words with
    | some "source", _ :: argument :: _ =>
      (Text.slice? text argument.span.start argument.span.stop).map fun path =>
        ⟨unquote path, argument.span, span⟩
    | _, _ => none
  | _ => none

/-- All `source` commands of a tree, in source order. -/
def findAll (root : Node) (text : String) : List SourceCommand :=
  root.walk.filterMap (ofNode? text)

end SourceCommand

end ShellAnalysis
