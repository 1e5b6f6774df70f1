import ShellAnalysis.Workspace.FileSystem

/-!
# Where a `source` argument points

An argument is read from the directory of the script it stands in.  Scripts
often spell that directory out, and these forms are replaced by it.  Any other
variable is unknown; then what follows the last reference is tried from the
directory of the script.
-/

namespace ShellAnalysis

namespace SourcePath

/-! ## References in an argument -/

/-- The ways to write the directory of the script.  A longer form stands before the forms that
occur in it. -/
def scriptDirForms : List String :=
  ["$(dirname \"$\x7bBASH_SOURCE[0]\x7d\")",
   "$(dirname $\x7bBASH_SOURCE[0]\x7d)",
   "$(dirname \"$0\")",
   "$(dirname $0)",
   "$\x7b_this_dir\x7d",
   "$\x7bSCRIPT_DIR\x7d",
   "$_this_dir",
   "$SCRIPT_DIR"]

/-- The text with every occurrence of a pattern replaced, from left to right; `skip` characters
belong to an occurrence that is replaced already. -/
def replaceFrom (pattern value : List Char) (skip : Nat) : List Char → List Char
  | [] => []
  | c :: rest =>
    match skip with
    | skip + 1 => replaceFrom pattern value skip rest
    | 0 =>
      if pattern.isPrefixOf (c :: rest) then
        value ++ replaceFrom pattern value (pattern.length - 1) rest
      else c :: replaceFrom pattern value 0 rest

/-- The text with every occurrence of a pattern replaced. -/
def replaceAll (pattern value text : List Char) : List Char := replaceFrom pattern value 0 text

/-- The argument with the directory in place of the forms that stand for it. -/
def expand (directory : Path) (argument : List Char) : List Char :=
  scriptDirForms.foldl (fun text form => replaceAll form.toList directory.text.toList text) argument

/-- Characters of a variable's name. -/
def isNameChar (c : Char) : Bool := c.isAlphanum || c == '_'

/-- What follows a reference, given what follows its `$`.  A bracket that is not closed takes in
everything. -/
def afterReference (text : List Char) : List Char :=
  match text with
  | '{' :: rest => (rest.dropWhile (· ≠ '}')).drop 1
  | '(' :: rest => (rest.dropWhile (· ≠ ')')).drop 1
  | _ => text.dropWhile isNameChar

/-- What follows the last `$`, if there is one. -/
def afterLastDollar? (text : List Char) : Option (List Char) :=
  if '$' ∈ text then some (text.reverse.takeWhile (· ≠ '$')).reverse else none

/-- The path to try, if there is one. -/
def candidate? (argument : String) (script : Path) : Option Path :=
  let directory := script.parent?.getD ⟨""⟩
  let expanded := expand directory argument.toList
  match afterLastDollar? expanded with
  | none => some (directory.join (String.ofList expanded))
  | some reference =>
    match (afterReference reference).dropWhile (· = '/') with
    | [] => none
    | suffix => some (directory.join (String.ofList suffix))

/-- The canonical path of the file that a `source` argument in a script names, if there is such a
file. -/
def resolve? (fs : FileSystem) (argument : String) (script : Path) : Option Path :=
  (candidate? argument script).bind fun path =>
    if fs.isFile path then some (fs.normalize path) else none

end SourcePath

end ShellAnalysis
