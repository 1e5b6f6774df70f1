/-!
# Paths

A path keeps the text it was written with, because a file system reads it
piece by piece: `lib.ysh/` asks for a directory and `lib.ysh` does not.  Two
paths count as the same when they take the same steps, and steps leave out
repeated slashes and every `.` but one at the start.
-/

namespace ShellAnalysis

/-- A path, as it is written. -/
structure Path where
  text : String
  deriving Repr, DecidableEq

/-- What a path does: go to the top, stay, go to the parent, or go to a name. -/
inductive PathStep where
  | top
  | here
  | up
  | name (text : String)
  deriving Repr, DecidableEq

namespace PathStep

/-- The place of a kind of step in the order of paths. -/
def rank : PathStep → Nat
  | .top => 0
  | .here => 1
  | .up => 2
  | .name _ => 3

def before (a b : PathStep) : Bool :=
  match a, b with
  | .name x, .name y => x < y
  | _, _ => a.rank < b.rank

/-- How the step is written. -/
def display : PathStep → String
  | .top => "/"
  | .here => "."
  | .up => ".."
  | .name text => text

end PathStep

namespace Path

/-! ## Pieces and steps -/

/-- The pieces of a text between its slashes; one more than there are slashes. -/
def split : List Char → List (List Char)
  | [] => [[]]
  | c :: rest =>
    if c = '/' then [] :: split rest
    else
      match split rest with
      | piece :: more => (c :: piece) :: more
      | [] => [[c]]

def pieces (path : Path) : List (List Char) := split path.text.toList

/-- The path with these pieces between its slashes. -/
def ofPieces (pieces : List (List Char)) : Path := ⟨String.ofList (List.intercalate ['/'] pieces)⟩

/-- Pieces that go nowhere. -/
def isIdle (piece : List Char) : Bool := piece == [] || piece == ['.']

/-- The step that a piece takes, if it goes anywhere. -/
def stepOf? (piece : List Char) : Option PathStep :=
  if isIdle piece then none
  else if piece == ['.', '.'] then some .up
  else some (.name (String.ofList piece))

/-- Does the path start at the top? -/
def isAbsolute (path : Path) : Bool := path.text.toList.head? == some '/'

/-- The steps of a path.  Of those that go nowhere only a `.` at the start counts. -/
def steps (path : Path) : List PathStep :=
  let start := if path.isAbsolute then [.top]
    else if path.pieces.head? == some ['.'] then [.here] else []
  start ++ path.pieces.filterMap stepOf?

/-- Do two paths take the same steps? -/
def same (a b : Path) : Bool := a.steps == b.steps

/-- Is the first list of steps ahead of the second or equal to it? -/
def stepsAhead : List PathStep → List PathStep → Bool
  | [], _ => true
  | _ :: _, [] => false
  | a :: as, b :: bs => a.before b || (a == b && stepsAhead as bs)

/-- The order of paths: step by step, and names by their characters. -/
def ahead (a b : Path) : Bool := stepsAhead a.steps b.steps

/-! ## Parts -/

/-- The pieces without those at the end that go nowhere. -/
def withoutIdleEnd (pieces : List (List Char)) : List (List Char) :=
  (pieces.reverse.dropWhile isIdle).reverse

/-- The path without its last step, if that is no step to the top.  A path of one step has the
empty path for its parent. -/
def parent? (path : Path) : Option Path :=
  match path.pieces with
  | [] => none
  | first :: rest =>
    match withoutIdleEnd rest with
    | [] => if first = [] then none else some ⟨""⟩
    | rest =>
      match withoutIdleEnd rest.dropLast with
      | [] => some (if first = [] then ⟨"/"⟩ else ofPieces [first])
      | kept => some (ofPieces (first :: kept))

/-- The name that a path ends with. -/
def lastName? (path : Path) : Option String :=
  match path.steps.getLast? with
  | some (.name text) => some text
  | _ => none

/-- What follows the last point of the name that a path ends with, if something stands before
it. -/
def extension? (path : Path) : Option String :=
  path.lastName?.bind fun name =>
    let backwards := name.toList.reverse
    match backwards.dropWhile (· ≠ '.') with
    | _ :: _ :: _ => some (String.ofList (backwards.takeWhile (· ≠ '.')).reverse)
    | _ => none

/-- The path from a directory on.  An absolute path stays as it is. -/
def join (directory : Path) (rest : String) : Path :=
  if (Path.mk rest).isAbsolute then ⟨rest⟩
  else
    match directory.text.toList.getLast? with
    | none | some '/' => ⟨directory.text ++ rest⟩
    | some _ => ⟨directory.text ++ "/" ++ rest⟩

end Path

end ShellAnalysis
