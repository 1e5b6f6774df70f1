import ShellAnalysis.Text.Blank
import ShellAnalysis.Text.Bytes
import ShellAnalysis.Text.Span

/-!
# Finding a name by its text

The parser does not keep where the target of a mutation or of an assignment
stands, so it is looked for near the start of the statement: a name right after
a keyword, or right before an assignment operator.
-/

namespace ShellAnalysis

namespace IdentifierSearch

open Text (byte?)

/-- How far after the start of the statement a name is looked for, in bytes. -/
def window : Nat := 256

/-- The names between two offsets, in order. -/
def names (text : String) (i stop : Nat) : List Span :=
  if i < stop then
    if ((byte? text i).map Text.isNameStart).getD false then
      let last := min (Text.runEnd text Text.isNameByte (i + 1)) stop
      .upTo i last :: names text (max last (i + 1)) stop
    else names text (i + 1) stop
  else []
termination_by stop - i
decreasing_by
  · simp only [Nat.max_def]; split <;> omega
  · omega

/-- Is there an assignment operator at the start, after blanks? -/
def startsAssignment (text : String) : Bool :=
  match text.toList.dropWhile Text.isBlank with
  | '=' :: _ => true
  | c :: '=' :: _ => c == '-' || c == '+' || c == '*' || c == '/'
  | _ => false

/-- Is the first name the keyword, with blanks and nothing else up to the second one? -/
def followsKeyword (text : String) (keyword : String) (first second : Span) : Bool :=
  Text.slice text first.start first.stop == keyword && first.stop < second.start
    && (Text.slice text first.stop second.start).toList.all Text.isBlank

/-- The first of the names that is spelled like this and stands after the keyword or before an
assignment operator. -/
def search (text name : String) (keyword : Option String) (stop : Nat) :
    Option Span → List Span → Option Span
  | _, [] => none
  | previous, found :: rest =>
    let afterKeyword := match keyword, previous with
      | some keyword, some previous => followsKeyword text keyword previous found
      | _, _ => false
    if Text.slice text found.start found.stop == name
        && (afterKeyword || startsAssignment (Text.slice text found.stop stop)) then
      some found
    else search text name keyword stop (some found) rest

end IdentifierSearch

open IdentifierSearch in
/-- Where the name stands that a statement over `span` assigns to. -/
def findIdentifier (text : String) (span : Span) (name : String) (keyword : Option String) :
    Option Span :=
  let start := min span.start (Text.size text)
  let stop := Text.floor text (min (min span.stop (start + window)) (Text.size text))
  if name.isEmpty || !Text.isBoundary text start || stop < start then none
  else search text name keyword stop none (names text start stop)

end ShellAnalysis
