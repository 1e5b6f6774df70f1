import ShellAnalysis.Text.Bytes
import ShellAnalysis.Text.Span
import ShellAnalysis.Text.XidContinue

/-!
# The identifier under a cursor

An identifier is a run of name characters; a hyphen between two of them joins
it.  It is read from the text alone, so that a name inside a string or a
substitution counts like any other.  A cursor on a sigil before a name, or
right after a name, is on the name.
-/

namespace ShellAnalysis

/-- The identifier under a cursor. -/
structure IdentifierAt where
  name : String
  span : Span
  /-- What stands before the point, in `base.name`. -/
  base : Option String
  deriving Repr, DecidableEq

namespace Identifier

open Text (size isBoundary)

/-! ## Characters by offset -/

/-- The character that starts at the offset. -/
def charAt? (text : String) (i : Nat) : Option Char :=
  if i < size text then (text.pos? ⟨i⟩).bind (·.get?) else none

/-- The character that ends at the offset. -/
def charBefore? (text : String) (i : Nat) : Option Char :=
  if isBoundary text i && 0 < i then charAt? text (Text.floor text (i - 1)) else none

theorem lt_size_of_charAt? {text : String} {i : Nat} {c : Char} (h : charAt? text i = some c) :
    i < size text := by
  unfold charAt? at h
  split at h
  · assumption
  · cases h

theorem pos_of_charBefore? {text : String} {i : Nat} {c : Char}
    (h : charBefore? text i = some c) : 0 < i := by
  unfold charBefore? at h
  split at h
  · simp_all
  · cases h

/-! ## Runs -/

section

variable (isName : Char → Bool)

/-- Does a name character start at the offset? -/
def nameAt (text : String) (i : Nat) : Bool := ((charAt? text i).map isName).getD false

/-- Does a name character end at the offset? -/
def nameBefore (text : String) (i : Nat) : Bool := ((charBefore? text i).map isName).getD false

/-- The start of the run that ends at the offset. -/
def scanBack (text : String) (i : Nat) : Nat :=
  match _h : charBefore? text i with
  | none => i
  | some c =>
    let joins := c == '-' && nameBefore isName text (i - 1) && nameAt isName text i
    if isName c || joins then scanBack text (i - c.utf8Size) else i
termination_by i
decreasing_by
  have := pos_of_charBefore? _h
  have := c.utf8Size_pos
  omega

/-- The end of the run that starts at the offset. -/
def scanForward (text : String) (i : Nat) : Nat :=
  match _h : charAt? text i with
  | none => i
  | some c =>
    let joins := c == '-' && nameBefore isName text i && nameAt isName text (i + 1)
    if isName c || joins then scanForward text (i + c.utf8Size) else i
termination_by size text - i
decreasing_by
  have := lt_size_of_charAt? _h
  have := c.utf8Size_pos
  omega

/-- Bytes that open a reference to a name. -/
def isSigil (b : UInt8) : Bool := b == 0x24 || b == 0x40 || b == 0x7b || b == 0x5b

/-- Where to look for the name: at the cursor, after the sigils at the cursor, or at the start of
the name before it. -/
def anchor? (text : String) (i : Nat) : Option Nat :=
  if nameAt isName text i then some i
  else
    let afterSigils := Text.runEnd text isSigil i
    if i < afterSigils && nameAt isName text afterSigils then some afterSigils
    else if nameBefore isName text i then some (scanBack isName text i)
    else none

/-- What stands before the point before the offset, if there is a point and something before
it. -/
def baseBefore? (text : String) (i : Nat) : Option String :=
  if charBefore? text i == some '.' then
    match Text.slice? text (scanBack isName text (i - 1)) (i - 1) with
    | some base => if base.isEmpty then none else some base
    | none => none
  else none

/-- The identifier under a cursor, over any set of name characters. -/
def at? (text : String) (offset : Nat) : Option IdentifierAt := do
  let i ← anchor? isName text (Text.floor text (min offset (size text)))
  let start := scanBack isName text i
  let stop := scanForward isName text i
  let name ← Text.slice? text start stop
  if (name.toList.head?.map Char.isDigit).getD false then none
  else some ⟨name, .upTo start stop, baseBefore? isName text start⟩

end

/-- The underscore and what may go on with an identifier. -/
def isNameChar (c : Char) : Bool := c == '_' || Text.isXidContinue c

end Identifier

/-- The identifier under a cursor. -/
def identifierAt (text : String) (offset : Nat) : Option IdentifierAt :=
  Identifier.at? Identifier.isNameChar text offset

end ShellAnalysis
