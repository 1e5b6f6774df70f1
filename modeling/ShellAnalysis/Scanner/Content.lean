import ShellAnalysis.Text.Bytes
import ShellAnalysis.Text.Span

/-!
# Content of literals

Where the content of a quoted string or of a regex ends.  A `Reader` goes on item
by item, up to a byte that ends the content or to the end of the text; an item is
one character, or a backslash and the character after it where the literal has
escapes.  Readers differ in their items and in what ends the content.

A reader gives nothing if it would have to look for a character inside another
one.
-/

namespace ShellAnalysis

/-- How a quoted string treats its content. -/
inductive QuoteStyle where
  /-- Neither escapes nor substitutions. -/
  | single
  /-- Escapes; `$` and a backtick open substitutions. -/
  | double
  /-- Escapes, but no substitutions. -/
  | dollarSingle
  deriving Repr, DecidableEq, Inhabited

namespace QuoteStyle

/-- The byte that closes the string. -/
def quote : QuoteStyle → UInt8
  | double => 0x22
  | single | dollarSingle => 0x27

def hasEscapes : QuoteStyle → Bool
  | single => false
  | double | dollarSingle => true

def hasSubstitutions : QuoteStyle → Bool
  | double => true
  | single | dollarSingle => false

end QuoteStyle

namespace Content

open Text (byte? hasByte size charWidth)

theorem charWidth_pos (b : UInt8) : 0 < charWidth b := by
  unfold charWidth
  repeat' split
  all_goals omega

/-! ## Reading item by item -/

/-- How the content of a kind of literal is read. -/
structure Reader (text : String) where
  /-- Does the content end where this byte stands? -/
  ends : UInt8 → Nat → Bool
  /-- Right after the item whose first byte stands there. -/
  item? : UInt8 → Nat → Checked Nat
  lt_item? : ∀ {b : UInt8} {i next : Nat}, byte? text i = some b → item? b i = some next → i < next

namespace Reader

variable {text : String} {i stop : Nat}

/-- The end of the content that starts at `i`. -/
def stop? (r : Reader text) (i : Nat) : Checked Nat :=
  match _hb : byte? text i with
  | none => some i
  | some b =>
    if r.ends b i then some i
    else
      match _hnext : r.item? b i with
      | none => none
      | some next => r.stop? next
termination_by size text - i
decreasing_by
  have := Text.lt_size_of_byte? _hb
  have := r.lt_item? _hb _hnext
  omega

theorem le_stop? {r : Reader text} (h : r.stop? i = some stop) : i ≤ stop := by
  fun_induction r.stop? i with
  | case1 => exact Nat.le_of_eq (Option.some.inj h)
  | case2 => exact Nat.le_of_eq (Option.some.inj h)
  | case3 => cases h
  | case4 i b hb _ next hnext ih => exact Nat.le_trans (Nat.le_of_lt (r.lt_item? hb hnext)) (ih h)

end Reader

/-! ## Items -/

/-- Right after the character at the offset, or the offset itself at the end of the text.  None
inside a character. -/
def charEnd? (text : String) (i : Nat) : Checked Nat :=
  if Text.isBoundary text i then some (i + ((byte? text i).map charWidth).getD 0) else none

theorem charEnd?_eq_some {text : String} {i next : Nat} : charEnd? text i = some next ↔
    Text.isBoundary text i = true ∧ i + ((byte? text i).map charWidth).getD 0 = next := by
  unfold charEnd?
  split <;> simp_all

/-- Right after the item at `i`, whose first byte is `b`.  Where there are escapes, a backslash takes
the character after it along. -/
def itemEnd? (text : String) (escapes : Bool) (b : UInt8) (i : Nat) : Checked Nat :=
  charEnd? text (if escapes && b == 0x5c then i + 1 else i)

theorem lt_itemEnd? {text : String} {escapes : Bool} {b : UInt8} {i next : Nat}
    (hb : byte? text i = some b) (h : itemEnd? text escapes b i = some next) : i < next := by
  have hwidth := charWidth_pos b
  obtain ⟨-, hnext⟩ := charEnd?_eq_some.1 h
  split at hnext
  · omega
  · rw [hb, Option.map_some, Option.getD_some] at hnext
    omega

/-! ## Strings -/

/-- Do three of the byte stand at the offset? -/
def tripleAt (text : String) (i : Nat) (b : UInt8) : Bool :=
  hasByte text i b && hasByte text (i + 1) b && hasByte text (i + 2) b

/-- Does the content of a string end at `i`, where the byte `b` stands? -/
def endsString (text : String) (style : QuoteStyle) (triple : Bool) (b : UInt8) (i : Nat) : Bool :=
  (b == style.quote && (!triple || tripleAt text i b))
    || (style.hasSubstitutions && (b == 0x24 || b == 0x60))

/-- A string with one quote or three at its ends. -/
def stringReader (text : String) (style : QuoteStyle) (triple : Bool) : Reader text :=
  ⟨endsString text style triple, itemEnd? text style.hasEscapes, lt_itemEnd?⟩

/-! ## Regexes -/

/-- What stands in a bracket class. -/
def classReader (text : String) : Reader text :=
  ⟨fun b _ => b == 0x5d, itemEnd? text true, lt_itemEnd?⟩

/-- Right after the class whose opening bracket stands at `i`: its closing bracket, or the end of the
text. -/
def bracketEnd? (text : String) (i : Nat) : Checked Nat :=
  ((classReader text).stop? (i + 1)).map fun close =>
    if hasByte text close 0x5d then close + 1 else close

/-- Right after the item of a regex at `i`, whose first byte is `b`. -/
def regexItemEnd? (text : String) (b : UInt8) (i : Nat) : Checked Nat :=
  if b == 0x5b then bracketEnd? text i else itemEnd? text true b i

theorem lt_regexItemEnd? {text : String} {b : UInt8} {i next : Nat} (hb : byte? text i = some b)
    (h : regexItemEnd? text b i = some next) : i < next := by
  unfold regexItemEnd? at h
  split at h
  · obtain ⟨close, hclose, rfl⟩ := Option.map_eq_some_iff.1 h
    have := Reader.le_stop? hclose
    split <;> omega
  · exact lt_itemEnd? hb h

/-- A regex ends at a slash or a line feed outside brackets. -/
def regexReader (text : String) : Reader text :=
  ⟨fun b _ => b == 0x2f || b == 0x0a, regexItemEnd? text, lt_regexItemEnd?⟩

end Content

end ShellAnalysis
