/-!
# Numbers from decimal digits

`digitsValue` is the number that digits spell.  `longDigitsValue` is the same
number, found in a way that stays fast for very many digits: the last digits
are gathered apart and join the rest a thousand at a time.

    longDigitsValue digits = digitsValue digits      (longDigitsValue_eq_digitsValue)
-/

namespace ShellAnalysis

/-- The number with one more digit; an underscore is no digit. -/
def addDigit (n : Nat) (c : Char) : Nat :=
  if c == '_' then n else n * 10 + (c.toNat - '0'.toNat)

/-- The number that digits spell, underscores left out. -/
def digitsValue (digits : List Char) : Nat := digits.foldl addDigit 0

/-! ## Many digits -/

/-- A number in two parts, `high · scale + low`. -/
structure SplitNumber where
  high : Nat
  low : Nat
  scale : Nat

namespace SplitNumber

/-- The number as a whole. -/
def value (n : SplitNumber) : Nat := n.high * n.scale + n.low

/-- The low part joins the high one when its scale has come to this. -/
def fullScale : Nat := Nat.pow 10 1000

/-- The number with one more digit. -/
def addDigit (n : SplitNumber) (c : Char) : SplitNumber :=
  if c == '_' then n
  else
    let n := if n.scale < fullScale then n else ⟨n.value, 0, 1⟩
    ⟨n.high, n.low * 10 + (c.toNat - '0'.toNat), n.scale * 10⟩

theorem value_addDigit (n : SplitNumber) (c : Char) :
    (n.addDigit c).value = ShellAnalysis.addDigit n.value c := by
  simp only [addDigit, ShellAnalysis.addDigit, value]
  split
  · rfl
  · split <;> grind

theorem value_foldl_addDigit (digits : List Char) (n : SplitNumber) :
    (digits.foldl addDigit n).value = digits.foldl ShellAnalysis.addDigit n.value := by
  induction digits generalizing n with
  | nil => rfl
  | cons c rest ih => rw [List.foldl_cons, List.foldl_cons, ih, value_addDigit]

end SplitNumber

/-- The number that digits spell, however many there are. -/
def longDigitsValue (digits : List Char) : Nat :=
  (digits.foldl SplitNumber.addDigit ⟨0, 0, 1⟩).value

theorem longDigitsValue_eq_digitsValue (digits : List Char) :
    longDigitsValue digits = digitsValue digits := by
  rw [longDigitsValue, SplitNumber.value_foldl_addDigit]
  simp [SplitNumber.value, digitsValue]

end ShellAnalysis
