/-!
# White space

The characters with the Unicode property `White_Space`, and texts without them
at their ends.
-/

namespace ShellAnalysis.Text

/-- The Unicode property `White_Space`. -/
def isBlank (c : Char) : Bool :=
  let n := c.toNat
  (0x09 ≤ n && n ≤ 0x0d) || n == 0x20 || n == 0x85 || n == 0xa0 || n == 0x1680
    || (0x2000 ≤ n && n ≤ 0x200a) || n == 0x2028 || n == 0x2029 || n == 0x202f || n == 0x205f
    || n == 0x3000

/-- The text without blanks at its start. -/
def trimStart (text : String) : String := String.ofList (text.toList.dropWhile isBlank)

/-- The text without blanks at its end. -/
def trimEnd (text : String) : String :=
  String.ofList (text.toList.reverse.dropWhile isBlank).reverse

/-- The text without blanks at both ends. -/
def trim (text : String) : String := trimEnd (trimStart text)

end ShellAnalysis.Text
