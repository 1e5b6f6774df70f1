/-!
# Sets of characters as ranges

A Unicode property is a sorted table of ranges of code points; membership is a
binary search.
-/

namespace ShellAnalysis.Text

/-- Is the number in one of the ranges `lo .. hi - 1` of the table? -/
def inRangesFrom (table : Array (Nat × Nat)) (n : Nat) (lo hi : Nat) : Bool :=
  if lo < hi then
    let mid := (lo + hi) / 2
    let (first, last) := table.getD mid (0, 0)
    if n < first then inRangesFrom table n lo mid
    else if last < n then inRangesFrom table n (mid + 1) hi
    else true
  else false
termination_by hi - lo

/-- Is the character in one of the ranges of the sorted table? -/
def inRanges (table : Array (Nat × Nat)) (c : Char) : Bool :=
  inRangesFrom table c.toNat 0 table.size

end ShellAnalysis.Text
