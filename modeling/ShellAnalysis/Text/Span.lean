/-!
# Spans

A half-open range of byte offsets, kept as a start and a length so that no span
ends before it starts.  What is cut out of a text is `Checked`.
-/

namespace ShellAnalysis

/-- What is cut out of a text.  None if a cut cannot be made: inside a character, out of the text or
with its ends out of order. -/
abbrev Checked (α : Type) : Type := Option α

/-- The bytes from `start` up to, but not including, `start + length`. -/
structure Span where
  start : Nat
  length : Nat
  deriving Repr, DecidableEq, Inhabited

namespace Span

/-- The offset right after the span. -/
def stop (s : Span) : Nat := s.start + s.length

/-- The empty span at an offset. -/
def empty (i : Nat) : Span := ⟨i, 0⟩

/-- From one offset up to another; empty at the first if the second lies before it. -/
def upTo (a b : Nat) : Span := ⟨a, b - a⟩

/-- From one offset to another that must not lie before it. -/
def between? (a b : Nat) : Checked Span :=
  if a ≤ b then some ⟨a, b - a⟩ else none

def isEmpty (s : Span) : Bool := s.length == 0

/-- Is the offset one of the span's bytes? -/
def contains (s : Span) (i : Nat) : Bool := s.start ≤ i && i < s.stop

/-- Is the offset one of the span's bytes, or right after the last one? -/
def touches (s : Span) (i : Nat) : Bool := s.start ≤ i && i ≤ s.stop

/-- The smallest span that holds both. -/
def cover (s t : Span) : Span :=
  upTo (min s.start t.start) (max s.stop t.stop)

/-- Every byte of the first lies in the second, ends included. -/
def Within (s t : Span) : Prop := t.start ≤ s.start ∧ s.stop ≤ t.stop

instance (s t : Span) : Decidable (s.Within t) :=
  inferInstanceAs (Decidable (_ ∧ _))

theorem stop_upTo {a b : Nat} (h : a ≤ b) : (upTo a b).stop = b := by
  simp only [upTo, stop]; omega

theorem between?_of_le {a b : Nat} (h : a ≤ b) : between? a b = some (upTo a b) := if_pos h

theorem of_between? {a b : Nat} {s : Span} (h : between? a b = some s) : a ≤ b ∧ s = upTo a b := by
  unfold between? at h
  split at h
  · exact ⟨‹_›, (Option.some.inj h).symm⟩
  · cases h

theorem eq_upTo (s : Span) : s = upTo s.start s.stop := by
  cases s
  simp [upTo, stop]

theorem isEmpty_iff {s : Span} : s.isEmpty = true ↔ s.stop = s.start := by
  simp only [isEmpty, stop, beq_iff_eq]
  omega

theorem start_le_stop (s : Span) : s.start ≤ s.stop := Nat.le_add_right _ _

theorem Within.trans {r s t : Span} (h : r.Within s) (h' : s.Within t) : r.Within t :=
  ⟨Nat.le_trans h'.1 h.1, Nat.le_trans h.2 h'.2⟩

end Span

end ShellAnalysis
