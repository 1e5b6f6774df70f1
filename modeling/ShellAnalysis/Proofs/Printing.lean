import ShellAnalysis.Parse.Expression
import ShellAnalysis.Proofs.Lexemes
import ShellAnalysis.Tree.Node

/-!
# Expressions and how they are printed

`Expr` is an expression as it is meant, without positions.  `Expr.print` writes
it with a space around every operator and after every prefix operator, and with
parentheses around an operand whose top operator binds more loosely than its
place asks for.  How strongly things bind is their level, from the loosest to
the tightest:

    ternary < range < or < and < not < comparison < | < ^ < & < shifts
      < additive < multiplicative < unary < ** < operands

`t.Matches v` says that a syntax tree is the expression, whatever the spans.
-/

namespace ShellAnalysis

open Text Lexer

/-! ## Numbers as text -/

theorem isDigits_digit : ∀ d < 10, size (Nat.repr d) = 1 ∧
    (byte? (Nat.repr d) 0).any isDigit = true := by decide

/-- A number is printed with digits. -/
theorem isDigits_repr (n : Nat) : IsDigits n.repr := by
  induction n using Nat.strongRecOn with
  | ind n ih =>
    have hdigit : ∀ {d k b}, d < 10 → byte? (Nat.repr d) k = some b → isDigit b = true := by
      intro d k b hd hb
      obtain ⟨hsize, hfirst⟩ := isDigits_digit d hd
      obtain rfl : k = 0 := by
        have := lt_size_of_byte? hb
        omega
      simpa [hb] using hfirst
    rcases Nat.lt_or_ge n 10 with hn | hn
    · obtain ⟨b, hb, -⟩ := (Option.any_eq_true ..).1 (isDigits_digit n hn).2
      exact ⟨⟨b, hb⟩, fun k b => hdigit hn⟩
    · rw [Nat.repr_eq_repr_append_repr hn]
      obtain ⟨⟨b, hb⟩, hbytes⟩ := ih (n / 10) (by omega)
      refine ⟨⟨b, by rw [byte?_append_left (lt_size_of_byte? hb), hb]⟩, fun k c hc => ?_⟩
      rcases Nat.lt_or_ge k (size (n / 10).repr) with hk | hk
      · rw [byte?_append_left hk] at hc
        exact hbytes k c hc
      · obtain ⟨m, rfl⟩ := Nat.exists_eq_add_of_le hk
        rw [byte?_append_right] at hc
        exact hdigit (Nat.mod_lt n (by decide)) hc

/-- Leading zeros do not count. -/
theorem digitsValue_dropWhile (digits : List Char) :
    digitsValue (digits.dropWhile (· == '0')) = digitsValue digits := by
  induction digits with
  | nil => rfl
  | cons c digits ih =>
    rw [List.dropWhile_cons]
    split
    · rename_i hc
      obtain rfl : c = '0' := beq_iff_eq.1 hc
      rw [ih]
      rfl
    · rfl

theorem digitsValue_toDigits (n : Nat) : digitsValue (Nat.toDigits 10 n) = n := by
  have hstep : ∀ (cs : List Char) (m : Nat), '_' ∉ cs →
      cs.foldl addDigit m = Nat.ofDigitChars 10 cs m := by
    intro cs
    induction cs with
    | nil => intro m _; rfl
    | cons c cs ih =>
      intro m hcs
      rw [List.mem_cons, not_or] at hcs
      rw [List.foldl_cons, ih _ hcs.2, Nat.ofDigitChars_cons]
      simp [addDigit, Ne.symm hcs.1, Nat.mul_comm]
  unfold digitsValue
  rw [hstep _ _ Nat.underscore_not_in_toDigits, Nat.ofDigitChars_ten_toDigits]

/-- A number in range is read back from its digits. -/
theorem intValue?_repr {n : Nat} (h : n ≤ Parse.maxInt) : Parse.intValue? n.repr = some n := by
  have hclean : (Nat.toDigits 10 n).filter (· != '_') = Nat.toDigits 10 n := by
    rw [List.filter_eq_self]
    intro c hc
    simpa using fun heq : c = '_' => Nat.underscore_not_in_toDigits (heq ▸ hc)
  have hlength : ((Nat.toDigits 10 n).dropWhile (· == '0')).length ≤ 19 := by
    refine Nat.le_trans (List.dropWhile_sublist _).length_le ?_
    rw [Nat.length_toDigits_le_iff (by decide) (by decide)]
    exact Nat.lt_of_le_of_lt h (by decide)
  unfold Parse.intValue?
  simp only [Nat.toList_repr, hclean, if_neg (Nat.not_lt.2 hlength), digitsValue_dropWhile,
    digitsValue_toDigits, if_pos h]

/-! ## Operators -/

/-- The level of literals and variables, above all operators. -/
def atomLevel : Nat := 14

/-- Names that stand for a literal, an operator or a part of one. -/
def reservedNames : List String :=
  ["true", "false", "null", "not", "and", "or", "in", "is", "if", "else"]

/-- A name that stands for a value. -/
structure Variable where
  name : String
  isName : IsName name
  free : name ∉ reservedNames

/-- A prefix operator. -/
inductive Sign where
  | neg
  | pos
  | bitNot
  | not
  deriving Repr, DecidableEq

namespace Sign

def op : Sign → UnaryOp
  | neg => .neg
  | pos => .pos
  | bitNot => .bitNot
  | not => .not

def symbol : Sign → String
  | neg => "-"
  | pos => "+"
  | bitNot => "~"
  | not => "not"

def level : Sign → Nat
  | not => 4
  | _ => 12

end Sign

/-- How a range is written. -/
inductive RangeMark where
  /-- `..` -/
  | plain
  /-- `..<` -/
  | exclusive
  /-- `..=` -/
  | inclusive
  deriving Repr, DecidableEq

namespace RangeMark

def op : RangeMark → RangeOp
  | plain | exclusive => .exclusive
  | inclusive => .inclusive

def symbol : RangeMark → String
  | plain => ".."
  | exclusive => "..<"
  | inclusive => "..="

end RangeMark

namespace BinaryOp

def symbol : BinaryOp → String
  | or => "or"
  | and => "and"
  | bitOr => "|"
  | bitXor => "^"
  | bitAnd => "&"
  | shl => "<<"
  | shr => ">>"
  | add => "+"
  | sub => "-"
  | concat => "++"
  | mul => "*"
  | div => "/"
  | floorDiv => "//"
  | mod => "%"
  | pow => "**"

def level : BinaryOp → Nat
  | or => 2
  | and => 3
  | bitOr => 6
  | bitXor => 7
  | bitAnd => 8
  | shl | shr => 9
  | add | sub | concat => 10
  | mul | div | floorDiv | mod => 11
  | pow => 13

/-- The level of the left operand: only powers group to the right. -/
def leftLevel : BinaryOp → Nat
  | pow => atomLevel
  | op => op.level

/-- The level of the right operand. -/
def rightLevel : BinaryOp → Nat
  | pow => 13
  | op => op.level + 1

end BinaryOp

namespace CompareOp

def symbol : CompareOp → String
  | identical => "==="
  | notIdentical => "!=="
  | eq => "=="
  | notEq => "!="
  | approxEq => "~=="
  | less => "<"
  | lessEq => "<="
  | greater => ">"
  | greaterEq => ">="
  | .matches => "~"
  | notMatches => "!~"
  | isIn => "in"
  | notIn => "not in"
  | is => "is"
  | isNot => "is not"

/-- The number of tokens. -/
def width : CompareOp → Nat
  | notIn | isNot => 2
  | _ => 1

end CompareOp

/-! ## Expressions -/

mutual

/-- An expression. -/
inductive Expr where
  | int (value : Nat) (inRange : value ≤ Parse.maxInt)
  | var (name : Variable)
  | unary (sign : Sign) (operand : Expr)
  | binary (op : BinaryOp) (left right : Expr)
  | compare (first : Expr) (chain : Comparisons)
  /-- `thenValue if condition else elseValue` -/
  | ternary (thenValue condition elseValue : Expr)
  | range (mark : RangeMark) (first last : Expr)

/-- The operators of a comparison and the operands after them. -/
inductive Comparisons where
  | last (op : CompareOp) (operand : Expr)
  | more (op : CompareOp) (operand : Expr) (rest : Comparisons)

end

/-- How strongly the top of an expression binds. -/
def Expr.level : Expr → Nat
  | ternary .. => 0
  | range .. => 1
  | binary op .. => op.level
  | compare .. => 5
  | unary sign _ => sign.level
  | int .. | var .. => atomLevel

/-- The level of the operands of a comparison. -/
def compareLevel : Nat := 6

/-- Puts parentheses around a text where they are needed. -/
def wrap (needed : Bool) (text : String) : String :=
  if needed then "(" ++ (text ++ ")") else text

/-- How many tokens such parentheses are. -/
def wrapSize (needed : Bool) (size : Nat) : Nat := if needed then size + 2 else size

mutual

/-- The expression as text. -/
def Expr.print : Expr → String
  | .int value _ => value.repr
  | .var x => x.name
  | .unary sign e => sign.symbol ++ (" " ++ wrap (e.level < sign.level) e.print)
  | .binary op a b =>
    wrap (a.level < op.leftLevel) a.print ++ (" " ++ (op.symbol ++ (" " ++
      wrap (b.level < op.rightLevel) b.print)))
  | .compare first chain =>
    wrap (first.level < compareLevel) first.print ++ (" " ++ chain.print)
  | .ternary a c b =>
    wrap (a.level < 1) a.print ++ (" " ++ ("if" ++ (" " ++
      (wrap (c.level < 2) c.print ++ (" " ++ ("else" ++ (" " ++ b.print)))))))
  | .range mark a b =>
    wrap (a.level < 1) a.print ++ (" " ++ (mark.symbol ++ (" " ++ wrap (b.level < 2) b.print)))

/-- The chain as text. -/
def Comparisons.print : Comparisons → String
  | .last op e => op.symbol ++ (" " ++ wrap (e.level < compareLevel) e.print)
  | .more op e rest =>
    op.symbol ++ (" " ++ (wrap (e.level < compareLevel) e.print ++ (" " ++ rest.print)))

end

mutual

/-- The number of tokens an expression is printed with. -/
def Expr.size : Expr → Nat
  | .int .. | .var .. => 1
  | .unary sign e => 1 + wrapSize (e.level < sign.level) e.size
  | .binary op a b =>
    wrapSize (a.level < op.leftLevel) a.size + (1 + wrapSize (b.level < op.rightLevel) b.size)
  | .compare first chain => wrapSize (first.level < compareLevel) first.size + chain.size
  | .ternary a c b =>
    wrapSize (a.level < 1) a.size + (1 + (wrapSize (c.level < 2) c.size + (1 + b.size)))
  | .range _ a b => wrapSize (a.level < 1) a.size + (1 + wrapSize (b.level < 2) b.size)

/-- The number of tokens a chain is printed with. -/
def Comparisons.size : Comparisons → Nat
  | .last op e => op.width + wrapSize (e.level < compareLevel) e.size
  | .more op e rest => op.width + (wrapSize (e.level < compareLevel) e.size + rest.size)

end

/-! ## Syntax trees of an expression -/

mutual

/-- The syntax tree is this expression, whatever its spans. -/
def Expr.Matches : Expr → Node → Prop
  | .int value _, v => v.form = .literal (.int value)
  | .var x, v => v.form = .var x.name
  | .unary sign e, v => ∃ x, v.form = .unary sign.op x ∧ e.Matches x
  | .binary op a b, v => ∃ x y, v.form = .binary op x y ∧ a.Matches x ∧ b.Matches y
  | .compare first chain, v => ∃ ops x ys, v.form = .compare ops (x :: ys) ∧
      first.Matches x ∧ chain.Matches ops ys
  | .ternary a c b, v => ∃ x z y, v.form = .ternary x z y ∧ a.Matches x ∧ c.Matches z ∧ b.Matches y
  | .range mark a b, v => ∃ x y, v.form = .range mark.op x y ∧ a.Matches x ∧ b.Matches y

/-- The operators and operands after the first are this chain. -/
def Comparisons.Matches : Comparisons → List CompareOp → List Node → Prop
  | .last op e, ops, ys => ∃ y, ops = [op] ∧ ys = [y] ∧ e.Matches y
  | .more op e rest, ops, ys => ∃ y ops' ys', ops = op :: ops' ∧ ys = y :: ys' ∧
      e.Matches y ∧ rest.Matches ops' ys'

end

end ShellAnalysis
