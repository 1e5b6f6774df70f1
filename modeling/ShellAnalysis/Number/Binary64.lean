/-!
# Binary64 numbers from decimals

`ofDecimal digits exponent` is the bit pattern of the binary64 number nearest
to `digits · 10 ^ exponent`, ties to the even neighbour, and infinity past the
largest one.  The arithmetic is exact.
-/

namespace ShellAnalysis.Binary64

/-- The bits of positive infinity. -/
def infinity : Nat := 0x7ff0000000000000

/-- The largest `k` with `2 ^ k ≤ num / den`, for positive numbers. -/
def floorLog2 (num den : Nat) : Int :=
  let k : Int := (Nat.log2 num : Int) - (Nat.log2 den : Int)
  if num * Nat.pow 2 (-k).toNat < den * Nat.pow 2 k.toNat then k - 1 else k

/-- The quotient rounded to the nearest number, ties to the even one. -/
def roundDiv (num den : Nat) : Nat :=
  let q := num / den
  let r := num % den
  if 2 * r < den then q
  else if den < 2 * r then q + 1
  else if q % 2 = 0 then q else q + 1

/-- The bits of the number nearest to `num / den`.  With the exponent `e` of the last place, the
significand and `e` add up to the bits, also where rounding carries into the exponent. -/
def ofRatio (num den : Nat) : Nat :=
  if num = 0 then 0
  else
    let e : Int := max (floorLog2 num den - 52) (-1074)
    let significand := roundDiv (num * Nat.pow 2 (-e).toNat) (den * Nat.pow 2 e.toNat)
    let bits := (e + 1074).toNat * Nat.pow 2 52 + significand
    min bits infinity

/-- The bits of the number nearest to `digits · 10 ^ exponent`.  The answer is known without
computing the power where `2 ^ 3 < 10 < 2 ^ 4` already puts the number outside the range. -/
def ofDecimal (digits : Nat) (exponent : Int) : UInt64 :=
  let length : Int := Nat.log2 digits
  let bits :=
    if digits = 0 ∨ length + (if exponent < 0 then 3 else 4) * exponent < -1200 then 0
    else if 1100 < length + (if exponent < 0 then 4 else 3) * exponent then infinity
    else ofRatio (digits * Nat.pow 10 exponent.toNat) (Nat.pow 10 (-exponent).toNat)
  bits.toUInt64

end ShellAnalysis.Binary64
