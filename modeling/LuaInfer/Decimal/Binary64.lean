/-!
# Binary floating point

Finite non-negative numbers of the 64-bit binary format, as a significand times a power of two, and the
rounding of a ratio to the nearest of them.
-/

namespace LuaInfer.Decimal

/-- The power of two, and one if the exponent is negative. -/
def pow2 (k : Int) : Nat := Nat.pow 2 k.toNat

/-- The power of ten, and one if the exponent is negative. -/
def pow10 (k : Int) : Nat := Nat.pow 10 k.toNat

/-- The number `significand * 2 ^ exponent`. -/
structure Binary64 where
  significand : Nat
  exponent : Int
deriving DecidableEq

namespace Binary64

/-- The smallest exponent. -/
def minExponent : Int := -1074

/-- The largest exponent. -/
def maxExponent : Int := 971

/-- The leading bit of a significand of 53 bits. -/
def leadingBit : Nat := 0x10000000000000

/-- Zero. -/
def zero : Binary64 := ⟨0, minExponent⟩

/-- A number as a ratio. -/
def ratio (x : Binary64) : Nat × Nat :=
  (x.significand * pow2 x.exponent, pow2 (-x.exponent))

/-- The quotient rounded to the nearest integer, a half to the even one. -/
def roundDiv (num den : Nat) : Nat :=
  let q := num / den
  let r := 2 * (num % den)
  if r < den then q
  else if den < r then q + 1
  else if q % 2 = 0 then q else q + 1

/-- The quotient of `num / den` by `2 ^ e`, rounded. -/
def roundAt (num den : Nat) (e : Int) : Nat :=
  roundDiv (num * pow2 (-e)) (den * pow2 e)

/-- The number nearest to `num / den`, of two nearest the one with an even significand; `none` if it is
too large for the format. The significand has 53 bits unless the exponent is the smallest. -/
def nearest? (num den : Nat) : Option Binary64 :=
  if num = 0 then some zero
  else
    let e : Int := (num.log2 : Int) - den.log2 - 52
    let e := if num * pow2 (-e) < den * pow2 e * leadingBit then e - 1 else e
    let e := max e minExponent
    let m := roundAt num den e
    let x : Binary64 := if m = 2 * leadingBit then ⟨leadingBit, e + 1⟩ else ⟨m, e⟩
    if maxExponent < x.exponent then none else some x

/-- The rounded product. -/
def mul? (x y : Binary64) : Option Binary64 :=
  let (a, b) := x.ratio
  let (c, d) := y.ratio
  nearest? (a * c) (b * d)

/-- The rounded quotient. -/
def div? (x y : Binary64) : Option Binary64 :=
  let (a, b) := x.ratio
  let (c, d) := y.ratio
  nearest? (a * d) (b * c)

end Binary64

end LuaInfer.Decimal
