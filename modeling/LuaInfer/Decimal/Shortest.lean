import LuaInfer.Decimal.Binary64
/-!
# Shortest decimals

The decimal with the fewest digits that reads back as a given binary number, and of those the nearest to
it; and how it is written.
-/

namespace LuaInfer.Decimal

namespace Binary64

/-- Whether `c * 10 ^ k` lies among the reals that round to `x`. They reach half way to the neighbours on
either side, and the ends belong to them if the significand is even. Below a power of two the neighbour
is half as far. Everything is measured in quarters of the last place. -/
def readsBack (x : Binary64) (c : Nat) (k : Int) : Bool :=
  let e := x.exponent - 2
  let point := c * pow10 k * pow2 (-e)
  let unit := pow10 (-k) * pow2 e
  let low := 4 * x.significand - (if x.significand = leadingBit && minExponent < x.exponent then 1 else 2)
  let high := 4 * x.significand + 2
  if x.significand % 2 = 0 then low * unit ≤ point && point ≤ high * unit
  else low * unit < point && point < high * unit

/-- The multiple of `10 ^ k` that reads back as `x`, if there is one; the nearer one of two. -/
def onGrid? (x : Binary64) (k : Int) : Option Nat :=
  let (num, den) := x.ratio
  let num := num * pow10 (-k)
  let den := den * pow10 k
  let below := num / den
  match x.readsBack below k, x.readsBack (below + 1) k with
  | true, true => some (roundDiv num den)
  | true, false => some below
  | false, true => some (below + 1)
  | false, false => none

/-- The coarsest grid from `10 ^ k` down on which something reads back. -/
def shortestFrom (x : Binary64) : Nat → Int → Nat × Int
  | 0, k => (0, k)
  | fuel + 1, k =>
    match x.onGrid? k with
    | some c => (c, k)
    | none => x.shortestFrom fuel (k - 1)

/-- The digits `c` and the exponent `k` of the shortest decimal `c * 10 ^ k`, for a number that is not
zero. No number of the format reaches `10 ^ 309`, and on the grid of `10 ^ -340` each reads back. -/
def shortest (x : Binary64) : Nat × Int := x.shortestFrom 650 309

end Binary64

/-- An integer with its sign, a plus for zero. -/
def signed (n : Int) : List Char :=
  (if n < 0 then '-' else '+') :: Nat.toDigits 10 n.natAbs

/-- The decimal `c * 10 ^ k`: with a point and all its digits if the point falls at most sixteen digits
after the first and at most four zeros before it, and with an exponent otherwise. -/
def layout (c : Nat) (k : Int) : List Char :=
  let digits := Nat.toDigits 10 c
  let point : Int := digits.length + k
  if 0 ≤ k && point ≤ 16 then digits ++ List.replicate k.toNat '0' ++ ['.', '0']
  else if 0 < point && point ≤ 16 then digits.take point.toNat ++ '.' :: digits.drop point.toNat
  else if -5 < point && point ≤ 0 then '0' :: '.' :: List.replicate (-point).toNat '0' ++ digits
  else
    let fraction :=
      match digits.drop 1 with
      | [] => []
      | rest => '.' :: rest
    digits.take 1 ++ fraction ++ 'e' :: signed (point - 1)

/-- The text of a signed number. -/
def text (negative : Bool) (x : Binary64) : String :=
  let magnitude :=
    if x.significand = 0 then ['0', '.', '0']
    else
      let (c, k) := x.shortest
      layout c k
  .ofList (if negative then '-' :: magnitude else magnitude)

end LuaInfer.Decimal
