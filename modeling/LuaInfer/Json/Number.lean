import LuaInfer.Decimal.Binary64
import LuaInfer.Json.Basic
/-!
# Numbers in JSON text

A number is read as its parts, and valued afterwards. Its significand is the longest run of its digits
that fits into 64 bits; a number with a fraction or an exponent, or with digits left over, is a binary
floating-point number, scaled by one power of ten.
-/

namespace LuaInfer.Json

/-- The parts of a written number. -/
structure NumberText where
  negative : Bool
  /-- Digits before the point. -/
  whole : List Nat
  /-- Digits after the point, if there is one. -/
  fraction : Option (List Nat)
  /-- Whether the exponent is negative, and its digits, if there is one. -/
  exponent : Option (Bool × List Nat)
deriving DecidableEq

/-- What a number is. -/
inductive Number where
  | integer (n : Int)
  | float (negative : Bool) (magnitude : Decimal.Binary64)
deriving DecidableEq

/-- The value of a decimal digit. -/
def digit? (c : Char) : Option Nat :=
  if c.isDigit then some (c.toNat - '0'.toNat) else none

/-- The digits at the front, and what follows them. -/
def readDigits : List Char → List Nat × List Char
  | [] => ([], [])
  | c :: s =>
    match digit? c with
    | some d =>
      let (ds, rest) := readDigits s
      (d :: ds, rest)
    | none => ([], c :: s)

/-- Reads at least one digit. A digit that is missing at the end of the text is missed by a strict reader;
to a lax one the number is malformed. -/
def readSomeDigits (care : Care) : Reader (List Nat) := fun s =>
  match readDigits s with
  | ([], rest) => .error (if rest.isEmpty && care = .strict then .endOfText else .malformed)
  | (ds, rest) => .ok (ds, rest)

/-- Reads the digits before the point; a zero stands alone. -/
def readWhole (care : Care) : Reader (List Nat) := fun s => do
  match ← readSomeDigits care s with
  | (0 :: _ :: _, _) => throw .malformed
  | r => return r

/-- Reads the digits after a point, if there is one. -/
def readFraction (care : Care) : Reader (Option (List Nat))
  | '.' :: s => (readSomeDigits care s).map fun (ds, s) => (some ds, s)
  | s => .ok (none, s)

/-- Reads an exponent, if there is one. -/
def readExponent (care : Care) : Reader (Option (Bool × List Nat))
  | [] => .ok (none, [])
  | c :: s =>
    if c = 'e' || c = 'E' then
      let (negative, s) :=
        match s with
        | '-' :: s => (true, s)
        | '+' :: s => (false, s)
        | s => (false, s)
      (readSomeDigits care s).map fun (ds, s) => (some (negative, ds), s)
    else .ok (none, c :: s)

/-- Reads a number. -/
def readNumber (care : Care) : Reader NumberText := fun s => do
  let (negative, s) :=
    match s with
    | '-' :: s => (true, s)
    | s => (false, s)
  let (whole, s) ← readWhole care s
  let (fraction, s) ← readFraction care s
  let (exponent, s) ← readExponent care s
  return (⟨negative, whole, fraction, exponent⟩, s)

/-- The largest significand. -/
def maxSignificand : Nat := UInt64.size - 1

/-- Takes digits into a significand as long as it fits, and gives the digits left over. -/
def absorb (significand : Nat) : List Nat → Nat × List Nat
  | [] => (significand, [])
  | d :: ds =>
    if significand * 10 + d ≤ maxSignificand then absorb (significand * 10 + d) ds
    else (significand, d :: ds)

/-- The largest exponent of a power of ten that the format has. -/
def maxPower : Nat := 308

/-- The power of ten as the format has it. -/
def power? (k : Nat) : Option Decimal.Binary64 := Decimal.Binary64.nearest? (Decimal.pow10 k) 1

/-- Divides by a power of ten, in two steps if it is larger than the largest that there is. A number
below `2 ^ 64` is zero after two divisions by that one. -/
def shrink (x : Decimal.Binary64) (k : Nat) : Option Decimal.Binary64 := do
  let x ← x.div? (← power? (min k maxPower))
  x.div? (← power? (min (k - maxPower) maxPower))

/-- Multiplies by a power of ten; `none` if the result is too large. -/
def grow (x : Decimal.Binary64) (k : Nat) : Option Decimal.Binary64 :=
  if x.significand = 0 then some x
  else if k ≤ maxPower then (power? k).bind x.mul?
  else none

/-- The number that a list of digits denotes. -/
def ofDigits (ds : List Nat) : Nat := ds.foldl (fun n d => n * 10 + d) 0

namespace NumberText

/-- The floating-point value of `significand * 10 ^ power`. -/
def scaled? (negative : Bool) (significand : Nat) (power : Int) : Option Number := do
  let x ← Decimal.Binary64.nearest? significand 1
  let x ← if 0 ≤ power then grow x power.toNat else shrink x (-power).toNat
  return .float negative x

/-- The largest magnitude of a negative integer of 64 bits. -/
def maxNegative : Nat := UInt64.size / 2

/-- What a written number is; `none` if it is out of range. A negative zero, and an integer that does not
fit into 64 bits, are floating-point numbers. -/
def value? (t : NumberText) : Option Number :=
  let (significand, dropped) := absorb 0 t.whole
  match t.fraction, t.exponent, dropped with
  | none, none, [] =>
    if t.negative then
      if 0 < significand && significand ≤ maxNegative then some (.integer (-significand))
      else scaled? true significand 0
    else some (.integer significand)
  | fraction, exponent, dropped =>
    let fraction := fraction.getD []
    let (significand, unused) := absorb significand fraction
    let shift : Int :=
      match exponent with
      | none => 0
      | some (negative, ds) => if negative then -ofDigits ds else ofDigits ds
    scaled? t.negative significand (dropped.length - (fraction.length - unused.length) + shift)

end NumberText

end LuaInfer.Json
