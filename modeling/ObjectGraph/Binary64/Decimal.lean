import ObjectGraph.Binary64.Basic

/-! # Decimal digits of doubles

Writing: `Binary64.shortest` gives the fewest decimal digits that read back as the number, and of
those the nearest ones; an exact tie goes to the even last digit.  It tests the two neighbours of
the number on the grids of 1, 2, … 17 digits, in exact arithmetic.  `Binary64.text` lays the
digits out: positional from `0.00001` below `10 ^ 16`, always with a fractional digit, and
scientific with a signed exponent elsewhere.

Reading: `Binary64.ofScaled` takes a word of digits and a power of ten.  The word is rounded to a
double and then multiplied or divided by the power of ten, itself a double, so that two roundings
may happen; a magnitude beyond the largest double is refused, one below the smallest is zero. -/

namespace ObjectGraph

namespace Binary64

/-! ### Shortest digits -/

/-- Number of decimal digits of a natural number; zero has none. -/
def digitCount (n : Nat) : Nat := if n = 0 then 0 else (Nat.toDigits 10 n).length

/-- Exponent of the leading decimal digit of `numerator / denominator`, for positive arguments. -/
def leadingExponent (numerator denominator : Nat) : Int :=
  if denominator ≤ numerator then (digitCount (numerator / denominator) : Int) - 1
  else -(digitCount ((denominator - 1) / numerator) : Int)

/-- The open or closed interval of numbers that round to a double, in units of `2 ^ -1076`. -/
structure RoundingInterval where
  low : Nat
  high : Nat
  closed : Bool

/-- The interval reaches half way to both neighbours, and holds its ends iff the significand is
even; below a power of two the neighbour is half as far. -/
def roundingInterval (x : Binary64) : RoundingInterval :=
  let below := if x.significand = 2 ^ 52 ∧ x.scale ≠ 0 then 1 else 2
  { low := (4 * x.significand - below) * Nat.pow 2 x.scale
    high := (4 * x.significand + 2) * Nat.pow 2 x.scale
    closed := x.significand % 2 = 0 }

/-- Whether `value / unit` lies in the interval. -/
def RoundingInterval.holds (i : RoundingInterval) (value unit : Nat) : Bool :=
  if i.closed then i.low * unit ≤ value && value ≤ i.high * unit
  else i.low * unit < value && value < i.high * unit

/-- Decimal digits with a power of ten: `digits * 10 ^ exponent`. -/
structure Digits where
  digits : Nat
  exponent : Int
deriving DecidableEq, Repr

/-- The neighbour on the grid of multiples of `10 ^ exponent` that reads back as the number, the
nearer one if both do. -/
def onGrid (x : Binary64) (exponent : Int) : Option Digits :=
  let grow := if exponent < 0 then Nat.pow 10 (-exponent).toNat else 1
  let step := (if exponent < 0 then 1 else Nat.pow 10 exponent.toNat) * 2 ^ 1076
  let value := 4 * x.units * grow
  let lower := value / step
  let interval := x.roundingInterval
  let lowerHolds := interval.holds (lower * step) grow
  let upperHolds := interval.holds ((lower + 1) * step) grow
  let nearest := roundHalfEven value step
  if lowerHolds && upperHolds then some ⟨nearest, exponent⟩
  else if lowerHolds then some ⟨lower, exponent⟩
  else if upperHolds then some ⟨lower + 1, exponent⟩
  else none

/-- Drop trailing zeros, keeping at least one digit. -/
def trimZeros : (fuel : Nat) → Digits → Digits
  | 0, d => d
  | fuel + 1, d =>
    if d.digits ≠ 0 ∧ d.digits % 10 = 0 then trimZeros fuel ⟨d.digits / 10, d.exponent + 1⟩ else d

/-- The shortest digits that read back as the magnitude of the number. -/
def shortest (x : Binary64) : Digits :=
  if x.isZero then ⟨0, 0⟩
  else
    let lead := leadingExponent x.units (2 ^ 1074)
    match (List.range 17).findSome? (fun (n : Nat) => x.onGrid (lead - (n : Int))) with
    | some d => trimZeros 20 d
    | none => ⟨0, 0⟩

/-- How decimal digits are laid out. -/
structure Layout where
  /-- Leading exponents from this one on are written positionally … -/
  positionalFrom : Int
  /-- … and below this one. -/
  positionalBelow : Int
  /-- Text that introduces the exponent of the scientific form. -/
  exponentMark : String
  /-- Text before a non-negative exponent. -/
  exponentPlus : String

/-- Positional from `0.00001` to below `10 ^ 16`; elsewhere `1.5e-7`, `1e+16`. -/
def jsonLayout : Layout := ⟨-5, 16, "e", "+"⟩

/-- Lay out a non-negative number; the positional form always has a fractional digit. -/
def Layout.write (layout : Layout) (d : Digits) : String :=
  let text := toString d.digits
  let count := text.length
  let lead : Int := d.exponent + count - 1
  if d.digits = 0 then "0.0"
  else if layout.positionalFrom ≤ lead ∧ lead < layout.positionalBelow then
    if 0 ≤ d.exponent then
      text ++ String.ofList (List.replicate d.exponent.toNat '0') ++ ".0"
    else if 0 ≤ lead then
      let cut := lead.toNat + 1
      String.ofList (text.toList.take cut) ++ "." ++ String.ofList (text.toList.drop cut)
    else
      "0." ++ String.ofList (List.replicate (-lead - 1).toNat '0') ++ text
  else
    let mantissa := match text.toList with
      | [] => ""
      | [c] => String.ofList [c]
      | c :: rest => String.ofList (c :: '.' :: rest)
    let sign := if lead < 0 then "-" else layout.exponentPlus
    mantissa ++ layout.exponentMark ++ sign ++ toString lead.natAbs

/-- The decimal text of a double. -/
def text (x : Binary64) : String :=
  (if x.negative then "-" else "") ++ jsonLayout.write x.shortest

/-! ### Reading -/

/-- The double nearest to a power of ten. -/
def powerOfTen? (n : Nat) : Option Binary64 := ofNat false (Nat.pow 10 n)

/-- Multiply or divide by a power of ten between `10 ^ -308` and `10 ^ 308`. -/
def scaleByTen? (x : Binary64) (exponent : Int) : Option Binary64 :=
  if exponent < 0 then (powerOfTen? exponent.natAbs).bind x.div?
  else (powerOfTen? exponent.toNat).bind x.mul?

/-- The number written as a word of digits and a power of ten.  A division by more than
`10 ^ 308` takes two steps; after two of them nothing but zero is left of a 64-bit word. -/
def ofScaled (negative : Bool) (word : Nat) (exponent : Int) : Option Binary64 := do
  let x ← ofNat negative word
  if x.isZero then pure x
  else if exponent.natAbs ≤ 308 then x.scaleByTen? exponent
  else if 0 ≤ exponent then none
  else if -616 ≤ exponent then (← x.scaleByTen? (-308)).scaleByTen? (exponent + 308)
  else pure (zero negative)

/-- Whether the double nearest to `digits * 10 ^ exponent` is finite.  Only numbers of 309 places
before the point need a closer look. -/
def isFiniteScaled (digits : Nat) (exponent : Int) : Bool :=
  let places : Int := digitCount digits + exponent
  if digits = 0 ∨ places ≤ 308 then true
  else if 310 ≤ places then false
  else if 0 ≤ exponent then (ofNat false (digits * Nat.pow 10 exponent.toNat)).isSome
  else (ofRatio false digits (Nat.pow 10 exponent.natAbs)).isSome

example : (ofScaled false 15 (-1)).map text = some "1.5" := by decide +kernel
example : (ofScaled true 0 0).map text = some "-0.0" := by decide +kernel
example : (ofScaled false 1 16).map text = some "1e+16" := by decide +kernel
example : (ofScaled false 1 (-5)).map text = some "0.00001" := by decide +kernel
example : (ofScaled false 5 (-324)).map text = some "5e-324" := by decide +kernel

end Binary64

end ObjectGraph
