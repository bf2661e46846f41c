/-! # Finite double-precision numbers

A `Binary64` is a finite number of the IEEE 754 double format, held as sign, significand and
scale: its magnitude is `significand * 2 ^ scale / 2 ^ 1074`.  The bounds in the structure make
the form canonical, so two data are equal exactly when sign and magnitude are.  All arithmetic
on them goes through `Nat`; nothing here uses the machine's floating point.

`Binary64.ofRatio` rounds a quotient of naturals to the nearest double, a tie going to the even
significand, and answers `none` where the nearest double would be infinite.  `ofNat`, `mul?` and
`div?` are its instances. -/

namespace ObjectGraph

-- Literal powers are those of the core library, also where a monoid has its own.
attribute [default_instance 20000] instPowNat

/-- A finite double: `(-1) ^ negative * significand * 2 ^ scale / 2 ^ 1074`, in canonical form. -/
structure Binary64 where
  negative : Bool
  significand : Nat
  scale : Nat
  significand_lt : significand < 2 ^ 53
  normal : scale = 0 ∨ 2 ^ 52 ≤ significand
  scale_le : scale ≤ 2045
deriving DecidableEq, Repr

namespace Binary64

/-- Zero, with a sign. -/
def zero (negative : Bool) : Binary64 :=
  ⟨negative, 0, 0, by decide, Or.inl rfl, by decide⟩

/-- Whether the number is one of the two zeros. -/
def isZero (x : Binary64) : Bool := x.significand == 0

/-- The number with the other sign. -/
def negate (x : Binary64) : Binary64 := { x with negative := !x.negative }

/-- Whether the number is greater than zero. -/
def isPositive (x : Binary64) : Bool := !x.negative && !x.isZero

/-- Equality of the numbers denoted: the two zeros are equal. -/
def sameValue (x y : Binary64) : Bool := x == y || (x.isZero && y.isZero)

/-- The magnitude as an integer multiple of `1 / 2 ^ 1074`. -/
def units (x : Binary64) : Nat := x.significand * Nat.pow 2 x.scale

theorem sameValue_refl (x : Binary64) : x.sameValue x = true := by simp [sameValue]

theorem sameValue_comm (x y : Binary64) : x.sameValue y = y.sameValue x := by
  simp only [sameValue, Bool.and_comm, BEq.comm (a := x)]

/-! ### Rounding -/

/-- Nearest integer to `numerator / denominator`; a half goes to the even neighbour. -/
def roundHalfEven (numerator denominator : Nat) : Nat :=
  let quotient := numerator / denominator
  let twice := 2 * (numerator % denominator)
  if twice < denominator then quotient
  else if denominator < twice then quotient + 1
  else if quotient % 2 = 0 then quotient else quotient + 1

/-- The double with this significand and scale, where they are in canonical form. -/
def canonical? (negative : Bool) (significand scale : Nat) : Option Binary64 :=
  if h : significand < 2 ^ 53 ∧ (scale = 0 ∨ 2 ^ 52 ≤ significand) ∧ scale ≤ 2045 then
    some ⟨negative, significand, scale, h.1, h.2.1, h.2.2⟩
  else none

/-- The double nearest to `(-1) ^ negative * numerator / denominator`, `none` on overflow.
The scale is the least one at which the truncated significand fits in 53 bits; rounding may
then carry into the next power of two. -/
def ofRatio (negative : Bool) (numerator denominator : Nat) : Option Binary64 :=
  let units := numerator * 2 ^ 1074
  let scale := (units / denominator).log2 - 52
  let significand := roundHalfEven units (denominator * Nat.pow 2 scale)
  if significand = 2 ^ 53 then canonical? negative (2 ^ 52) (scale + 1)
  else canonical? negative significand scale

/-- The double nearest to a natural number. -/
def ofNat (negative : Bool) (n : Nat) : Option Binary64 := ofRatio negative n 1

/-- The rounded product. -/
def mul? (x y : Binary64) : Option Binary64 :=
  ofRatio (x.negative != y.negative) (x.units * y.units) (2 ^ 2148)

/-- The rounded quotient; `none` also for a zero divisor. -/
def div? (x y : Binary64) : Option Binary64 :=
  if y.isZero then none else ofRatio (x.negative != y.negative) x.units y.units

end Binary64

end ObjectGraph
