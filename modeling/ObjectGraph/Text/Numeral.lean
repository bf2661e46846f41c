/-! # Integers written in decimal

Reading of a bounded integer from ASCII digits with an optional sign.  The digits are taken from
left to right and the first fault decides: a character that is no digit, or a value beyond the
bound.  A lone sign counts as a character that is no digit. -/

namespace ObjectGraph

namespace Text

/-- Why a text is no integer of the wanted range. -/
inductive NumeralError
  | empty
  | invalidDigit
  | tooLarge
  | tooSmall
deriving DecidableEq, Repr

/-- The wording of a numeral fault. -/
def NumeralError.message : NumeralError → String
  | .empty => "cannot parse integer from empty string"
  | .invalidDigit => "invalid digit found in string"
  | .tooLarge => "number too large to fit in target type"
  | .tooSmall => "number too small to fit in target type"

/-- The value of an ASCII decimal digit. -/
def digit? (c : Char) : Option Nat :=
  if '0' ≤ c ∧ c ≤ '9' then some (c.toNat - '0'.toNat) else none

/-- Read digits after a value already read, up to a bound. -/
def readDigits (bound : Nat) (overflow : NumeralError) : Nat → List Char → Except NumeralError Nat
  | value, [] => .ok value
  | value, c :: rest =>
    match digit? c with
    | none => .error .invalidDigit
    | some d =>
      if bound < value * 10 + d then .error overflow
      else readDigits bound overflow (value * 10 + d) rest

/-- Read a natural number up to a bound; a plus sign may precede it. -/
def readNat (bound : Nat) (text : List Char) : Except NumeralError Nat :=
  match text with
  | [] => .error .empty
  | ['+'] => .error .invalidDigit
  | '+' :: digits => readDigits bound .tooLarge 0 digits
  | digits => readDigits bound .tooLarge 0 digits

/-- Read an integer from `-bound - 1` to `bound`; a sign may precede it. -/
def readInt (bound : Nat) (text : List Char) : Except NumeralError Int :=
  match text with
  | [] => .error .empty
  | ['+'] | ['-'] => .error .invalidDigit
  | '-' :: digits => (readDigits (bound + 1) .tooSmall 0 digits).map fun n => -(n : Int)
  | '+' :: digits => (readDigits bound .tooLarge 0 digits).map Int.ofNat
  | digits => (readDigits bound .tooLarge 0 digits).map Int.ofNat

end Text

end ObjectGraph
