import ObjectGraph.Binary64.Decimal
import ObjectGraph.Document.Basic

/-! # Bare scalars

What a scalar without quotes may be read as: nothing, a truth value, an integer in one of four
bases, a decimal number, or else a text.  A number that is too large for its kind is a text:
integers have 128 bits, and decimal numbers must round to a finite double. -/

namespace ObjectGraph

namespace Scalar

/-- The value of a digit in bases up to sixteen. -/
def digit? (base : Nat) (c : Char) : Option Nat :=
  let value :=
    if '0' ≤ c ∧ c ≤ '9' then some (c.toNat - 48)
    else if 'a' ≤ c ∧ c ≤ 'f' then some (c.toNat - 87)
    else if 'A' ≤ c ∧ c ≤ 'F' then some (c.toNat - 55)
    else none
  value.filter (· < base)

/-- The number of at least one digit of a base. -/
def digits? (base : Nat) (text : List Char) : Option Nat :=
  if text.isEmpty then none
  else (text.mapM (digit? base)).map fun ds => ds.foldl (fun n d => n * base + d) 0

/-- Digits that are no number: a leading zero and further decimal digits. -/
def hasLeadingZero (text : List Char) : Bool :=
  match text with
  | '0' :: rest => !rest.isEmpty && rest.all Char.isDigit
  | _ => false

/-- The magnitude of an integer without its sign. -/
def magnitude? (text : List Char) : Option Nat :=
  let based := match text with
    | '0' :: 'x' :: rest => digits? 16 rest
    | '0' :: 'o' :: rest => digits? 8 rest
    | '0' :: 'b' :: rest => digits? 2 rest
    | _ => none
  match based with
  | some n => some n
  | none => if hasLeadingZero text then none else digits? 10 text

/-- An integer without a minus sign. -/
def unsigned? (text : List Char) : Option Nat :=
  match text with
  | '+' :: rest => magnitude? rest
  | _ => magnitude? text

/-- Whether a text is an integer of 128 bits; a sign may precede it. -/
def isInteger (text : List Char) : Bool :=
  match text with
  | '-' :: rest => (magnitude? rest).any (· ≤ 2 ^ 127)
  | _ => (unsigned? text).any (· < 2 ^ 128)

/-- The power of ten at the end of a decimal number; none is the zeroth. -/
def exponent? (text : List Char) : Option Int :=
  match text with
  | [] => some 0
  | mark :: rest =>
    let (negative, digits) := match rest with
      | '-' :: digits => (true, digits)
      | '+' :: digits => (false, digits)
      | _ => (false, rest)
    if mark = 'e' ∨ mark = 'E' then
      (digits? 10 digits).map fun n => if negative then -(n : Int) else n
    else none

/-- The words for an infinity or an undefined number. -/
def unboundedWords : List String :=
  [".inf", ".Inf", ".INF", "+.inf", "+.Inf", "+.INF", "-.inf", "-.Inf", "-.INF",
    ".nan", ".NaN", ".NAN"]

/-- Whether a text is a decimal number, with a point or an exponent or both, that rounds to a
finite double. -/
def isDecimal (text : List Char) : Bool :=
  let unsigned := match text with
    | '-' :: rest | '+' :: rest => rest
    | _ => text
  let whole := unsigned.takeWhile Char.isDigit
  let rest := unsigned.dropWhile Char.isDigit
  let (decimals, rest) := match rest with
    | '.' :: rest => (rest.takeWhile Char.isDigit, rest.dropWhile Char.isDigit)
    | _ => ([], rest)
  match digits? 10 (whole ++ decimals), exponent? rest with
  | some digits, some exponent =>
    !hasLeadingZero unsigned && Binary64.isFiniteScaled digits (exponent - decimals.length)
  | _, _ => false

/-- Whether a text is a number that is no integer. -/
def isFraction (text : List Char) : Bool :=
  isDecimal text || unboundedWords.contains (String.ofList text)

/-- The readings of a scalar without quotes. -/
def bare (chars : List Char) : Scalar :=
  let text := String.ofList chars
  let absent := ["", "null", "Null", "NULL", "~"].contains text
  let truth :=
    if ["true", "True", "TRUE"].contains text then some true
    else if ["false", "False", "FALSE"].contains text then some false
    else none
  { blank := chars.isEmpty
    absent
    text := some text
    bareText :=
      if absent || truth.isSome || isInteger chars || isFraction chars then none else some text
    truth
    word := (unsigned? chars).filter (· < 2 ^ 64) }

/-- The readings of a scalar in quotes: a text and nothing else. -/
def quoted (text : String) : Scalar := { text := some text, bareText := some text }

end Scalar

end ObjectGraph
