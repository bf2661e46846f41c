import ObjectGraph.Binary64.Decimal
import ObjectGraph.Dictionary

/-! # JSON values

A `Json` value keeps its numbers as integers or doubles, which are never equal to each other, and
its objects as lists of members in order.  `Json.same` is equality of values: it compares objects
without regard to the order of their members and takes the two zeros for one number. -/

namespace ObjectGraph

/-- A JSON number: an integer or a double. -/
inductive Number
  | int (value : Int)
  | float (value : Binary64)
deriving DecidableEq, Repr

/-- A JSON value. -/
inductive Json
  | null
  | bool (value : Bool)
  | num (value : Number)
  | str (text : String)
  | arr (items : List Json)
  | obj (members : List (String × Json))
deriving Repr, Inhabited

/-- A JSON object: its members in order. -/
abbrev Object := Dictionary Json

/-- Equality of numbers: an integer never equals a double, and the two zeros are one. -/
def Number.same : Number → Number → Bool
  | .int x, .int y => x == y
  | .float x, .float y => x.sameValue y
  | _, _ => false

namespace Json

mutual

/-- Equality of values; the order of an object's members does not count. -/
def same : Json → Json → Bool
  | .null, .null => true
  | .bool x, .bool y => x == y
  | .num x, .num y => x.same y
  | .str x, .str y => x == y
  | .arr xs, .arr ys => sameItems xs ys
  | .obj xs, .obj ys => xs.length == ys.length && membersIn xs ys
  | _, _ => false

/-- Equality of lists of values, item by item. -/
def sameItems : List Json → List Json → Bool
  | [], [] => true
  | x :: xs, y :: ys => same x y && sameItems xs ys
  | _, _ => false

/-- Whether every member is found with an equal value in another object. -/
def membersIn : List (String × Json) → List (String × Json) → Bool
  | [], _ => true
  | (key, x) :: xs, ys =>
    (match ys.lookup key with
      | some y => same x y
      | none => false) && membersIn xs ys

end

/-- Whether the value is `null`. -/
def isNull : Json → Bool
  | .null => true
  | _ => false

/-- The members of an object. -/
def object? : Json → Option Object
  | .obj members => some members
  | _ => none

/-- The items of an array. -/
def items? : Json → Option (List Json)
  | .arr items => some items
  | _ => none

/-- The text of a string. -/
def text? : Json → Option String
  | .str text => some text
  | _ => none

/-- The truth value of a boolean. -/
def bool? : Json → Option Bool
  | .bool value => some value
  | _ => none

/-- Integers from `0` to `2 ^ 64 - 1`. -/
def word? : Json → Option Nat
  | .num (.int n) => if 0 ≤ n ∧ n < 2 ^ 64 then some n.toNat else none
  | _ => none

/-- The integer of a natural number. -/
def ofNat (n : Nat) : Json := .num (.int n)

/-- The value, or `null`. -/
def ofOption {α : Type} (f : α → Json) : Option α → Json
  | none => .null
  | some x => f x

end Json

end ObjectGraph
