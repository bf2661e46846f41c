import ObjectGraph.Json.Printer

/-! # Readings of stored values

Databases give back one value in several forms.  `Json.identityKey` is the text by which identity
values of different statements are matched, and `Json.truthy?` the truth value of a stored
boolean. -/

namespace ObjectGraph

namespace Json

/-- The text of an identity value: a string stands for itself, `null` is no identity. -/
def identityKey? : Json → Option String
  | .null => none
  | .str text => some text
  | value => some value.render

end Json

/-- Whether a number is zero. -/
def Number.isZero : Number → Bool
  | .int n => n == 0
  | .float x => x.isZero

/-- Whether a number is greater than zero. -/
def Number.isPositive : Number → Bool
  | .int n => 0 < n
  | .float x => x.isPositive

namespace Json

/-- A stored value as a truth value. -/
def truthy? : Json → Option Bool
  | .bool b => some b
  | .num n => some !n.isZero
  | .str text =>
    if text = "true" ∨ text = "t" ∨ text = "1" then some true
    else if text = "false" ∨ text = "f" ∨ text = "0" then some false
    else none
  | _ => none

end Json

end ObjectGraph
