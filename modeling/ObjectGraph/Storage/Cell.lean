import ObjectGraph.Json.Printer
import ObjectGraph.Text.Base64
import ObjectGraph.Text.Utf8

/-! # Cells of a database

`Cell` is a value as the database stores it.  `Cell.ofJson` is what a parameter is bound as, and
`Cell.toJson` what a stored value is read back as.  Not every real has a JSON number, text need
not be well-formed UTF-8, and blobs are read as Base64 text. -/

namespace ObjectGraph

/-- A value as the database stores it. -/
inductive Cell
  | null
  | integer (value : Int64)
  | real (value : Binary64)
  /-- An infinity or an undefined number. -/
  | irregular (bits : UInt64)
  | text (bytes : List UInt8)
  | blob (bytes : List UInt8)
deriving DecidableEq, Repr

namespace Cell

/-- The name of a type of storage. -/
def typeName : Cell → String
  | .null => "null"
  | .integer _ => "integer"
  | .real _ | .irregular _ => "real"
  | .text _ => "text"
  | .blob _ => "blob"

/-- The double nearest to a 64-bit integer. -/
def nearestReal (n : Int) : Binary64 :=
  (Binary64.ofNat (n < 0) n.natAbs).getD (.zero false)

/-- A parameter as it is bound: integers beyond a signed word become reals, lists and objects
their text. -/
def ofJson : Json → Cell
  | .null => .null
  | .bool b => .integer (if b then 1 else 0)
  | .num (.int n) =>
    if -2 ^ 63 ≤ n ∧ n < 2 ^ 63 then .integer (Int64.ofInt n) else .real (nearestReal n)
  | .num (.float x) => .real x
  | .str s => .text (Text.Utf8.encode s)
  | value => .text (Text.Utf8.encode value.render)

/-- A stored value as it is read. -/
def toJson : Cell → Json
  | .null => .null
  | .integer n => .num (.int n.toInt)
  | .real x => .num (.float x)
  | .irregular _ => .null
  | .text bytes => .str (Text.Utf8.decodeLossy bytes)
  | .blob bytes => .str (Text.Base64.encode bytes)

end Cell

end ObjectGraph
