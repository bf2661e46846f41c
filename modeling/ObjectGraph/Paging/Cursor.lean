import ObjectGraph.Json.Reading
import ObjectGraph.Text.Base64
import ObjectGraph.Text.Numeral
import ObjectGraph.Text.Utf8
import ObjectGraph.Time.Timestamp

/-! # Cursors

A time cursor is the Base64 form of `time:` followed by epoch milliseconds. -/

namespace ObjectGraph

namespace Cursor

/-- What a time cursor begins with, before it is encoded. -/
def timePrefix : String := "time:"

/-- The cursor of epoch milliseconds. -/
def ofMillis (millis : Int) : String :=
  Text.Base64.encode (Text.Utf8.encode (timePrefix ++ toString millis))

/-- The cursor of an instant. -/
def ofInstant (t : Time.Instant) : String := ofMillis t.millis

/-- The text after a part that it begins with. -/
def dropPrefix? : (start text : List Char) → Option (List Char)
  | [], text => some text
  | c :: start, d :: text => if c = d then dropPrefix? start text else none
  | _ :: _, [] => none

/-- The epoch milliseconds of a time cursor. -/
def millis? (cursor : String) : Option Int := do
  let bytes ← Text.Base64.decode? cursor
  let text ← Text.Utf8.decode? bytes
  let digits ← dropPrefix? timePrefix.toList text.toList
  (Text.readInt (2 ^ 63 - 1) digits).toOption

/-- The time cursor of an object by one of its members. -/
def byTime (column : String) (o : Object) : Option String :=
  ((o.get? column).bind Time.Timestamp.ofJson?).map ofInstant

/-- The identity of an object by one of its members, as a cursor. -/
def byIdentity (column : String) (o : Object) : Option String :=
  (o.get? column).bind Json.identityKey?

end Cursor

end ObjectGraph
