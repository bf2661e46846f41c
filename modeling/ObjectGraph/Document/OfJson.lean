import ObjectGraph.Document.Basic
import ObjectGraph.Json.Basic

/-! # JSON values as documents

Every scalar has the one reading of its type, and a list may stand for a record. -/

namespace ObjectGraph

namespace Document

mutual

/-- What a JSON value says. -/
def ofJson : Json → Document
  | .null => .scalar { absent := true }
  | .bool b => .scalar { truth := some b }
  | .num n => .scalar { word := (Json.num n).word? }
  | .str text => .scalar { text := some text, bareText := some text }
  | .arr items => .list true (ofItems items)
  | .obj members => .record (ofMembers members)

/-- What the items of an array say. -/
def ofItems : List Json → List Document
  | [] => []
  | item :: items => ofJson item :: ofItems items

/-- What the members of an object say. -/
def ofMembers : List (String × Json) → List (Option String × Document)
  | [] => []
  | (key, value) :: members => (some key, ofJson value) :: ofMembers members

end

end Document

end ObjectGraph
