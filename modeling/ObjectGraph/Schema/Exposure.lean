import ObjectGraph.Text.Blank

/-! # Exposed kinds

How the layer above exposes a field: as a scalar, as an object or as a list of objects. -/

namespace ObjectGraph

namespace Schema

/-- The kind under which a field is exposed. -/
inductive ExposedKind
  | scalar
  | object (typeName : String)
  | list (typeName : String)
deriving DecidableEq, Repr

namespace ExposedKind

/-- The inner part of a text in square brackets. -/
def bracketed? (text : List Char) : Option (List Char) :=
  match text with
  | '[' :: rest => if rest.getLast? = some ']' then some rest.dropLast else none
  | _ => none

/-- `scalar` in any case, `Type` or `[Type]`; white space around them does not count. -/
def parse (text : String) : ExposedKind :=
  let text := Text.trim text
  if text.map Char.toLower = "scalar" then .scalar
  else
    match bracketed? text.toList with
    | some inner => .list (Text.trim (String.ofList inner))
    | none => .object text

/-- The kind in words. -/
def describe : ExposedKind → String
  | .scalar => "scalar"
  | .object t => s!"single `{t}`"
  | .list t => s!"list of `{t}`"

end ExposedKind

end Schema

end ObjectGraph
