import ObjectGraph.Request.Basic

/-! # Reading requests

A field is written as its name or as a record with its name and its selection, which may be
absent.  Members that are not known are passed over.  The request itself and its ordering may
also be written as lists of their members in order, of which those at the end may be missing. -/

namespace ObjectGraph

namespace Selection

mutual

/-- The field that a value describes. -/
def ofJson? : Json → Option Selection
  | .str name => some (.scalar name)
  | .obj members => do
    let name ← (members.lookup "name").bind Json.text?
    match ← selectionIn members with
    | none => pure (.scalar name)
    | some fields => pure (.nested name fields)
  | _ => none

/-- The selection among the members of a field: absent if it is missing or `null`. -/
def selectionIn : List (String × Json) → Option (Option (List Selection))
  | [] => some none
  | (key, value) :: rest =>
    if key = "fields" then
      match value with
      | .null => some none
      | .arr items => (ofItems? items).map some
      | _ => none
    else selectionIn rest

/-- The fields that values describe. -/
def ofItems? : List Json → Option (List Selection)
  | [] => some []
  | item :: items => do
    let field ← ofJson? item
    let fields ← ofItems? items
    some (field :: fields)

end

end Selection

namespace Request

/-- The members of an object, or of a list that gives them in order. -/
def members? (names : List String) : Json → Option Object
  | .obj members => some members
  | .arr items => if items.length ≤ names.length then some (names.zip items) else none
  | _ => none

/-- A member that may be missing or `null`. -/
def optional? {α : Type} (members : Object) (name : String) (f : Json → Option α) :
    Option (Option α) :=
  match members.get? name with
  | none | some .null => some none
  | some value => (f value).map some

/-- A member that has a default. -/
def defaulted? {α : Type} (members : Object) (name : String) (default : α)
    (f : Json → Option α) : Option α :=
  match members.get? name with
  | none => some default
  | some value => f value

/-- A direction of ordering: its name, or an object whose only member is its name with `null`. -/
def order? : Json → Option Sql.SortOrder
  | .str name => Sql.SortOrder.ofName? name
  | .obj [(name, .null)] => Sql.SortOrder.ofName? name
  | _ => none

/-- An ordering by a column. -/
def orderBy? (value : Json) : Option (String × Sql.SortOrder) := do
  let members ← members? ["column", "order"] value
  let column ← (members.get? "column").bind Json.text?
  let order ← defaulted? members "order" .asc order?
  pure (column, order)

/-- The request that a value describes. -/
def ofJson? (value : Json) : Option Request := do
  let members ← members? ["type", "fields", "filter", "order_by", "limit"] value
  let typeName ← (members.get? "type").bind Json.text?
  let fields ← defaulted? members "fields" [] fun v => v.items?.bind Selection.ofItems?
  let filter ← defaulted? members "filter" [] Json.object?
  let orderBy ← optional? members "order_by" orderBy?
  let limit ← optional? members "limit" Json.word?
  pure { typeName, fields, filter, orderBy, limit }

end Request

end ObjectGraph
