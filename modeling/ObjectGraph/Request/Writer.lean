import ObjectGraph.Request.Basic

/-! # Writing requests

The written form has every field as a record, and leaves out an absent selection, an empty
filter, and an ordering or limit that is not there. -/

namespace ObjectGraph

namespace Selection

mutual

/-- The written form of a field. -/
def toJson : Selection → Json
  | .scalar name => .obj [("name", .str name)]
  | .nested name fields => .obj [("name", .str name), ("fields", .arr (toItems fields))]

/-- The written forms of fields. -/
def toItems : List Selection → List Json
  | [] => []
  | field :: fields => toJson field :: toItems fields

end

end Selection

namespace Request

/-- A member that is written if it is there. -/
def optionalMember {α : Type} (name : String) (f : α → Json) : Option α → Object
  | none => []
  | some x => [(name, f x)]

/-- The written form of an ordering. -/
def orderByToJson (o : String × Sql.SortOrder) : Json :=
  .obj [("column", .str o.1), ("order", .str o.2.name)]

/-- The written form of a request. -/
def toJson (r : Request) : Json :=
  .obj ([("type", .str r.typeName), ("fields", .arr (Selection.toItems r.fields))] ++
    (if r.filter.isEmpty then [] else [("filter", .obj r.filter)]) ++
    optionalMember "order_by" orderByToJson r.orderBy ++
    optionalMember "limit" Json.ofNat r.limit)

end Request

end ObjectGraph
