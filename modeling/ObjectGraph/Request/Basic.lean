import ObjectGraph.Json.Basic
import ObjectGraph.Sql.Dialect

/-! # Requests

A request names a type and selects fields of it; a field that leads to other objects carries a
selection of its own.  `Request.depth` counts the levels of objects, the root being one. -/

namespace ObjectGraph

/-- A selected field; a relation is selected with fields of the related objects, maybe none. -/
inductive Selection
  | scalar (name : String)
  | nested (name : String) (fields : List Selection)
deriving Repr, Inhabited

namespace Selection

/-- The name of the field. -/
def name : Selection → String
  | .scalar name => name
  | .nested name _ => name

mutual

/-- The levels of objects below a field. -/
def depth : Selection → Nat
  | .scalar _ => 0
  | .nested _ fields => 1 + depthOf fields

/-- The levels of objects below fields. -/
def depthOf : List Selection → Nat
  | [] => 0
  | field :: fields => max (depth field) (depthOf fields)

end

end Selection

/-- A request for objects of a type. -/
structure Request where
  typeName : String
  fields : List Selection := []
  /-- Columns of the type with the values they must have. -/
  filter : Object := []
  orderBy : Option (String × Sql.SortOrder) := none
  limit : Option Nat := none
deriving Repr

/-- The levels of objects that a request asks for. -/
def Request.depth (r : Request) : Nat := 1 + Selection.depthOf r.fields

end ObjectGraph
