import ObjectGraph.Paging.Basic
import ObjectGraph.Schema.Contribution
import ObjectGraph.Transform.Basic

/-! # Mappings

A `TypeMapping` says how a type of object is stored, and a `FieldMapping` where the value of a
field comes from: exactly one `FieldSource`, with decorations that parse, transform or page it. -/

namespace ObjectGraph

namespace Schema

/-- A relation to objects of another type. -/
structure Relation where
  target : String
  many : Bool
  join : JoinRule
  /-- The column that related objects are ordered by. -/
  sort : Option (String × Sql.SortOrder) := none
deriving Repr

/-- Where the value of a field comes from. -/
inductive FieldSource
  /-- A stored column, by default the one named like the field. -/
  | column (name : Option String)
  | computed (computed : Computed)
  | relation (relation : Relation)
  /-- Another field of the type, whose relation may be viewed as leading to another type. -/
  | aliasOf (field : String) (view : Option String)
deriving Repr

/-- The kind of a source, in words. -/
def FieldSource.kind : FieldSource → String
  | .column _ => "column"
  | .computed _ => "computed"
  | .relation r => if r.many then "many-relation" else "single-relation"
  | .aliasOf _ _ => "alias"

/-- How a field is answered. -/
structure FieldMapping where
  source : FieldSource
  /-- The stored text is a JSON document. -/
  json : Bool := false
  transform : Option Transform := none
  paging : Option Paging := none
  /-- The name of the column is an expression instead. -/
  rawSelect : Bool := false

namespace FieldMapping

/-- A column named like the field. -/
def plain : FieldMapping := { source := .column none }

/-- A stored column. -/
def column (name : String) : FieldMapping := { source := .column (some name) }

/-- An expression in which the hole `alias` stands for the alias of the type. -/
def raw (expression : String) : FieldMapping := { column expression with rawSelect := true }

/-- The test of `ExistsByUser`, as a truth value. -/
def existsByUser (test : ExistsByUser) : FieldMapping :=
  { source := .computed (.existsByUser test), transform := some (.builtin .toBool) }

/-- Transform the value further. -/
def andTransform (m : FieldMapping) (t : Transform) : FieldMapping :=
  { m with transform := Transform.andThen? m.transform (some t) }

/-- The relation of a mapping. -/
def relation? (m : FieldMapping) : Option Relation :=
  match m.source with
  | .relation r => some r
  | _ => none

end FieldMapping

/-- How a type is stored. -/
structure TypeMapping where
  /-- The stored table, by default the one named like the type. -/
  table : Option String := none
  /-- The columns that identify an object. -/
  key : List String := ["id"]
  /-- Columns that are fetched whatever is requested. -/
  required : List String := []
  filter : Option TypeFilter := none
  fields : Dictionary FieldMapping := []

/-- The table of a type of this name. -/
def TypeMapping.tableName (m : TypeMapping) (typeName : String) : String :=
  m.table.getD typeName

end Schema

end ObjectGraph
