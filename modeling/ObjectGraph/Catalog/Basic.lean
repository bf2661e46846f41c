import ObjectGraph.Json.Basic
import ObjectGraph.Schema.Contribution

/-! # Type catalogs

A catalog declares types, their fields and what is exposed of them.  It is read from a document
(`Catalog.ofDocument?`), written as JSON (`Catalog.toJson`) and applied to a draft of a registry
(`Catalog.applyTo`). -/

namespace ObjectGraph

namespace Catalog

/-- One name, or a list of names. -/
inductive Names
  | one (name : String)
  | many (names : List String)
deriving DecidableEq, Repr

/-- The names in order. -/
def Names.toList : Names → List String
  | .one name => [name]
  | .many names => names

/-- A declared relation. -/
structure RelationDefinition where
  target : String
  many : Bool
  parentColumn : Option String
  childColumn : Option String
  /-- A predicate over parent and child. -/
  condition : Option String
  sort : Option String
  order : Sql.SortOrder
  limit : Option Nat
deriving DecidableEq, Repr

/-- A declared alias of another field. -/
structure AliasDefinition where
  field : String
  typeName : Option String
deriving DecidableEq, Repr

/-- Declared paging. -/
structure PagingDefinition where
  limit : Nat
  cursorColumn : Option String
deriving DecidableEq, Repr

/-- A declared field. -/
structure FieldDefinition where
  column : Option String := none
  rawSelect : Option String := none
  existsByUser : Option Schema.ExistsByUser := none
  relation : Option RelationDefinition := none
  aliasOf : Option AliasDefinition := none
  json : Bool := false
  transform : Option Names := none
  paging : Option PagingDefinition := none
deriving DecidableEq, Repr

/-- A declared type. -/
structure TypeDefinition where
  table : Option String
  key : Option Names
  required : List String
  filter : Option String
  /-- The fields in the order of their names. -/
  fields : Dictionary FieldDefinition
deriving DecidableEq, Repr

end Catalog

/-- A catalog of types, in the order of their names. -/
structure Catalog where
  types : Dictionary Catalog.TypeDefinition
  /-- The kind of each exposed field, as text. -/
  exposed : Dictionary (Dictionary String)
deriving DecidableEq, Repr

end ObjectGraph
