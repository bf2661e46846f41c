import ObjectGraph.Catalog.Basic
import ObjectGraph.Document.OfJson
import ObjectGraph.Document.Yaml

/-! # Reading catalogs

A catalog is read strictly: a member that is not known, that is missing though it has no default,
or that has the wrong type makes the whole catalog unreadable. -/

namespace ObjectGraph

namespace Catalog

open Document

/-- One name or a list of names. -/
def Names.ofDocument? (d : Document) : Option Names :=
  match d with
  | .scalar s => s.bareText.map .one
  | .list _ items => (items.mapM bareText?).map .many
  | .record _ => none

/-- A direction of ordering: its name, or a record whose only member is its name without a
value. -/
def order? (d : Document) : Option Sql.SortOrder :=
  match d with
  | .scalar s => s.text.bind Sql.SortOrder.ofName?
  | .record [(some name, .scalar s)] =>
    if s.absent && s.text.isNone then Sql.SortOrder.ofName? name else none
  | _ => none

/-- The test whether the caller did something to an object. -/
def existsByUser? (d : Document) : Option Schema.ExistsByUser := do
  let m ← d.record? true [⟨"table", false⟩, ⟨"parent_column", false⟩, ⟨"user_column", true⟩,
    ⟨"parent_key", true⟩, ⟨"extra", false⟩]
  let table ← required? m "table" text?
  let parentColumn ← required? m "parent_column" text?
  let userColumn ← defaulted? m "user_column" "userId" text?
  let parentKey ← defaulted? m "parent_key" "id" text?
  let extra ← optional? m "extra" text?
  pure { table, parentColumn, userColumn, parentKey, extra }

/-- A declared relation. -/
def RelationDefinition.ofDocument? (d : Document) : Option RelationDefinition := do
  let m ← d.record? true [⟨"type", false⟩, ⟨"many", true⟩, ⟨"parent_column", false⟩,
    ⟨"child_column", false⟩, ⟨"condition", false⟩, ⟨"sort", false⟩, ⟨"order", true⟩,
    ⟨"limit", false⟩]
  let target ← required? m "type" text?
  let many ← defaulted? m "many" false truth?
  let parentColumn ← optional? m "parent_column" text?
  let childColumn ← optional? m "child_column" text?
  let condition ← optional? m "condition" text?
  let sort ← optional? m "sort" text?
  let order ← defaulted? m "order" .asc order?
  let limit ← optional? m "limit" word?
  pure { target, many, parentColumn, childColumn, condition, sort, order, limit }

/-- A declared alias. -/
def AliasDefinition.ofDocument? (d : Document) : Option AliasDefinition := do
  let m ← d.record? true [⟨"field", false⟩, ⟨"type", false⟩]
  let field ← required? m "field" text?
  let typeName ← optional? m "type" text?
  pure { field, typeName }

/-- Declared paging. -/
def PagingDefinition.ofDocument? (d : Document) : Option PagingDefinition := do
  let m ← d.record? true [⟨"limit", false⟩, ⟨"cursor_column", false⟩]
  let limit ← required? m "limit" word?
  let cursorColumn ← optional? m "cursor_column" text?
  pure { limit, cursorColumn }

/-- A declared field. -/
def FieldDefinition.ofDocument? (d : Document) : Option FieldDefinition := do
  let m ← d.record? true [⟨"column", false⟩, ⟨"raw_select", false⟩, ⟨"exists", false⟩,
    ⟨"relation", false⟩, ⟨"alias", false⟩, ⟨"json", true⟩, ⟨"transform", false⟩,
    ⟨"pagination", false⟩]
  let column ← optional? m "column" text?
  let rawSelect ← optional? m "raw_select" text?
  let existsByUser ← optional? m "exists" existsByUser?
  let relation ← optional? m "relation" RelationDefinition.ofDocument?
  let aliasOf ← optional? m "alias" AliasDefinition.ofDocument?
  let json ← defaulted? m "json" false truth?
  let transform ← optional? m "transform" Names.ofDocument?
  let paging ← optional? m "pagination" PagingDefinition.ofDocument?
  pure { column, rawSelect, existsByUser, relation, aliasOf, json, transform, paging }

/-- A declared type. -/
def TypeDefinition.ofDocument? (d : Document) : Option TypeDefinition := do
  let m ← d.record? true [⟨"table", false⟩, ⟨"key", false⟩, ⟨"required_columns", true⟩,
    ⟨"filter", false⟩, ⟨"fields", true⟩]
  let table ← optional? m "table" text?
  let key ← optional? m "key" Names.ofDocument?
  let required ← defaulted? m "required_columns" [] (listOf? text?)
  let filter ← optional? m "filter" text?
  let fields ← defaulted? m "fields" [] (dictionary? FieldDefinition.ofDocument?)
  pure { table, key, required, filter, fields }

/-- The catalog of a document. -/
def ofDocument? (d : Document) : Option Catalog := do
  let m ← d.record? true [⟨"types", true⟩, ⟨"exposed", true⟩]
  let types ← defaulted? m "types" [] (dictionary? TypeDefinition.ofDocument?)
  let exposed ← defaulted? m "exposed" [] (dictionary? (dictionary? text?))
  pure { types, exposed }

/-- The catalog of a YAML text. -/
def ofYaml? (text : String) : Option Catalog := (Yaml.parse? text).bind ofDocument?

/-- The catalog of a JSON value. -/
def ofJson? (value : Json) : Option Catalog := ofDocument? (Document.ofJson value)

end Catalog

end ObjectGraph
