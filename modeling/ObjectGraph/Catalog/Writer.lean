import ObjectGraph.Catalog.Basic

/-! # Writing catalogs

The written form of a catalog has every member of its types and fields, `null` where nothing is
declared; only an empty list of exposed fields is left out. -/

namespace ObjectGraph

namespace Catalog

/-- A text, or `null`. -/
def textOrNull (text : Option String) : Json := Json.ofOption .str text

/-- A list of texts. -/
def texts (items : List String) : Json := .arr (items.map .str)

/-- One name, or a list of names. -/
def Names.toJson : Names → Json
  | .one name => .str name
  | .many names => texts names

/-- The written form of a test. -/
def existsToJson (e : Schema.ExistsByUser) : Json :=
  .obj [("table", .str e.table), ("parent_column", .str e.parentColumn),
    ("user_column", .str e.userColumn), ("parent_key", .str e.parentKey),
    ("extra", textOrNull e.extra)]

/-- The written form of a relation. -/
def RelationDefinition.toJson (r : RelationDefinition) : Json :=
  .obj [("type", .str r.target), ("many", .bool r.many),
    ("parent_column", textOrNull r.parentColumn), ("child_column", textOrNull r.childColumn),
    ("condition", textOrNull r.condition), ("sort", textOrNull r.sort),
    ("order", .str r.order.name), ("limit", Json.ofOption Json.ofNat r.limit)]

/-- The written form of an alias. -/
def AliasDefinition.toJson (a : AliasDefinition) : Json :=
  .obj [("field", .str a.field), ("type", textOrNull a.typeName)]

/-- The written form of paging. -/
def PagingDefinition.toJson (p : PagingDefinition) : Json :=
  .obj [("limit", Json.ofNat p.limit), ("cursor_column", textOrNull p.cursorColumn)]

/-- The written form of a field. -/
def FieldDefinition.toJson (f : FieldDefinition) : Json :=
  .obj [("column", textOrNull f.column), ("raw_select", textOrNull f.rawSelect),
    ("exists", Json.ofOption existsToJson f.existsByUser),
    ("relation", Json.ofOption RelationDefinition.toJson f.relation),
    ("alias", Json.ofOption AliasDefinition.toJson f.aliasOf), ("json", .bool f.json),
    ("transform", Json.ofOption Names.toJson f.transform),
    ("pagination", Json.ofOption PagingDefinition.toJson f.paging)]

/-- The written form of a dictionary. -/
def dictionaryToJson {α : Type} (f : α → Json) (d : Dictionary α) : Json :=
  .obj (d.map fun entry => (entry.1, f entry.2))

/-- The written form of a type. -/
def TypeDefinition.toJson (t : TypeDefinition) : Json :=
  .obj [("table", textOrNull t.table), ("key", Json.ofOption Names.toJson t.key),
    ("required_columns", texts t.required), ("filter", textOrNull t.filter),
    ("fields", dictionaryToJson FieldDefinition.toJson t.fields)]

/-- The written form of a catalog. -/
def toJson (c : Catalog) : Json :=
  .obj (("types", dictionaryToJson TypeDefinition.toJson c.types) ::
    if c.exposed.isEmpty then []
    else [("exposed", dictionaryToJson (dictionaryToJson .str) c.exposed)])

end Catalog

end ObjectGraph
