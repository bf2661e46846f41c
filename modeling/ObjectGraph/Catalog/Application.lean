import ObjectGraph.Catalog.Basic
import ObjectGraph.Schema.Registry

/-! # Applying catalogs

`Catalog.applyTo` adds the declared types and exposed fields to a draft.  It fails on the first
field, in the order of names, that has several sources, a relation without a proper join, an
unknown transform or empty pages. -/

namespace ObjectGraph

namespace Catalog

open Schema (Draft JoinRule Relation FieldMapping TypeMapping)

/-- The join of a declared relation. -/
def RelationDefinition.join (typeName field : String) (r : RelationDefinition) :
    Except Schema.Error JoinRule :=
  match r.parentColumn, r.childColumn, r.condition with
  | some parent, some child, none =>
    .ok (match r.limit with
      | none => .columns parent child
      | some limit => .limitedColumns parent child limit)
  | none, none, some condition => .ok (.condition condition r.limit)
  | _, _, some _ => .error (.invalidCatalog typeName field .mixedJoin)
  | _, _, none => .error (.invalidCatalog typeName field .incompleteJoin)

/-- The relation that is declared. -/
def RelationDefinition.toRelation (typeName field : String) (r : RelationDefinition) :
    Except Schema.Error Relation := do
  let join ← r.join typeName field
  pure { target := r.target, many := r.many, join, sort := r.sort.map fun c => (c, r.order) }

/-- The names of the sources that a field declares. -/
def FieldDefinition.sources (f : FieldDefinition) : List String :=
  [("column", f.column.isSome), ("raw_select", f.rawSelect.isSome),
    ("exists", f.existsByUser.isSome), ("relation", f.relation.isSome),
    ("alias", f.aliasOf.isSome)].filterMap fun s => if s.2 then some s.1 else none

/-- The mapping of the declared source; a column named like the field if there is none. -/
def FieldDefinition.sourceMapping (typeName field : String) (f : FieldDefinition) :
    Except Schema.Error FieldMapping :=
  match f.column, f.rawSelect, f.existsByUser, f.relation, f.aliasOf with
  | some column, _, _, _, _ => .ok (.column column)
  | none, some raw, _, _, _ => .ok (.raw raw)
  | none, none, some test, _, _ => .ok (.existsByUser test)
  | none, none, none, some relation, _ =>
    (relation.toRelation typeName field).map fun r => { source := .relation r }
  | none, none, none, none, some target =>
    .ok { source := .aliasOf target.field target.typeName }
  | none, none, none, none, none => .ok .plain

/-- Add named transforms to a mapping. -/
def addTransforms (typeName field : String) (m : FieldMapping) (names : List String) :
    Except Schema.Error FieldMapping :=
  names.foldlM (fun m name =>
    match Transform.named? name with
    | some t => .ok (m.andTransform t)
    | none => .error (.unknownTransform typeName field name)) m

/-- The paging that is declared. -/
def PagingDefinition.toPaging (typeName field : String) (p : PagingDefinition) :
    Except Schema.Error Paging :=
  if p.limit = 0 then .error (.invalidCatalog typeName field .emptyPage)
  else
    .ok (match p.cursorColumn with
      | some column => (Paging.ofLimit p.limit).withTimeCursor column
      | none => Paging.ofLimit p.limit)

/-- The mapping of a declared field. -/
def FieldDefinition.toMapping (typeName field : String) (f : FieldDefinition) :
    Except Schema.Error FieldMapping := do
  if 1 < f.sources.length then throw (.conflictingSources typeName field f.sources)
  let m ← f.sourceMapping typeName field
  let m := { m with json := f.json }
  let m ← addTransforms typeName field m ((f.transform.map Names.toList).getD [])
  match f.paging with
  | none => pure m
  | some paging =>
    let paging ← paging.toPaging typeName field
    pure { m with paging := some paging }

/-- The mappings of declared fields. -/
def fieldMappings (typeName : String) :
    Dictionary FieldDefinition → Except Schema.Error (Dictionary FieldMapping)
  | [] => .ok []
  | (field, f) :: rest => do
    let m ← f.toMapping typeName field
    let rest ← fieldMappings typeName rest
    pure ((field, m) :: rest)

/-- The mapping of a declared type. -/
def TypeDefinition.toMapping (typeName : String) (t : TypeDefinition) :
    Except Schema.Error TypeMapping := do
  let fields ← fieldMappings typeName t.fields
  pure
    { table := t.table
      key := (t.key.map Names.toList).getD ["id"]
      required := t.required
      filter := t.filter.map .template
      fields }

/-- Register declared types. -/
def registerTypes (d : Draft) : Dictionary TypeDefinition → Except Schema.Error Draft
  | [] => .ok d
  | (typeName, t) :: rest => do
    let mapping ← t.toMapping typeName
    registerTypes (d.register typeName mapping) rest

/-- Expose declared fields. -/
def exposeFields (d : Draft) (exposed : Dictionary (Dictionary String)) : Draft :=
  exposed.foldl (fun d (typeName, fields) =>
    fields.foldl (fun d (field, kind) =>
      d.expose typeName field (Schema.ExposedKind.parse kind)) d) d

/-- Add everything that is declared to a draft. -/
def applyTo (c : Catalog) (d : Draft) : Except Schema.Error Draft := do
  let d ← registerTypes d c.types
  pure (exposeFields d c.exposed)

end Catalog

end ObjectGraph
