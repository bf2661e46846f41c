import ObjectGraph.Schema.Error
import ObjectGraph.Schema.Exposure
import ObjectGraph.Schema.Mapping

/-! # The registry of types

A `Draft` collects type mappings and exposed fields in any order; `Draft.build` checks them and
gives the `Registry` that requests are planned against.  The first fault is reported: a type
registered twice, in the order of registration; then the faults of the fields of the types, both
in the order of their names; then those of the exposed fields, likewise.

`Registry.resolve` finds how a requested field is answered.  It follows one alias, and takes an
unmapped field for a column of its name unless the registry lists the exposed fields without
it. -/

namespace ObjectGraph

namespace Schema

/-- Exposed fields of types. -/
abbrev Exposure := Dictionary (Dictionary ExposedKind)

/-- Checked type mappings. -/
structure Registry where
  types : Dictionary TypeMapping
  exposed : Option Exposure

/-- Type mappings that are not checked yet. -/
structure Draft where
  types : Dictionary TypeMapping := []
  exposed : Option Exposure := none
  /-- The types that were registered again, in order. -/
  duplicates : List String := []

namespace Draft

/-- Add a type; only the first mapping of a name is kept. -/
def register (d : Draft) (typeName : String) (mapping : TypeMapping) : Draft :=
  if d.types.has typeName then { d with duplicates := d.duplicates ++ [typeName] }
  else { d with types := d.types ++ [(typeName, mapping)] }

/-- Expose a field of a type. -/
def expose (d : Draft) (typeName field : String) (kind : ExposedKind) : Draft :=
  let exposed := d.exposed.getD []
  let fields := (exposed.get? typeName).getD []
  { d with exposed := some (exposed.insert typeName (fields.insert field kind)) }

end Draft

/-! ### Checks -/

/-- The target of a relation must be registered. -/
def checkTarget (types : Dictionary TypeMapping) (typeName field target : String) :
    Except Error Unit :=
  if types.has target then .ok () else .error (.unknownTarget typeName field target)

/-- An expression must be a named column. -/
def checkRawSelect (typeName field : String) (m : FieldMapping) : Except Error Unit :=
  match m.rawSelect, m.source with
  | false, _ | true, .column (some _) => .ok ()
  | true, source => .error (.conflictingSources typeName field ["raw_select", source.kind])

/-- Only relations to many objects are paged. -/
def checkPaging (typeName field : String) (m : FieldMapping) : Except Error Unit :=
  match m.paging, m.relation? with
  | none, _ => .ok ()
  | some _, none => .error (.pagingOnValue typeName field)
  | some _, some r => if r.many then .ok () else .error (.pagingOnSingle typeName field)

/-- An alias must lead to a mapped field that is no alias, and a view must be of a relation. -/
def checkAlias (types : Dictionary TypeMapping) (typeName field : String)
    (fields : Dictionary FieldMapping) (target : String) (view : Option String) :
    Except Error Unit :=
  if target = field then .error (.invalidAlias typeName field .pointsAtItself)
  else
    match fields.get? target with
    | none => .error (.invalidAlias typeName field (.targetUnmapped target))
    | some m =>
      match m.source, view with
      | .aliasOf _ _, _ => .error (.invalidAlias typeName field (.targetIsAlias target))
      | .relation _, some view => checkTarget types typeName field view
      | _, some view => .error (.invalidAlias typeName field (.targetIsNoRelation target view))
      | _, none => .ok ()

/-- Check a field of a type. -/
def checkField (types : Dictionary TypeMapping) (typeName : String) (mapping : TypeMapping)
    (field : String) (m : FieldMapping) : Except Error Unit := do
  checkRawSelect typeName field m
  checkPaging typeName field m
  match m.source with
  | .relation r => checkTarget types typeName field r.target
  | .aliasOf target view => checkAlias types typeName field mapping.fields target view
  | .column _ | .computed _ => pure ()

/-- Check the fields of all types. -/
def checkTypes (types : Dictionary TypeMapping) : Except Error Unit :=
  types.sorted.forM fun (typeName, mapping) =>
    mapping.fields.sorted.forM fun (field, m) => checkField types typeName mapping field m

/-- The relation behind a field, with its target as the field views it. -/
def relationBehind? (fields : Dictionary FieldMapping) (field : String) :
    Option (Bool × String) :=
  match (fields.get? field).map FieldMapping.source with
  | some (.relation r) => some (r.many, r.target)
  | some (.aliasOf target view) =>
    ((fields.get? target).bind FieldMapping.relation?).map fun r => (r.many, view.getD r.target)
  | _ => none

/-- Whether an exposed kind fits the relation behind a field. -/
def ExposedKind.fits : ExposedKind → Option (Bool × String) → Bool
  | .scalar, none => true
  | .object _, some (many, _) => !many
  | .list _, some (many, _) => many
  | _, _ => false

/-- The relation behind a field, in words. -/
def describeRelation : Option (Bool × String) → String
  | none => "scalar"
  | some (true, target) => s!"list of `{target}`"
  | some (false, target) => s!"single `{target}`"

/-- Check an exposed field against its mapping. -/
def checkExposedField (types : Dictionary TypeMapping) (typeName : String)
    (mapping : TypeMapping) (field : String) (kind : ExposedKind) : Except Error Unit :=
  let relation := relationBehind? mapping.fields field
  if kind.fits relation then
    match kind with
    | .scalar => .ok ()
    | .object target | .list target => checkTarget types typeName field target
  else if relation.isNone && !mapping.fields.has field then
    .error (.unknownField typeName field)
  else .error (.kindMismatch typeName field kind.describe (describeRelation relation))

/-- Check all exposed fields. -/
def checkExposure (types : Dictionary TypeMapping) (exposed : Exposure) : Except Error Unit :=
  exposed.sorted.forM fun (typeName, fields) =>
    match types.get? typeName with
    | none => .error (.unknownType typeName)
    | some mapping =>
      fields.sorted.forM fun (field, kind) => checkExposedField types typeName mapping field kind

/-- Check a draft and make it a registry. -/
def Draft.build (d : Draft) : Except Error Registry := do
  match d.duplicates with
  | typeName :: _ => throw (.duplicateType typeName)
  | [] => pure ()
  checkTypes d.types
  match d.exposed with
  | some exposed => checkExposure d.types exposed
  | none => pure ()
  pure ⟨d.types, d.exposed⟩

/-! ### Look-up -/

/-- How a requested field is answered. -/
structure Resolved where
  /-- The mapping that the value comes from; none for a column that is not mapped. -/
  mapping : Option FieldMapping
  /-- The field of that mapping: the target of an alias. -/
  field : String
  /-- The type that an alias views the relation as. -/
  view : Option String := none
  /-- The mapping of the alias, whose decorations come after those of its target. -/
  aliasMapping : Option FieldMapping := none

namespace Resolved

/-- The relation of the field. -/
def relation? (r : Resolved) : Option Relation := r.mapping.bind FieldMapping.relation?

/-- The type that the relation leads to. -/
def target? (r : Resolved) : Option String :=
  r.relation?.map fun relation => r.view.getD relation.target

/-- The transform of the target, then that of the alias. -/
def transform? (r : Resolved) : Option Transform :=
  Transform.andThen? (r.mapping.bind FieldMapping.transform)
    (r.aliasMapping.bind FieldMapping.transform)

/-- Whether the target or the alias says that the value is a JSON document. -/
def json (r : Resolved) : Bool :=
  (r.mapping.map FieldMapping.json).getD false || (r.aliasMapping.map FieldMapping.json).getD false

/-- The paging of the target. -/
def paging? (r : Resolved) : Option Paging := r.mapping.bind FieldMapping.paging

end Resolved

namespace Registry

/-- The mapping of a type. -/
def lookup (r : Registry) (typeName : String) : Except Error TypeMapping :=
  match r.types.get? typeName with
  | some mapping => .ok mapping
  | none => .error (.unknownType typeName)

/-- Whether a type is registered. -/
def contains (r : Registry) (typeName : String) : Bool := r.types.has typeName

/-- The names of the types, sorted. -/
def typeNames (r : Registry) : List String := r.types.sorted.keys

/-- Whether requests may name a field: all fields, unless the exposed ones are listed. -/
def lists (r : Registry) (typeName field : String) : Bool :=
  match r.exposed with
  | none => true
  | some exposed =>
    match exposed.get? typeName with
    | some fields => fields.has field
    | none => false

/-- How a field of a type is answered. -/
def resolve (r : Registry) (typeName field : String) : Except Error Resolved := do
  let mapping ← r.lookup typeName
  if !r.lists typeName field then throw (.unknownField typeName field)
  match mapping.fields.get? field with
  | none => pure { mapping := none, field }
  | some m =>
    match m.source with
    | .aliasOf target view =>
      match mapping.fields.get? target with
      | some targetMapping =>
        pure { mapping := some targetMapping, field := target, view, aliasMapping := some m }
      | none => throw (.unknownField typeName target)
    | _ => pure { mapping := some m, field }

end Registry

end Schema

end ObjectGraph
