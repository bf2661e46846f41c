/-! # Faults of a schema

All faults but `unknownType` and `unknownField` are mistakes of whoever wrote the schema, and are
found when a registry is built.  Those two may also be faults of a request. -/

namespace ObjectGraph

namespace Schema

/-- Why an alias is refused. -/
inductive AliasFault
  | pointsAtItself
  | targetUnmapped (field : String)
  | targetIsAlias (field : String)
  | targetIsNoRelation (field view : String)
  | noValue
deriving DecidableEq, Repr

/-- The wording of an alias fault. -/
def AliasFault.message : AliasFault → String
  | .pointsAtItself => "alias points at itself"
  | .targetUnmapped field => s!"field `{field}` is not mapped"
  | .targetIsAlias field => s!"field `{field}` is itself an alias"
  | .targetIsNoRelation field view =>
    s!"field `{field}` is not a relation, cannot view it as `{view}`"
  | .noValue => "alias does not resolve to a value"

/-- Why a definition in a catalog is refused. -/
inductive CatalogFault
  | emptyPage
  | mixedJoin
  | incompleteJoin
deriving DecidableEq, Repr

/-- The wording of a catalog fault at a field of a type. -/
def CatalogFault.message (typeName field : String) : CatalogFault → String
  | .emptyPage =>
    s!"pagination limit must be at least 1\n  Context: Field `{typeName}.{field}`"
  | .mixedJoin =>
    "`condition` cannot be combined with `parent_column`/`child_column`" ++
      s!"\n  Context: Relation `{typeName}.{field}`"
  | .incompleteJoin =>
    "either both `parent_column` and `child_column` or a `condition` is required" ++
      s!"\n  Context: Relation `{typeName}.{field}`"

/-- A fault of a schema, or of a request that the schema does not cover. -/
inductive Error
  | unknownType (typeName : String)
  | unknownField (typeName field : String)
  | duplicateType (typeName : String)
  | conflictingSources (typeName field : String) (sources : List String)
  | pagingOnValue (typeName field : String)
  | pagingOnSingle (typeName field : String)
  | invalidAlias (typeName field : String) (fault : AliasFault)
  | unknownTarget (typeName field target : String)
  | kindMismatch (typeName field exposed mapped : String)
  | unknownTransform (typeName field name : String)
  | invalidCatalog (typeName field : String) (fault : CatalogFault)
deriving DecidableEq, Repr

/-- The wording of a fault. -/
def Error.message : Error → String
  | .unknownType t => s!"No type mapping registered for `{t}`"
  | .unknownField t f => s!"Field `{f}` is not exposed on type `{t}`"
  | .duplicateType t => s!"Type `{t}` is registered more than once"
  | .conflictingSources t f sources =>
    s!"Field `{t}.{f}` declares more than one value source: " ++ String.intercalate ", " sources
  | .pagingOnValue t f => s!"Field `{t}.{f}` declares pagination but is not a relation"
  | .pagingOnSingle t f => s!"Field `{t}.{f}` declares pagination on a single-valued relation"
  | .invalidAlias t f fault => s!"Alias `{t}.{f}` is invalid: {fault.message}"
  | .unknownTarget t f target =>
    s!"Relation `{t}.{f}` points at unregistered type `{target}`"
  | .kindMismatch t f exposed mapped =>
    s!"Field `{t}.{f}` is exposed as {exposed} but mapped as {mapped}"
  | .unknownTransform t f name => s!"Unknown transform `{name}` on `{t}.{f}`"
  | .invalidCatalog t f fault => s!"Invalid type catalog: {fault.message t f}"

end Schema

end ObjectGraph
