import ObjectGraph.Request.Basic
import ObjectGraph.Schema.Registry
import ObjectGraph.Sql.Script

/-! # Plans

A plan is a statement to issue together with the shape that its rows map back to.  The shape of
one level of objects is a `NodePlan`: its fields in the order of the request, each a value of the
row, a single related object that came with the row, or a list of related objects.  Lists are
fetched by statements of their own; a `ManyPlan` holds what is needed to compile one of them.

Every node plan stands for one place in the tree of the request; its `origin` is the path of
field positions that leads there from the root.  Objects that wait for the same list are found
by it. -/

namespace ObjectGraph

namespace Plan

/-! ### Labels -/

/-- The label of the hidden column that carries a key of the parent. -/
def keyLabel (column : String) : String := "__key_" ++ column

/-- The label of a hidden column that tells the parent of a row. -/
def partitionLabel (index : Nat) : String := "__pk" ++ toString index

/-- The label of the number of a row among those of its parent. -/
def rowNumberLabel : String := "__rn"

/-! ### Shapes -/

/-- The bounds of planning. -/
structure Settings where
  dialect : Sql.Dialect := .sqlite
  maxDepth : Nat := 8
  /-- The greatest number of children of a parent where nothing else limits them. -/
  maxRelationRows : Nat := 100
deriving DecidableEq, Repr

/-- What a field of a level is. -/
inductive FieldKind (Plan : Type)
  | value
  /-- A related object, packed into one column. -/
  | single (plan : Plan)
  /-- A list of related objects: an index into the lists of the level. -/
  | many (index : Nat)

/-- A field of a level. -/
structure FieldPlan (Plan : Type) where
  name : String
  kind : FieldKind Plan
  json : Bool := false
  transform : Option Transform := none

/-- A list of related objects, to be fetched once the parents are known. -/
structure ManyPlan where
  /-- The requested field of the parent. -/
  field : String
  parentType : String
  target : String
  selection : List Selection
  /-- The labels of the hidden columns of the parent that carry its key. -/
  keyLabels : List String
  /-- The level of the related objects. -/
  depth : Nat
  paging : Option Paging
  /-- The place of the related objects in the request. -/
  origin : List Nat

/-- The shape of one level of objects. -/
structure NodePlan where
  origin : List Nat
  typeName : String
  fields : List (FieldPlan NodePlan)
  many : List ManyPlan

/-- A statement with the shape of its rows. -/
structure Compiled where
  statement : Sql.Statement
  plan : NodePlan
  /-- The labels that tell the parent of a row. -/
  partitionLabels : List String := []
  /-- The greatest number of rows of a parent. -/
  pageSize : Option Nat := none

namespace FieldKind

variable {Plan : Type}

/-- Whether the field is the list of an index. -/
def isMany (kind : FieldKind Plan) (index : Nat) : Bool :=
  match kind with
  | .many i => i == index
  | _ => false

/-- The paging of a field that is one of some lists. -/
def paging? (kind : FieldKind Plan) (many : List ManyPlan) : Option Paging :=
  match kind with
  | .many i => (many[i]?).bind ManyPlan.paging
  | _ => none

end FieldKind

/-! ### Faults -/

/-- Why a request cannot be planned. -/
inductive Error
  | schema (error : Schema.Error)
  | sql (error : Sql.BuildError)
  | missingSelection (typeName field : String)
  | unexpectedSelection (typeName field : String)
  | depthExceeded (depth limit : Nat)
deriving DecidableEq, Repr

/-- The wording of a fault. -/
def Error.message : Error → String
  | .schema e => e.message
  | .sql e => e.message
  | .missingSelection t f => s!"Relation `{t}.{f}` was requested without a sub-selection"
  | .unexpectedSelection t f => s!"Field `{t}.{f}` is not a relation but has a sub-selection"
  | .depthExceeded depth limit =>
    s!"Request depth {depth} exceeds the configured maximum of {limit}"

end Plan

end ObjectGraph
