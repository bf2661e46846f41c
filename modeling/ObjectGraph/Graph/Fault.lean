import ObjectGraph.Plan.Basic
import ObjectGraph.Transform.Basic

/-! # Why a request is not answered

A request fails as a whole: no answer is given from which a redaction may be missing. -/

namespace ObjectGraph

/-- What is wrong with fetched data. -/
inductive DataFault
  /-- A row of a follow-up does not tell its parent. -/
  | noParentKey
  /-- A list of related objects has no field in the plan of its parents. -/
  | noField
  /-- A list of related objects was never fetched. -/
  | unresolved
  | unknownNode (id : Nat)
  /-- A value of a field of JSON text is no JSON text. -/
  | storedText
  /-- The text of a related object is no JSON text. -/
  | relatedText
  /-- Something other than a related object. -/
  | notObject (value : Json)
deriving Repr

/-- The wording of what is wrong with fetched data. -/
def DataFault.message : DataFault → String
  | .noParentKey => "follow-up row carries no parent key"
  | .noField => "relation missing from plan"
  | .unresolved => "relation was never resolved"
  | .unknownNode id => s!"unknown node {id}"
  | .storedText => "stored JSON does not parse"
  | .relatedText => "related object is not valid JSON"
  | .notObject value => s!"expected a related object, got {value.render}"

/-- Why a request is not answered. -/
inductive Fault
  | plan (error : Plan.Error)
  | storage (error : StorageError)
  | transform (typeName field : String) (error : TransformError)
  | data (typeName field : String) (fault : DataFault)
deriving Repr

namespace Fault

/-- The wording of a fault. -/
def message : Fault → String
  | .plan e => e.message
  | .storage e => s!"Data fetch failed: {e.message}"
  | .transform t f e => s!"Transform of `{t}.{f}` failed: {e.message}"
  | .data t f d => s!"Data integrity error at `{t}.{f}`: {d.message}"

/-- Whether the schema is to blame. -/
def isSchema : Fault → Bool
  | .plan (.schema _) => true
  | _ => false

end Fault

end ObjectGraph
