import ObjectGraph.Graph.Fault
import ObjectGraph.Json.Reading

/-! # The graph of fetched objects

The objects that a request needs are nodes of a `Graph`, numbered from zero in the order in which
they were added.  A node keeps its row and a link for every field of its plan.  A single related
object arrives with the row of its parent and is a node of its own, added before the parent; a
list is pending until its rows are attached.  The nodes that wait for the list of one place of
the request form a `Group`, so that one statement serves them all. -/

namespace ObjectGraph

namespace Graph

/-- The number of a node. -/
abbrev NodeId := Nat

/-- What a field of a node leads to. -/
inductive Link
  /-- Nothing: the field is a value of the row. -/
  | value
  /-- Related objects that are not fetched yet. -/
  | pending
  | single (child : Option NodeId)
  /-- Related objects, and the size of the page they were fetched with. -/
  | many (children : List NodeId) (pageSize : Option Nat)
deriving DecidableEq, Repr

/-- A fetched object. -/
structure Node where
  plan : Plan.NodePlan
  row : Row
  /-- The links of the fields of the plan, in their order. -/
  links : List Link

/-- Nodes that wait for the same list of related objects. -/
structure Group where
  plan : Plan.NodePlan
  /-- Which list of the plan. -/
  index : Nat
  parents : List NodeId

/-- The list that a group waits for. -/
def Group.relation? (group : Group) : Option Plan.ManyPlan := group.plan.many[group.index]?

/-- The list of a group stands in this place of the request. -/
def Group.isFor (group : Group) (plan : Plan.NodePlan) (index : Nat) : Bool :=
  group.plan.origin == plan.origin && group.index == index

/-- The field of the list of a group, as a position in the plan. -/
def Group.field? (group : Group) : Option Nat :=
  group.plan.fields.findIdx? fun field => field.kind.isMany group.index

end Graph

/-- The objects fetched so far. -/
structure Graph where
  nodes : Array Graph.Node := #[]
  /-- The groups that wait, in the order of their first nodes. -/
  waiting : List Graph.Group := []

namespace Graph

/-! ### Keys -/

/-- What stands between the components of a key. -/
def keySeparator : String := "\x1f"

/-- The values under labels, unless one is missing or `null`. -/
def keyValues? (row : Row) (labels : List String) : Option (List Json) :=
  labels.mapM fun label => (row.get? label).filter fun value => !value.isNull

/-- One text for the identities of the components of a key. -/
def compositeKey? (values : List Json) : Option String :=
  (values.mapM Json.identityKey?).map (String.intercalate keySeparator)

/-- The key of a row under labels. -/
def rowKey? (row : Row) (labels : List String) : Option String :=
  (keyValues? row labels).bind compositeKey?

/-- The first of each key, without those that are seen. -/
def distinctKeys : (seen : List String) → List (List Json) → List (List Json)
  | _, [] => []
  | seen, values :: rest =>
    match compositeKey? values with
    | none => distinctKeys seen rest
    | some key =>
      if key ∈ seen then distinctKeys seen rest
      else values :: distinctKeys (key :: seen) rest

/-- The distinct keys of the parents of a group, each as its values, in the order of the parents.
A parent without a key has no related objects. -/
def parentKeys (graph : Graph) (group : Group) : List (List Json) :=
  match group.relation? with
  | none => []
  | some relation =>
    distinctKeys [] (group.parents.filterMap fun parent =>
      (graph.nodes[parent]?).bind fun node => keyValues? node.row relation.keyLabels)

end Graph

end ObjectGraph
