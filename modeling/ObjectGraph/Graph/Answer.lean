import ObjectGraph.Graph.Basic
import ObjectGraph.Graph.Connection
import ObjectGraph.Json.Reader

/-! # From the graph to the answer

A node is finished once its related objects are: their outputs are put into its row, stored JSON
texts are parsed, and the transforms are applied, each to a value of the object as it stands
before any of them.  The output has the requested fields and nothing else. -/

namespace ObjectGraph

namespace Graph

/-- The value of a link, if the field leads to other objects. -/
def linkValue (finish : NodeId → Session Fault Finished) (plan : Plan.NodePlan)
    (field : Plan.FieldPlan Plan.NodePlan) : Link → Session Fault (Option Json)
  | .value => pure none
  | .pending => throw (.data plan.typeName field.name .unresolved)
  | .single none => pure (some .null)
  | .single (some child) => do
    let child ← finish child
    pure (some (.obj child.output))
  | .many children pageSize => do
    let children ← children.mapM finish
    let paging := field.kind.paging? plan.many
    let paging := match pageSize with
      | some size => paging.map fun p => p.capped size
      | none => paging
    pure (some (Connection.ofPaging paging children))

/-- Put the related objects into a row. -/
def withRelated (finish : NodeId → Session Fault Finished) (plan : Plan.NodePlan) :
    List (Plan.FieldPlan Plan.NodePlan × Link) → Object → Session Fault Object
  | [], row => pure row
  | (field, link) :: rest, row => do
    match ← linkValue finish plan field link with
    | none => withRelated finish plan rest row
    | some value => withRelated finish plan rest (row.insert field.name value)

/-- Parse the stored JSON texts of an object. -/
def withParsed (typeName : String) : List (Plan.FieldPlan Plan.NodePlan) → Object →
    Except Fault Object
  | [], object => pure object
  | field :: fields, object =>
    if field.json then
      match object.get? field.name with
      | some (.str text) =>
        match Json.parse? text with
        | some value => withParsed typeName fields (object.insert field.name value)
        | none => throw (.data typeName field.name .storedText)
      | _ => withParsed typeName fields object
    else withParsed typeName fields object

/-- The transformed values of an object, in the order of the fields. -/
def transformed (caller : Caller) (typeName : String) (object : Object) :
    List (Plan.FieldPlan Plan.NodePlan) → Session Fault (List (String × Json))
  | [] => pure []
  | field :: fields =>
    match field.transform with
    | none => transformed caller typeName object fields
    | some transform => do
      let value ← Session.mapError (.transform typeName field.name)
        (transform.apply ((object.get? field.name).getD .null) caller object)
      let rest ← transformed caller typeName object fields
      pure ((field.name, value) :: rest)

/-- The requested fields of an object. -/
def output (fields : List (Plan.FieldPlan Plan.NodePlan)) (object : Object) : Object :=
  Dictionary.ofList (fields.map fun field =>
    (field.name, (object.get? field.name).getD .null))

/-- Finish a node, given how to finish others. -/
def Node.finish (node : Node) (caller : Caller) (finish : NodeId → Session Fault Finished) :
    Session Fault Finished := do
  let plan := node.plan
  let full ← withRelated finish plan (plan.fields.zip node.links) node.row
  let full ← Session.ofExcept (withParsed plan.typeName plan.fields full)
  let values ← transformed caller plan.typeName full plan.fields
  let full := values.foldl (fun object (name, value) => object.insert name value) full
  pure ⟨node.row, full, output plan.fields full⟩

/-- Finish a node through at most so many links. -/
def finishWithin (graph : Graph) (caller : Caller) : Nat → NodeId → Session Fault Finished
  | 0, id => throw (.data "?" "?" (.unknownNode id))
  | fuel + 1, id =>
    match graph.nodes[id]? with
    | none => throw (.data "?" "?" (.unknownNode id))
    | some node => node.finish caller (graph.finishWithin caller fuel)

/-- Finish a node.  A way through the graph meets no node twice, so it has fewer links than there
are nodes. -/
def finish (graph : Graph) (caller : Caller) (id : NodeId) : Session Fault Finished :=
  graph.finishWithin caller (graph.nodes.size + 1) id

end Graph

end ObjectGraph
