import ObjectGraph.Graph.Basic
import ObjectGraph.Json.Reader

/-! # Adding objects to the graph

`addRows` adds a node per row, with the single related objects packed into it.  `attach` adds the
rows of a follow-up and links each to the parents that have its key.  What was added before a
fault stays in the graph. -/

namespace ObjectGraph

namespace Graph

/-- Changing the graph.  A fault keeps the changes made before it. -/
abbrev Growing := ExceptT Fault (StateM Graph)

/-- Run a change of a graph. -/
def Growing.on {α : Type} (change : Growing α) (graph : Graph) : Except Fault α × Graph :=
  StateT.run (ExceptT.run change) graph

/-- The related object that a packed value stands for: an object, its JSON text, or nothing. -/
def relatedObject (typeName field : String) (packed : Json) : Except Fault (Option Row) := do
  let value ← match packed with
    | .str text =>
      match Json.parse? text with
      | some value => pure value
      | none => throw (.data typeName field .relatedText)
    | value => pure value
  match value with
  | .null => pure none
  | .obj members => pure (some members)
  | value => throw (.data typeName field (.notObject value))

/-! ### Nodes -/

/-- Add a node to the group that waits for a list, or begin the group. -/
def enqueueIn (plan : Plan.NodePlan) (index : Nat) (id : NodeId) : List Group → List Group
  | [] => [⟨plan, index, [id]⟩]
  | group :: groups =>
    if group.isFor plan index then { group with parents := group.parents ++ [id] } :: groups
    else group :: enqueueIn plan index id groups

/-- The lists of a plan that its nodes wait for, in the order of the fields. -/
def manyIndices (plan : Plan.NodePlan) : List Nat :=
  plan.fields.filterMap fun field =>
    match field.kind with
    | .many index => some index
    | _ => none

/-- Add a node whose single related objects are there, and let it wait for its lists. -/
def push (plan : Plan.NodePlan) (row : Row) (links : List Link) : Growing NodeId := do
  let graph ← get
  let id := graph.nodes.size
  set ({ nodes := graph.nodes.push ⟨plan, row, links⟩
         waiting := (manyIndices plan).foldl (fun groups index =>
           enqueueIn plan index id groups) graph.waiting } : Graph)
  pure id

mutual

/-- Add the node of a row. -/
def insert : Plan.NodePlan → Row → Growing NodeId
  | plan@⟨_, typeName, fields, _⟩, row => do
    let (row, links) ← insertFields typeName fields row
    push plan row links

/-- Add the related objects that are packed into a row, and give the row without them. -/
def insertFields (typeName : String) : List (Plan.FieldPlan Plan.NodePlan) → Row →
    Growing (Row × List Link)
  | [], row => pure (row, [])
  | field :: fields, row => do
    let (row, link) ← insertField typeName field row
    let (row, links) ← insertFields typeName fields row
    pure (row, link :: links)

/-- Add the related object that a field packs into a row. -/
def insertField (typeName : String) : Plan.FieldPlan Plan.NodePlan → Row → Growing (Row × Link)
  | ⟨name, kind, _, _⟩, row => insertKind typeName name kind row

/-- Add the related object that a field of a name and a kind packs into a row. -/
def insertKind (typeName name : String) : Plan.FieldKind Plan.NodePlan → Row →
    Growing (Row × Link)
  | .value, row => pure (row, .value)
  | .many _, row => pure (row, .pending)
  | .single plan, row => do
    match ← relatedObject typeName name ((row.get? name).getD .null) with
    | none => pure (row.erase name, .single none)
    | some related =>
      let child ← insert plan related
      pure (row.erase name, .single (some child))

end

/-- Add a node per row, in the order of the rows. -/
def addRows (plan : Plan.NodePlan) (rows : List Row) : Growing (List NodeId) :=
  rows.mapM (insert plan)

/-- Take the groups that wait. -/
def takeWaiting (graph : Graph) : List Group × Graph :=
  (graph.waiting, { graph with waiting := [] })

/-! ### Lists -/

/-- Replace the link of a field of a node. -/
def setLink (graph : Graph) (id : NodeId) (field : Nat) (link : Link) : Graph :=
  { graph with nodes := graph.nodes.modify id fun node =>
      { node with links := node.links.set field link } }

/-- Add the rows of a follow-up, each with the key of its parent. -/
def addChildren (relation : Plan.ManyPlan) (plan : Plan.NodePlan) (labels : List String) :
    List Row → Growing (List (String × NodeId))
  | [] => pure []
  | row :: rows =>
    match rowKey? row labels with
    | none => throw (.data relation.parentType relation.field .noParentKey)
    | some key => do
      let child ← insert plan row
      let children ← addChildren relation plan labels rows
      pure ((key, child) :: children)

/-- The children of a parent among those of all parents. -/
def childrenOf (graph : Graph) (labels : List String) (children : List (String × NodeId))
    (parent : NodeId) : List NodeId :=
  match (graph.nodes[parent]?).bind fun node => rowKey? node.row labels with
  | none => []
  | some key => children.filterMap fun child => if child.1 = key then some child.2 else none

/-- Attach the rows of the follow-up of a group to its parents.  The rows of one parent are in
their final order. -/
def attach (group : Group) (plan : Plan.NodePlan) (labels : List String)
    (pageSize : Option Nat) (rows : List Row) : Growing Unit := do
  match group.relation? with
  | none => throw (.data group.plan.typeName "?" .noField)
  | some relation =>
    let children ← addChildren relation plan labels rows
    match group.field? with
    | none => throw (.data relation.parentType relation.field .noField)
    | some field =>
      modify fun graph => group.parents.foldl (fun g parent =>
        g.setLink parent field
          (.many (graph.childrenOf relation.keyLabels children parent) pageSize)) graph

/-- Give every parent of a group an empty list. -/
def attachNone (graph : Graph) (group : Group) : Graph :=
  group.plan.fields.zipIdx.foldl (fun graph (field, position) =>
    if field.kind.isMany group.index then
      group.parents.foldl (fun graph parent =>
        graph.setLink parent position (.many [] none)) graph
    else graph) graph

end Graph

end ObjectGraph
