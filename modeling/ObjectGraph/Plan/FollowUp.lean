import ObjectGraph.Plan.Level

/-! # Follow-up statements

One follow-up statement fetches a list of related objects for all parents at once.  The inner
query numbers the rows of each parent with a window function in the order of the relation, and
the outer one keeps those up to the size of a page, so that no parent gets more.  Hidden columns
tell the parent of each row. -/

namespace ObjectGraph

namespace Plan

open Sql (Query Building qualified quoteIdent)
open Schema (TypeMapping Relation)

/-- The size of a page: the smaller of the limits of the paging and of the relation; where there
is neither, the ceiling. -/
def pageCap (paging : Option Paging) (relationLimit : Option Nat) (ceiling : Nat) : Nat :=
  match paging.map Paging.limit, relationLimit with
  | some page, some relation => min page relation
  | some page, none => page
  | none, some relation => relation
  | none, none => ceiling

/-- The first components of keys. -/
def firstComponents (keys : List (List Json)) : List Json := keys.filterMap List.head?

/-- Bind the components of the key at an index and give its condition. -/
def keyCondition (tableAlias : String) (index : Nat) : (component : Nat) →
    List (String × Json) → Building (List String)
  | _, [] => pure []
  | component, (column, value) :: rest => do
    let param ← Sql.bind
      ("parentKey_" ++ toString index ++ "_" ++ toString component) value
    let terms ← keyCondition tableAlias index (component + 1) rest
    pure ((qualified tableAlias column ++ " = :" ++ param) :: terms)

/-- The conditions of keys of several columns, counting from an index. -/
def keyConditions (tableAlias : String) (columns : List String) : (index : Nat) →
    List (List Json) → Building (List String)
  | _, [] => pure []
  | index, key :: keys => do
    let terms ← keyCondition tableAlias index 0 (columns.zip key)
    let conditions ← keyConditions tableAlias columns (index + 1) keys
    pure (String.intercalate " AND " terms :: conditions)

/-- Restrict a query to the parents that have one of the keys. -/
def restrictParents (q : Query) (tableAlias : String) (columns : List String)
    (keys : List (List Json)) : Building Query :=
  match columns with
  | [column] =>
    q.andWhereWith (qualified tableAlias column ++ " IN (:...parentKeys)")
      [("parentKeys", .arr (firstComponents keys))]
  | columns => do
    let conditions ← keyConditions tableAlias columns 0 keys
    pure (q.andWhere
      (if conditions.isEmpty then "1 = 0"
        else String.intercalate " OR " (conditions.map Sql.parenthesized)))

/-- A query of the children of some parents. -/
structure ChildQuery where
  query : Query
  tableAlias : String
  /-- The expressions that tell the parent of a row. -/
  partition : List String

/-- The query of the children.  A plain column join needs the column of the child alone; any other
join is made between the parents and the children. -/
def childQuery (env : Environment) (parentType target : String) (parent child : TypeMapping)
    (relation : Relation) (keys : List (List Json)) : Building ChildQuery :=
  match relation.join.columns? with
  | some (_, column) => do
    let tableAlias ← Sql.freshAlias target
    let q := ({} : Query).fromTable (child.tableName target) tableAlias
    let q ← q.andWhereWith (qualified tableAlias column ++ " IN (:...parentKeys)")
      [("parentKeys", .arr (firstComponents keys))]
    pure ⟨q, tableAlias, [qualified tableAlias column]⟩
  | none => do
    let parentAlias ← Sql.freshAlias parentType
    let tableAlias ← Sql.freshAlias target
    let q := ({} : Query).fromTable (parent.tableName parentType) parentAlias
    let q := q.join .cross (child.tableName target) tableAlias none
    let q ← restrictParents q parentAlias parent.key keys
    let q ← relation.join.apply env.caller parentAlias tableAlias q
    pure ⟨q, tableAlias, parent.key.map (qualified parentAlias)⟩

/-- The number of a row among those of its parent. -/
def rowNumber (partition ordering : List String) : String :=
  "ROW_NUMBER() OVER (PARTITION BY " ++ String.intercalate ", " partition ++
    Query.orderingText ordering ++ ")"

/-- The statement that keeps the first rows of each parent. -/
def pageText (inner tableAlias limitParam : String) (labels : List String) : String :=
  let column (label : String) : String := tableAlias ++ "." ++ quoteIdent label
  "SELECT * FROM (" ++ inner ++ ") AS " ++ tableAlias ++ " WHERE " ++ column rowNumberLabel ++
    " <= :" ++ limitParam ++ " ORDER BY " ++
    String.intercalate ", " ((labels ++ [rowNumberLabel]).map column)

/-- The text, the shape, the labels that tell the parent, and the size of a page. -/
structure FollowUp where
  sql : String
  plan : NodePlan
  labels : List String
  cap : Nat

/-- Compile the follow-up of a list for parents with the given keys. -/
def followUpLevel (env : Environment) (many : ManyPlan) (parent child : TypeMapping)
    (relation : Relation) (keys : List (List Json)) : Compiling FollowUp := do
  let children ← .ofBuilding
    (childQuery env many.parentType many.target parent child relation keys)
  let level : Level :=
    { typeName := many.target
      tableAlias := children.tableAlias
      depth := many.depth
      nested := false
      extraRequired :=
        (relation.sort.map Prod.fst).toList ++
          ((many.paging.map Paging.cursorColumns).getD [])
      origin := many.origin }
  let (q, select, plan) ← compileLevel env level none children.query many.selection
  let ((terms, limit), q) := q.takeOrdering
  let sortTerms := relation.sort.toList.map fun (column, order) =>
    qualified children.tableAlias column ++ " " ++ order.keyword
  let labels := (List.range children.partition.length).map partitionLabel
  let q := addSelects q select
  let q := addSelects q (labels.zip children.partition)
  let q := q.addSelectAs (rowNumber children.partition (sortTerms ++ terms)) rowNumberLabel
  let inner ← .ofSql q.render
  let cap := pageCap many.paging limit env.settings.maxRelationRows
  let tableAlias ← .ofBuilding (Sql.freshAlias "page")
  let limitParam ← .ofBuilding (Sql.bind "pageLimit" (Json.ofNat cap))
  pure ⟨pageText inner tableAlias limitParam labels, plan, labels, cap⟩

/-- Compile the statement that fetches a list for parents with the given keys, one value per key
column. -/
def compileMany (env : Environment) (many : ManyPlan) (keys : List (List Json)) :
    Except Error Compiled := do
  if env.settings.maxDepth < many.depth then
    throw (.depthExceeded many.depth env.settings.maxDepth)
  let parent ← (env.registry.lookup many.parentType).mapError .schema
  let resolved ← (env.registry.resolve many.parentType many.field).mapError .schema
  match resolved.relation? with
  | none => throw (.schema (.unknownField many.parentType many.field))
  | some relation =>
    let child ← (env.registry.lookup many.target).mapError .schema
    let (followUp, scope) ← (followUpLevel env many parent child relation keys).run {}
    let statement ← finish followUp.sql scope
    pure
      { statement
        plan := followUp.plan
        partitionLabels := followUp.labels
        pageSize := some followUp.cap }

end Plan

end ObjectGraph
