import ObjectGraph.Plan.Level

/-! # The root statement of a request

The root statement fetches the requested values and single related objects of the root type.
The filters of the type and of the caller come first, then the filter, the ordering and the limit
of the request. -/

namespace ObjectGraph

namespace Plan

open Sql (Query qualified)

/-- Conjoin the conditions of a request: columns that have given values. -/
def addRequestFilter (tableAlias : String) (q : Query) : Object → Compiling Query
  | [] => pure q
  | (column, value) :: rest => do
    let param := "filter_" ++ Sql.snakeCase column
    let q ← .ofBuilding
      (q.andWhereWith (qualified tableAlias column ++ " = :" ++ param) [(param, value)])
    addRequestFilter tableAlias q rest

/-- Compile the text and the shape of the root statement. -/
def rootLevel (env : Environment) (request : Request) (filter : Option Schema.TypeFilter) :
    Compiling (String × NodePlan) := do
  let mapping ← .ofSchema (env.registry.lookup request.typeName)
  let tableAlias ← .ofBuilding (Sql.freshAlias request.typeName)
  let q := ({} : Query).fromTable (mapping.tableName request.typeName) tableAlias
  let level : Level :=
    { typeName := request.typeName
      tableAlias
      depth := 1
      nested := false
      extraRequired := []
      origin := [] }
  let (q, select, plan) ← compileLevel env level filter q request.fields
  let q ← addRequestFilter tableAlias q request.filter
  let q := match request.orderBy with
    | some (column, order) => q.orderBy (qualified tableAlias column) order
    | none => q
  let q := match request.limit with
    | some limit => q.withLimit limit
    | none => q
  let sql ← .ofSql (addSelects q select).render
  pure (sql, plan)

/-- Compile the root statement of a request, with a filter of the caller after that of the type.
A request that is too deep is refused before anything else. -/
def compileRoot (env : Environment) (request : Request) (filter : Option Schema.TypeFilter) :
    Except Error Compiled := do
  if env.settings.maxDepth < request.depth then
    throw (.depthExceeded request.depth env.settings.maxDepth)
  let ((sql, plan), scope) ← (rootLevel env request filter).run {}
  let statement ← finish sql scope
  pure { statement, plan }

end Plan

end ObjectGraph
