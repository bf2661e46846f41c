import ObjectGraph.Sql.Script

/-! # What a schema contributes to queries

A schema adds to the queries that are made for it in three places: a type may have a filter
(`TypeFilter`), a field may be computed by a sub-query (`Computed`), and a relation joins a child
to its parent (`JoinRule`).  Each is either declared in a fixed form or given as a script.

In declared texts the holes `alias`, `parent` and `child` stand for the aliases at hand, and the
placeholder `:userId` is bound to the identity of the caller. -/

namespace ObjectGraph

namespace Schema

open Sql (Query Building qualified)

/-- The parameter that stands for the caller in declared texts. -/
def userParams (caller : Caller) : Sql.Params := [("userId", caller.userParam)]

/-! ### Filters -/

/-- A predicate on the rows of a type. -/
inductive TypeFilter
  | template (text : String)
  | script (steps : Sql.Script)
deriving Repr

/-- Restrict a query by a filter, for the alias of its type. -/
def TypeFilter.apply (caller : Caller) (tableAlias : String) (q : Query) :
    TypeFilter → Building Query
  | .template text =>
    q.andWhereWith (Text.replace text Sql.aliasHole tableAlias) (userParams caller)
  | .script steps => steps.run caller [(Sql.aliasHole, tableAlias)] q

/-- Restrict a query by a filter, if there is one. -/
def TypeFilter.applyOption (caller : Caller) (tableAlias : String) (q : Query) :
    Option TypeFilter → Building Query
  | some filter => filter.apply caller tableAlias q
  | none => pure q

/-! ### Computed fields -/

/-- Whether the caller did something to an object: a row of `table` holds the identities of both. -/
structure ExistsByUser where
  table : String
  parentColumn : String
  userColumn : String := "userId"
  parentKey : String := "id"
  /-- A further predicate on the row. -/
  extra : Option String := none
deriving DecidableEq, Repr

/-- The test as an expression. -/
def ExistsByUser.render (e : ExistsByUser) (caller : Caller) (tableAlias : String) :
    Building String := do
  let q ← ({} : Query).fromFresh e.table e.table
  let sub := q.tableAlias?.getD e.table
  let q := q.select "1"
  let q ← q.andWhereWith (qualified sub e.userColumn ++ " = :userId") (userParams caller)
  let q := q.andWhere (qualified sub e.parentColumn ++ " = " ++ qualified tableAlias e.parentKey)
  let q ← match e.extra with
    | some extra => q.andWhereWith (Text.replace extra Sql.aliasHole sub) (userParams caller)
    | none => pure q
  pure ("EXISTS " ++ q.embedded)

/-- An expression that is computed for a field. -/
inductive Computed
  | existsByUser (test : ExistsByUser)
  /-- The sub-query that a script makes, in the place of the hole `sub` of a text. -/
  | script (steps : Sql.Script) (wrap : String)
deriving Repr

/-- The expression, for the alias of the type. -/
def Computed.render (caller : Caller) (tableAlias : String) : Computed → Building String
  | .existsByUser test => test.render caller tableAlias
  | .script steps wrap => do
    let q ← steps.run caller [(Sql.aliasHole, tableAlias)] {}
    pure (Text.replace wrap Sql.subHole q.embedded)

/-! ### Joins -/

/-- How a child belongs to its parent. -/
inductive JoinRule
  /-- A column of the child equals a column of the parent. -/
  | columns (parent child : String)
  /-- The same, with at most so many children for a parent. -/
  | limitedColumns (parent child : String) (limit : Nat)
  /-- A predicate over parent and child. -/
  | condition (text : String) (limit : Option Nat)
  | script (steps : Sql.Script)
deriving Repr

/-- The column of the parent and the column of the child of a plain column join. -/
def JoinRule.columns? : JoinRule → Option (String × String)
  | .columns parent child => some (parent, child)
  | _ => none

/-- The equality of a column of the child and a column of the parent. -/
def columnsEqual (parentAlias parent childAlias child : String) : String :=
  qualified childAlias child ++ " = " ++ qualified parentAlias parent

/-- Restrict a query of children to those of a parent. -/
def JoinRule.apply (caller : Caller) (parentAlias childAlias : String) (q : Query) :
    JoinRule → Building Query
  | .columns parent child =>
    pure (q.andWhere (columnsEqual parentAlias parent childAlias child))
  | .limitedColumns parent child limit =>
    pure ((q.andWhere (columnsEqual parentAlias parent childAlias child)).withLimit limit)
  | .condition text limit => do
    let predicate := Text.fill [(Sql.parentHole, parentAlias), (Sql.childHole, childAlias)] text
    let q ← q.andWhereWith predicate (userParams caller)
    pure (match limit with
      | some limit => q.withLimit limit
      | none => q)
  | .script steps =>
    steps.run caller [(Sql.parentHole, parentAlias), (Sql.childHole, childAlias)] q

end Schema

end ObjectGraph
