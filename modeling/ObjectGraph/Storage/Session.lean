import ObjectGraph.Sql.Query

/-! # Storage

A storage answers a statement with rows or fails; its answer may depend on the statements issued
before.  A `Session` is a computation that issues statements to a storage and may fail: it keeps
the log of what was issued, and its first failure ends it. -/

namespace ObjectGraph

/-- A row of an answer, by label, in the order of the select list. -/
abbrev Row := Object

/-- Why a storage gives no rows. -/
inductive StorageError
  | connection (message : String)
  | query (message sql : String)
  | task (message : String)
deriving DecidableEq, Repr

/-- The wording of a storage failure. -/
def StorageError.message : StorageError → String
  | .connection message => s!"Storage connection failed: {message}"
  | .query message sql => s!"Statement failed: {message}\n  SQL: {sql}"
  | .task message => s!"Storage task failed: {message}"

/-- A storage, by its dialect and its answer to a statement after those issued before it. -/
structure Storage where
  dialect : Sql.Dialect
  answer : (issued : List Sql.Statement) → Sql.Statement → Except StorageError (List Row)

namespace Storage

/-- A storage whose answers do not depend on the past. -/
def ofFunction (dialect : Sql.Dialect)
    (answer : Sql.Statement → Except StorageError (List Row)) : Storage :=
  ⟨dialect, fun _ statement => answer statement⟩

/-- A storage that plays answers back in order and has no rows after the last one. -/
def scripted (dialect : Sql.Dialect)
    (answers : List (Sql.Statement → Except StorageError (List Row))) : Storage :=
  ⟨dialect, fun issued statement =>
    match answers[issued.length]? with
    | some answer => answer statement
    | none => .ok []⟩

end Storage

/-- A computation that issues statements to a storage, keeps their log, and may fail. -/
abbrev Session (ε : Type) := ReaderT Storage (ExceptT ε (StateM (List Sql.Statement)))

namespace Session

/-- The outcome of a session, and the statements it issued. -/
def outcome {ε α : Type} (session : Session ε α) (storage : Storage) :
    Except ε α × List Sql.Statement :=
  session storage []

/-- Fail with another error. -/
def mapError {ε ε' α : Type} (f : ε → ε') (session : Session ε α) : Session ε' α :=
  fun storage log =>
    let (result, log) := session storage log
    (result.mapError f, log)

/-- An outcome that issues nothing. -/
def ofExcept {ε α : Type} (result : Except ε α) : Session ε α := fun _ log => (result, log)

/-- Issue a statement. -/
def fetch (statement : Sql.Statement) : Session StorageError (List Row) := fun storage log =>
  (storage.answer log statement, log ++ [statement])

end Session

/-- The statement that looks up a row of a table by the value of a column. -/
def lookupStatement (table column : String) (value : Json) : Sql.Statement :=
  let build : Sql.Building String := do
    let q ← ({} : Sql.Query).fromFresh table table
    let tableAlias := q.tableAlias?.getD table
    let q := q.select (tableAlias ++ ".*")
    let q ← q.andWhereWith (Sql.qualified tableAlias column ++ " = :lookupValue")
      [("lookupValue", value)]
    pure (q.withLimit 1).text
  let (sql, scope) := build.run
  scope.statement sql

/-- The first row of a table whose column has a value. -/
def Session.findOneBy (table column : String) (value : Json) :
    Session StorageError (Option Row) := do
  pure (← fetch (lookupStatement table column value)).head?

end ObjectGraph
