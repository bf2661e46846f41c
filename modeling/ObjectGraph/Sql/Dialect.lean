import ObjectGraph.Sql.Error

/-! # Dialects and quoting

Both dialects share the skeleton of a statement; they differ in how a related object is packed
into one JSON column (`Dialect.jsonObject`, `Dialect.embedJson`).  Identifiers and literals are
quoted by doubling the quotes inside them (`quoteIdent`, `quoteLiteral`). -/

namespace ObjectGraph

namespace Sql

/-- The dialects statements are written in. -/
inductive Dialect
  | sqlite
  | postgresql
deriving DecidableEq, Repr, Inhabited

/-- A direction of ordering. -/
inductive SortOrder
  | asc
  | desc
deriving DecidableEq, Repr, Inhabited

/-- The keyword of a direction. -/
def SortOrder.keyword : SortOrder → String
  | .asc => "ASC"
  | .desc => "DESC"

/-- The name of a direction in catalogs and requests. -/
def SortOrder.name : SortOrder → String
  | .asc => "asc"
  | .desc => "desc"

/-- A direction is written in lower or in upper case, not in a mixture. -/
def SortOrder.ofName? (name : String) : Option SortOrder :=
  if name = "asc" ∨ name = "ASC" then some .asc
  else if name = "desc" ∨ name = "DESC" then some .desc
  else none

/-- Write every `quote` twice. -/
def doubled (quote : Char) (text : List Char) : List Char :=
  text.flatMap fun c => if c = quote then [quote, quote] else [c]

/-- A text between quotes, with the quotes inside it doubled. -/
def enclose (quote : Char) (text : String) : String :=
  String.ofList (quote :: (doubled quote text.toList ++ [quote]))

/-- An identifier: a table, a column or a label. -/
def quoteIdent (name : String) : String := enclose '"' name

/-- A string literal. -/
def quoteLiteral (text : String) : String := enclose '\'' text

/-- A column of an aliased table. -/
def qualified (tableAlias column : String) : String := tableAlias ++ "." ++ quoteIdent column

namespace Dialect

/-- The name of a dialect. -/
def name : Dialect → String
  | .sqlite => "sqlite"
  | .postgresql => "postgresql"

/-- The dialect of a name in any case; `postgres` is short for `postgresql`. -/
def parse (name : String) : Except BuildError Dialect :=
  let name := name.map Char.toLower
  if name = "sqlite" then .ok .sqlite
  else if name = "postgresql" ∨ name = "postgres" then .ok .postgresql
  else .error (.unsupportedDialect name)

/-- The dialect of its exact name. -/
def ofName? (name : String) : Option Dialect :=
  if name = "sqlite" then some .sqlite
  else if name = "postgresql" then some .postgresql
  else none

/-- The function that makes a JSON object of keys and values. -/
def objectFunction : Dialect → String
  | .sqlite => "json_object"
  | .postgresql => "json_build_object"

/-- An expression for the JSON object with these keys and value expressions. -/
def jsonObject (d : Dialect) (pairs : List (String × String)) : String :=
  d.objectFunction ++ "(" ++
    String.intercalate ", " (pairs.map fun p => quoteLiteral p.1 ++ ", " ++ p.2) ++ ")"

/-- A JSON expression as a member of an enclosing object, which must take it as a document and
not as a string. -/
def embedJson (d : Dialect) (expression : String) : String :=
  match d with
  | .sqlite => "json(" ++ expression ++ ")"
  | .postgresql => expression

end Dialect

end Sql

end ObjectGraph
