import ObjectGraph.Sql.Dialect
import ObjectGraph.Sql.Template

/-! # Queries under construction

A `Query` is one SELECT, built clause by clause.  Conditions are kept apart and conjoined when
they are written; `orWhere` joins all of them into one before it adds its own.  The operations
that bind values or mint aliases are `Building` actions on the scope that the query shares with
its statement. -/

namespace ObjectGraph

namespace Sql

/-- An item of a select list, with the label it is given. -/
structure SelectItem where
  expression : String
  label : Option String := none
deriving DecidableEq, Repr

/-- How a table is joined. -/
inductive JoinKind
  | inner
  | left
  | cross
deriving DecidableEq, Repr

/-- The keyword of a kind of join. -/
def JoinKind.keyword : JoinKind → String
  | .inner => "INNER"
  | .left => "LEFT"
  | .cross => "CROSS"

/-- A joined table, its name quoted. -/
structure Join where
  kind : JoinKind
  table : String
  tableAlias : String
  on : Option String
deriving DecidableEq, Repr

/-- The main table of a query, its name quoted. -/
structure Source where
  table : String
  tableAlias : String
deriving DecidableEq, Repr

/-- A SELECT under construction. -/
structure Query where
  items : List SelectItem := []
  source : Option Source := none
  joins : List Join := []
  conditions : List String := []
  ordering : List String := []
  limit : Option Nat := none
deriving DecidableEq, Repr, Inhabited

/-- A text in parentheses. -/
def parenthesized (text : String) : String := "(" ++ text ++ ")"

/-- The conjunction of conditions: one stands alone, several are put in parentheses. -/
def conjunction : List String → String
  | [condition] => condition
  | conditions => String.intercalate " AND " (conditions.map parenthesized)

namespace Query

/-- The alias of the main table. -/
def tableAlias? (q : Query) : Option String := q.source.map Source.tableAlias

/-! ### Clauses -/

/-- Replace the select list by one expression. -/
def select (q : Query) (expression : String) : Query :=
  { q with items := [{ expression }] }

/-- Add an expression to the select list. -/
def addSelect (q : Query) (expression : String) : Query :=
  { q with items := q.items ++ [{ expression }] }

/-- Add a labelled expression to the select list. -/
def addSelectAs (q : Query) (expression label : String) : Query :=
  { q with items := q.items ++ [{ expression, label := some label }] }

/-- Take the labelled items out of the select list, as pairs of label and expression. -/
def takeLabelled (q : Query) : List (String × String) × Query :=
  (q.items.filterMap fun item => item.label.map fun label => (label, item.expression),
    { q with items := q.items.filter fun item => item.label.isNone })

/-- Set the main table. -/
def fromTable (q : Query) (table tableAlias : String) : Query :=
  { q with source := some ⟨quoteIdent table, tableAlias⟩ }

/-- Set the main table under an alias minted from a hint. -/
def fromFresh (q : Query) (table hint : String) : Building Query := do
  pure (q.fromTable table (← freshAlias hint))

/-- Join a table. -/
def join (q : Query) (kind : JoinKind) (table tableAlias : String) (on : Option String) : Query :=
  { q with joins := q.joins ++ [⟨kind, quoteIdent table, tableAlias, on⟩] }

/-- Join a table on a template with values. -/
def innerJoinWith (q : Query) (table tableAlias on : String) (params : Params) :
    Building Query := do
  pure (q.join .inner table tableAlias (some (← bindTemplate on params)))

/-- Conjoin a condition. -/
def andWhere (q : Query) (condition : String) : Query :=
  { q with conditions := q.conditions ++ [condition] }

/-- Conjoin a condition given as a template with values. -/
def andWhereWith (q : Query) (condition : String) (params : Params) : Building Query := do
  pure (q.andWhere (← bindTemplate condition params))

/-- Disjoin a condition with all that is conjoined so far. -/
def orWhere (q : Query) (condition : String) : Query :=
  match q.conditions with
  | [] => { q with conditions := [condition] }
  | conditions =>
    { q with conditions :=
        [parenthesized (conjunction conditions) ++ " OR " ++ parenthesized condition] }

/-- Order by an expression, after the terms there are. -/
def orderBy (q : Query) (expression : String) (order : SortOrder) : Query :=
  { q with ordering := q.ordering ++ [expression ++ " " ++ order.keyword] }

/-- Set the greatest number of rows. -/
def withLimit (q : Query) (limit : Nat) : Query := { q with limit := some limit }

/-- Take ordering and limit out, for a caller that puts them elsewhere. -/
def takeOrdering (q : Query) : (List String × Option Nat) × Query :=
  ((q.ordering, q.limit), { q with ordering := [], limit := none })

/-! ### Text -/

/-- The text of an item. -/
def itemText (item : SelectItem) : String :=
  match item.label with
  | some label => item.expression ++ " AS " ++ quoteIdent label
  | none => item.expression

/-- The text of a join; one without a condition is a cross join. -/
def joinText (j : Join) : String :=
  match j.kind, j.on with
  | .cross, _ | _, none => " CROSS JOIN " ++ j.table ++ " " ++ j.tableAlias
  | kind, some on =>
    " " ++ kind.keyword ++ " JOIN " ++ j.table ++ " " ++ j.tableAlias ++ " ON " ++ on

/-- The text of the select list; an empty one selects `1`. -/
def itemsText : List SelectItem → String
  | [] => "1"
  | items => String.intercalate ", " (items.map itemText)

/-- The text of the FROM clause. -/
def sourceText : Option Source → String
  | some source => " FROM " ++ source.table ++ " " ++ source.tableAlias
  | none => ""

/-- The text of the WHERE clause. -/
def conditionsText : List String → String
  | [] => ""
  | conditions => " WHERE " ++ conjunction conditions

/-- The text of the ORDER BY clause. -/
def orderingText : List String → String
  | [] => ""
  | terms => " ORDER BY " ++ String.intercalate ", " terms

/-- The text of the LIMIT clause. -/
def limitText : Option Nat → String
  | some limit => " LIMIT " ++ toString limit
  | none => ""

/-- The text of a query. -/
def text (q : Query) : String :=
  "SELECT " ++ itemsText q.items ++ sourceText q.source ++ String.join (q.joins.map joinText) ++
    conditionsText q.conditions ++ orderingText q.ordering ++ limitText q.limit

/-- The query in parentheses, to be embedded in another. -/
def embedded (q : Query) : String := parenthesized q.text

/-- The text of a whole statement, which needs a main table and a select list. -/
def render (q : Query) : Except BuildError String :=
  if q.source.isNone then .error .missingFrom
  else if q.items.isEmpty then .error .emptySelect
  else .ok q.text

end Query

end Sql

end ObjectGraph
