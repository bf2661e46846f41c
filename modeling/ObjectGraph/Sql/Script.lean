import ObjectGraph.Caller
import ObjectGraph.Sql.Query
import ObjectGraph.Text.Substitution

/-! # Scripts

A schema adds to a query by a script: a list of steps, each of which adds a clause, embeds a
sub-query, depends on the caller, or asks a question about the query.  In the texts of a step the
hole `from` in braces stands for the alias of the main table, and the holes that the place of the
script gives (`alias`, `parent`, `child`, and `sub` for an embedded sub-query) are filled after
it, in order.  Parameter values are not filled.

`Script.run` applies a script to a query in a scope. -/

namespace ObjectGraph

namespace Sql

/-- The value of a parameter of a step. -/
inductive Argument
  | constant (value : Json)
  | user
deriving Repr

/-- A question about a query.  Some of them change it. -/
inductive Question
  | tableAlias
  | freshAlias (hint : String)
  | items
  | conditions
  | joins
  | limit
  | takeLabelled
  | takeOrdering
  | render
deriving DecidableEq, Repr

/-- The answer to a question. -/
inductive Answer
  | tableAlias (tableAlias : Option String)
  | freshAlias (tableAlias : String)
  | items (items : List SelectItem)
  | conditions (conditions : List String)
  | joins (joins : List Join)
  | limit (limit : Option Nat)
  | labelled (items : List (String × String))
  | ordering (terms : List String) (limit : Option Nat)
  | rendered (text : Except BuildError String)

/-- What a step may depend on. -/
inductive Condition
  | loggedIn
  | premium
  | flag (name : String)
deriving DecidableEq, Repr

/-- Whether a condition holds for a caller; a flag holds if it is there. -/
def Condition.holds (caller : Caller) : Condition → Bool
  | .loggedIn => caller.isLoggedIn
  | .premium => caller.premium
  | .flag name => (caller.flag? name).isSome

/-- A step of a script. -/
inductive Step
  | select (expression : String)
  | addSelect (expression : String)
  | addSelectAs (expression label : String)
  | fromTable (table tableAlias : String)
  | fromFresh (table hint : String)
  | innerJoin (table tableAlias on : String) (params : List (String × Argument))
  | leftJoin (table tableAlias on : String)
  | crossJoin (table tableAlias : String)
  | andWhere (condition : String) (params : List (String × Argument))
  | orWhere (condition : String)
  | orderBy (expression : String) (order : SortOrder)
  | limit (limit : Nat)
  | embed (steps : List Step) (outer : Step)
  | when (condition : Condition) (steps : List Step)
  | ask (question : Question)
deriving Repr, Inhabited

/-- A list of steps. -/
abbrev Script := List Step

/-- The value of an argument. -/
def Argument.resolve (caller : Caller) : Argument → Json
  | .constant value => value
  | .user => caller.userParam

/-- The values of named arguments. -/
def resolveArguments (caller : Caller) (params : List (String × Argument)) : Params :=
  params.map fun p => (p.1, p.2.resolve caller)

/-- The hole for the alias of the main table. -/
def fromHole : String := "\x7bfrom\x7d"

/-- The hole for the alias of the type at hand. -/
def aliasHole : String := "\x7balias\x7d"

/-- The hole for the alias of the parent in a relation. -/
def parentHole : String := "\x7bparent\x7d"

/-- The hole for the alias of the child in a relation. -/
def childHole : String := "\x7bchild\x7d"

/-- The hole for an embedded sub-query. -/
def subHole : String := "\x7bsub\x7d"

/-- Fill the holes of a text of a step. -/
def Query.fill (q : Query) (holes : Text.Holes) (text : String) : String :=
  Text.fill ((fromHole, q.tableAlias?.getD "") :: holes) text

/-- Answer a question. -/
def Question.answer (holes : Text.Holes) (q : Query) : Question → Building (Answer × Query)
  | .tableAlias => pure (.tableAlias q.tableAlias?, q)
  | .freshAlias hint => do pure (.freshAlias (← Sql.freshAlias (q.fill holes hint)), q)
  | .items => pure (.items q.items, q)
  | .conditions => pure (.conditions q.conditions, q)
  | .joins => pure (.joins q.joins, q)
  | .limit => pure (.limit q.limit, q)
  | .takeLabelled => pure (.labelled q.takeLabelled.1, q.takeLabelled.2)
  | .takeOrdering =>
    pure (.ordering q.takeOrdering.1.1 q.takeOrdering.1.2, q.takeOrdering.2)
  | .render => pure (.rendered q.render, q)

mutual

/-- Apply a step. -/
def Step.run (caller : Caller) (holes : Text.Holes) (q : Query) : Step → Building Query
  | .select e => pure (q.select (q.fill holes e))
  | .addSelect e => pure (q.addSelect (q.fill holes e))
  | .addSelectAs e label => pure (q.addSelectAs (q.fill holes e) (q.fill holes label))
  | .fromTable table tableAlias => pure (q.fromTable (q.fill holes table) (q.fill holes tableAlias))
  | .fromFresh table hint => q.fromFresh (q.fill holes table) (q.fill holes hint)
  | .innerJoin table tableAlias on params =>
    q.innerJoinWith (q.fill holes table) (q.fill holes tableAlias) (q.fill holes on)
      (resolveArguments caller params)
  | .leftJoin table tableAlias on =>
    pure (q.join .left (q.fill holes table) (q.fill holes tableAlias) (some (q.fill holes on)))
  | .crossJoin table tableAlias =>
    pure (q.join .cross (q.fill holes table) (q.fill holes tableAlias) none)
  | .andWhere condition params =>
    q.andWhereWith (q.fill holes condition) (resolveArguments caller params)
  | .orWhere condition => pure (q.orWhere (q.fill holes condition))
  | .orderBy e order => pure (q.orderBy (q.fill holes e) order)
  | .limit n => pure (q.withLimit n)
  | .embed steps outer => do
    let sub ← Step.runAll caller holes {} steps
    outer.run caller (holes ++ [(subHole, sub.embedded)]) q
  | .when condition steps =>
    if condition.holds caller then Step.runAll caller holes q steps else pure q
  | .ask question => do pure (← question.answer holes q).2

/-- Apply steps in turn. -/
def Step.runAll (caller : Caller) (holes : Text.Holes) (q : Query) : List Step → Building Query
  | [] => pure q
  | step :: steps => do
    let q ← step.run caller holes q
    Step.runAll caller holes q steps

end

/-- Apply a script to a query. -/
def Script.run (caller : Caller) (holes : Text.Holes) (q : Query) (script : Script) :
    Building Query :=
  Step.runAll caller holes q script

end Sql

end ObjectGraph
