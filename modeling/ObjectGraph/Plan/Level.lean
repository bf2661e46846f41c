import ObjectGraph.Plan.Basic

/-! # Compiling one level of objects

A level is compiled in three steps.  `openLevel` applies the filters to the query of the level
and takes the labelled selects out that they added.  `entries` goes through the selected fields,
adding to the select list and to the plan; a single related object is compiled on the way, as a
correlated sub-select that packs it into one column.  `closeLevel` adds the columns that are
always fetched and what the filters added.  In a select list the first item of a label counts. -/

namespace ObjectGraph

namespace Plan

open Sql (Query Building qualified)
open Schema (Registry TypeMapping TypeFilter Relation Resolved FieldSource)

/-- Compiling a statement, in its scope. -/
abbrev Compiling := StateT Sql.Scope (Except Error)

namespace Compiling

/-- A step of building that cannot fail. -/
def ofBuilding {α : Type} (build : Building α) : Compiling α := fun scope =>
  .ok (StateT.run build scope)

/-- An outcome of a look-up in the schema. -/
def ofSchema {α : Type} (x : Except Schema.Error α) : Compiling α :=
  StateT.lift (x.mapError .schema)

/-- An outcome of statement building. -/
def ofSql {α : Type} (x : Except Sql.BuildError α) : Compiling α :=
  StateT.lift (x.mapError .sql)

end Compiling

/-- The items of a select list, as pairs of label and expression. -/
abbrev SelectList := List (String × String)

/-- Add an item unless its label is there. -/
def SelectList.add (s : SelectList) (label expression : String) : SelectList :=
  if s.any fun item => item.1 == label then s else s ++ [(label, expression)]

/-- Add items in turn. -/
def SelectList.addAll (s : SelectList) (items : List (String × String)) : SelectList :=
  items.foldl (fun s item => s.add item.1 item.2) s

/-- What compiling depends on. -/
structure Environment where
  registry : Registry
  settings : Settings
  caller : Caller

/-- A level to be compiled. -/
structure Level where
  typeName : String
  tableAlias : String
  depth : Nat
  /-- The level is packed into a column of a level that is packed itself. -/
  nested : Bool
  /-- Columns fetched besides those that the type requires. -/
  extraRequired : List String
  origin : List Nat

/-- What is compiled of a level so far. -/
structure Progress where
  select : SelectList
  /-- Labelled selects of the filters that no field has used. -/
  extras : List (String × String)
  fields : List (FieldPlan NodePlan)
  many : List ManyPlan

/-- A level with its mapping, its query and what is compiled of it. -/
structure Opened where
  level : Level
  mapping : TypeMapping
  query : Query
  progress : Progress

/-- Begin a level: check its depth and apply the filter of its type and that of the caller. -/
def openLevel (env : Environment) (level : Level) (filter : Option TypeFilter) (q : Query) :
    Compiling Opened := do
  if env.settings.maxDepth < level.depth then
    throw (.depthExceeded level.depth env.settings.maxDepth)
  let mapping ← .ofSchema (env.registry.lookup level.typeName)
  let q ← .ofBuilding (TypeFilter.applyOption env.caller level.tableAlias q mapping.filter)
  let q ← .ofBuilding (TypeFilter.applyOption env.caller level.tableAlias q filter)
  let (extras, q) := q.takeLabelled
  pure ⟨level, mapping, q, ⟨[], extras, [], []⟩⟩

/-- Take the first item of a label out. -/
def takeLabel (label : String) : List (String × String) → Option (String × List (String × String))
  | [] => none
  | item :: rest =>
    if item.1 = label then some (item.2, rest)
    else (takeLabel label rest).map fun r => (r.1, item :: r.2)

/-- The expression of a field that is a value, with the labelled selects that are left.  A
computed field and a written expression come first, then what a filter added under the name of
the field, then the column. -/
def valueExpression (env : Environment) (level : Level) (name : String) (resolved : Resolved)
    (extras : List (String × String)) : Compiling (String × List (String × String)) :=
  let source? : Option (FieldSource × Bool) :=
    resolved.mapping.map fun m => (m.source, m.rawSelect)
  match source? with
  | some (.computed computed, _) => do
    let expression ← .ofBuilding (computed.render env.caller level.tableAlias)
    pure (expression, extras)
  | some (.column (some raw), true) =>
    pure (Text.replace raw Sql.aliasHole level.tableAlias, extras)
  | source =>
    match takeLabel name extras with
    | some found => pure found
    | none =>
      match source with
      | some (.column (some column), _) => pure (qualified level.tableAlias column, extras)
      | some (.column none, _) | none => pure (qualified level.tableAlias resolved.field, extras)
      | _ => throw (.schema (.invalidAlias level.typeName name .noValue))

/-- Compile a field that is selected without fields of its own. -/
def valueEntry (env : Environment) (level : Level) (p : Progress) (name : String) :
    Compiling Progress := do
  let resolved ← .ofSchema (env.registry.resolve level.typeName name)
  if resolved.relation?.isSome then throw (.missingSelection level.typeName name)
  let (expression, extras) ← valueExpression env level name resolved p.extras
  let field : FieldPlan NodePlan :=
    { name, kind := .value, json := resolved.json, transform := resolved.transform? }
  pure { p with
    select := p.select.add name expression
    extras
    fields := p.fields ++ [field] }

/-- The columns of the parent by which its related objects are found. -/
def parentKeyColumns (mapping : TypeMapping) (relation : Relation) : List String :=
  match relation.join.columns? with
  | some (parent, _) => [parent]
  | none => mapping.key

/-- Compile a list of related objects: only the key of the parent is fetched with it. -/
def manyEntry (opened : Opened) (p : Progress) (position : Nat) (name : String)
    (resolved : Resolved) (relation : Relation) (selection : List Selection) : Progress :=
  let level := opened.level
  let columns := parentKeyColumns opened.mapping relation
  let many : ManyPlan :=
    { field := name
      parentType := level.typeName
      target := resolved.view.getD relation.target
      selection
      keyLabels := columns.map keyLabel
      depth := level.depth + 1
      paging := resolved.paging?
      origin := level.origin ++ [position] }
  let field : FieldPlan NodePlan :=
    { name, kind := .many p.many.length, transform := resolved.transform? }
  { p with
    select := p.select.addAll (columns.map fun c => (keyLabel c, qualified level.tableAlias c))
    fields := p.fields ++ [field]
    many := p.many ++ [many] }

/-- Begin the level of a single related object, with the query of its sub-select. -/
def openSingle (env : Environment) (level : Level) (position : Nat) (relation : Relation)
    (target : String) : Compiling Opened := do
  let mapping ← .ofSchema (env.registry.lookup target)
  let tableAlias ← .ofBuilding (Sql.freshAlias target)
  let q := ({} : Query).fromTable (mapping.tableName target) tableAlias
  let q ← .ofBuilding (relation.join.apply env.caller level.tableAlias tableAlias q)
  let q := match relation.sort with
    | some (column, order) => q.orderBy (qualified tableAlias column) order
    | none => q
  let child : Level :=
    { typeName := target
      tableAlias
      depth := level.depth + 1
      nested := true
      extraRequired := []
      origin := level.origin ++ [position] }
  openLevel env child none q

/-- Finish a level: its select list and its plan. -/
def closeLevel (opened : Opened) (p : Progress) : SelectList × NodePlan :=
  let level := opened.level
  let required := opened.mapping.required ++ level.extraRequired
  let select := (p.select.addAll (required.map fun c => (c, qualified level.tableAlias c))).addAll
    p.extras
  (select, ⟨level.origin, level.typeName, p.fields, p.many⟩)

/-- Add a single related object: the sub-select that packs it, embedded as a document where the
level is packed itself. -/
def closeSingle (env : Environment) (level : Level) (p : Progress) (name : String)
    (resolved : Resolved) (child : Opened) (childProgress : Progress) : Progress :=
  let (select, plan) := closeLevel child childProgress
  let sub := ((child.query.select (env.settings.dialect.jsonObject select)).withLimit 1).embedded
  let expression := if level.nested then env.settings.dialect.embedJson sub else sub
  let field : FieldPlan NodePlan :=
    { name, kind := .single plan, transform := resolved.transform? }
  { p with select := p.select.add name expression, fields := p.fields ++ [field] }

mutual

/-- Compile a selected field at a position of its level. -/
def entry (env : Environment) (opened : Opened) (p : Progress) (position : Nat) :
    Selection → Compiling Progress
  | .scalar name => valueEntry env opened.level p name
  | .nested name selection => do
    let level := opened.level
    let resolved ← .ofSchema (env.registry.resolve level.typeName name)
    match resolved.relation? with
    | none => throw (.unexpectedSelection level.typeName name)
    | some relation =>
      if relation.many then
        pure (manyEntry opened p position name resolved relation selection)
      else
        let child ← openSingle env level position relation (resolved.view.getD relation.target)
        let childProgress ← entries env child child.progress 0 selection
        pure (closeSingle env level p name resolved child childProgress)

/-- Compile selected fields in turn, the first of them at a position of their level. -/
def entries (env : Environment) (opened : Opened) (p : Progress) (position : Nat) :
    List Selection → Compiling Progress
  | [] => pure p
  | field :: fields => do
    let p ← entry env opened p position field
    entries env opened p (position + 1) fields

end

/-- Compile a level: its query, its select list and its plan. -/
def compileLevel (env : Environment) (level : Level) (filter : Option TypeFilter) (q : Query)
    (fields : List Selection) : Compiling (Query × SelectList × NodePlan) := do
  let opened ← openLevel env level filter q
  let p ← entries env opened opened.progress 0 fields
  let (select, plan) := closeLevel opened p
  pure (opened.query, select, plan)

/-- Add the items of a select list to a query. -/
def addSelects (q : Query) (select : SelectList) : Query :=
  select.foldl (fun q item => q.addSelectAs item.2 item.1) q

/-- The statement of a text in the scope it was compiled in; all its placeholders are bound. -/
def finish (sql : String) (scope : Sql.Scope) : Except Error Sql.Statement := do
  let statement := scope.statement sql
  (statement.verifyBound).mapError .sql
  pure statement

end Plan

end ObjectGraph
