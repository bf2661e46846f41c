import ObjectGraph.Catalog.Application
import ObjectGraph.Catalog.Reader
import ObjectGraph.Configuration
import ObjectGraph.Json.Reader
import ObjectGraph.Request.Reader
import ObjectGraph.Resolution

/-! # The command line

The command writes the root statement of a request with its parameters.  Options go before what
the environment says. -/

namespace ObjectGraph

/-- The options of the command. -/
structure Options where
  catalog : Option String := none
  database : Option String := none
  /-- The file of the request; `-` stands for the standard input. -/
  request : String := "-"
  user : Option String := none
  premium : Bool := false
  dialect : Option Sql.Dialect := none
  maxRelationRows : Option Nat := none
  maxDepth : Option Nat := none
deriving Repr

namespace Options

/-- Read an option's value. -/
def readValue {α : Type} (name text : String) (read : String → Except Configuration.Cause α) :
    Except String α :=
  (read text).mapError fun cause =>
    "invalid value '" ++ text ++ "' for '" ++ name ++ "': " ++ cause.message

/-- Set an option that takes a value. -/
def set (o : Options) (name text : String) : Except String Options :=
  match name with
  | "--schema" => .ok { o with catalog := some text }
  | "--database" => .ok { o with database := some text }
  | "--request" => .ok { o with request := text }
  | "--user-id" => .ok { o with user := some text }
  | "--dialect" => do
    pure { o with dialect := some (← readValue name text Configuration.readDialect) }
  | "--max-relation-rows" => do
    pure { o with maxRelationRows := some (← readValue name text Configuration.readWord) }
  | "--max-depth" => do
    pure { o with maxDepth := some (← readValue name text Configuration.readWord) }
  | _ => .error ("unexpected argument '" ++ name ++ "'")

/-- Read the options among the words of a command. -/
def ofWords (o : Options) : List String → Except String Options
  | [] => .ok o
  | "--premium" :: rest => ofWords { o with premium := true } rest
  | "--sql-only" :: rest => ofWords o rest
  | name :: text :: rest => do ofWords (← o.set name text) rest
  | [name] => .error ("a value is required for '" ++ name ++ "'")

/-- A configuration with the options in place of what it says. -/
def override (o : Options) (c : Configuration) : Configuration :=
  { database := o.database.getD c.database
    catalog := o.catalog.or c.catalog
    settings :=
      { dialect := o.dialect.getD c.settings.dialect
        maxRelationRows := o.maxRelationRows.getD c.settings.maxRelationRows
        maxDepth := o.maxDepth.getD c.settings.maxDepth } }

/-- The caller that the options name. -/
def caller (o : Options) : Caller := { user := o.user, premium := o.premium }

end Options

namespace CommandLine

/-- The checked configuration of options and an environment. -/
def configurationOf (o : Options) (lookup : String → Option String) :
    Except String Configuration :=
  let settled := do (o.override (← Configuration.ofEnvironment lookup)).checked
  settled.mapError Configuration.Error.message

/-- The schema of the text of a catalog. -/
def schemaOf (text : String) : Except String Schema.Registry :=
  match Catalog.ofYaml? text with
  | none => .error "the type catalog cannot be read"
  | some catalog => do
    let build := do (← catalog.applyTo {}).build
    build.mapError Schema.Error.message

/-- The request of a text. -/
def requestOf (text : String) : Except String Request :=
  match (Json.parse? text).bind Request.ofJson? with
  | some request => .ok request
  | none => .error "parsing requested field tree"

/-- What is written for a statement: its text and, on a line of their own, its parameters. -/
def written (s : Sql.Statement) : String :=
  s.sql ++ "\n" ++ (Json.arr (s.params.map fun (name, value) => .arr [.str name, value])).render

/-- What the command writes for the texts of a catalog and of a request. -/
def output (o : Options) (settings : Plan.Settings) (catalog request : String) :
    Except String String := do
  let registry ← schemaOf catalog
  let request ← requestOf request
  let statement ← (Resolution.statement ⟨registry, settings, o.caller⟩ request).mapError
    Fault.message
  pure (written statement)

end CommandLine

end ObjectGraph
