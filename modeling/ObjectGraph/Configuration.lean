import ObjectGraph.Document.Yaml
import ObjectGraph.Plan.Basic
import ObjectGraph.Text.Numeral

/-! # Configuration

A configuration says where the data and the catalog are and within which bounds requests are
planned.  It is read from the environment or from a document and is checked before it is used;
`Configuration.violations` lists all that is wrong with it. -/

namespace ObjectGraph

/-- A configuration. -/
structure Configuration where
  /-- The database file; `:memory:` stands for one that is not kept. -/
  database : String := ":memory:"
  /-- The file of the catalog. -/
  catalog : Option String := none
  settings : Plan.Settings := {}
deriving DecidableEq, Repr

namespace Configuration

/-! ### Checks -/

/-- What is wrong with the values of a configuration. -/
inductive Violation
  | emptyDatabase
  | depthOutOfRange
  | relationRowsOutOfRange
deriving DecidableEq, Repr

/-- The member that is at fault. -/
def Violation.member : Violation → String
  | .emptyDatabase => "database_path"
  | .depthOutOfRange => "max_depth"
  | .relationRowsOutOfRange => "max_relation_rows"

/-- The wording of a violation. -/
def Violation.message : Violation → String
  | .emptyDatabase => "Database path cannot be empty"
  | .depthOutOfRange => "Max depth must be between 1 and 32"
  | .relationRowsOutOfRange => "Max relation rows must be between 1 and 10000"

/-- What is wrong with a configuration, in the order of the names of the members. -/
def violations (c : Configuration) : List Violation :=
  (if c.database.isEmpty then [.emptyDatabase] else []) ++
  (if 1 ≤ c.settings.maxDepth ∧ c.settings.maxDepth ≤ 32 then [] else [.depthOutOfRange]) ++
  (if 1 ≤ c.settings.maxRelationRows ∧ c.settings.maxRelationRows ≤ 10000 then []
    else [.relationRowsOutOfRange])

/-- What is wrong with the text of a variable of the environment. -/
inductive Cause
  | dialect (error : Sql.BuildError)
  | numeral (error : Text.NumeralError)
deriving DecidableEq, Repr

/-- The wording of what is wrong with a text. -/
def Cause.message : Cause → String
  | .dialect e => e.message
  | .numeral e => e.message

/-- Why there is no configuration. -/
inductive Error
  /-- A variable of the environment has a text that cannot be read. -/
  | variable (name text : String) (cause : Cause)
  /-- A document cannot be read. -/
  | document
  | invalid (violations : List Violation)
deriving DecidableEq, Repr

/-- The wording of an error. -/
def Error.message : Error → String
  | .variable name text cause => s!"Parse error for {name}: {text} - {cause.message}"
  | .document => "Parse error for yaml_content"
  | .invalid violations =>
    "Validation error: " ++
      String.intercalate "\n" (violations.map fun v => v.member ++ ": " ++ v.message)

/-- A configuration that nothing is wrong with. -/
def checked (c : Configuration) : Except Error Configuration :=
  match c.violations with
  | [] => .ok c
  | violations => .error (.invalid violations)

/-! ### Environment -/

/-- The variable of the environment for a member. -/
def variableName (member : String) : String := "GRAPHORM_" ++ member

/-- The value of a variable, or a default where it is not set. -/
def readVariable {α : Type} (lookup : String → Option String) (member : String) (default : α)
    (read : String → Except Cause α) : Except Error α :=
  match lookup (variableName member) with
  | none => .ok default
  | some text => (read text).mapError (.variable (variableName member) text)

/-- A number of at most 64 bits. -/
def readWord (text : String) : Except Cause Nat :=
  (Text.readNat (2 ^ 64 - 1) text.toList).mapError .numeral

/-- The name of a dialect. -/
def readDialect (text : String) : Except Cause Sql.Dialect :=
  (Sql.Dialect.parse text).mapError .dialect

/-- The configuration of an environment. -/
def ofEnvironment (lookup : String → Option String) : Except Error Configuration := do
  let default : Configuration := {}
  let dialect ← readVariable lookup "DIALECT" default.settings.dialect readDialect
  let maxRelationRows ←
    readVariable lookup "MAX_RELATION_ROWS" default.settings.maxRelationRows readWord
  let maxDepth ← readVariable lookup "MAX_DEPTH" default.settings.maxDepth readWord
  checked
    { database := (lookup (variableName "DATABASE")).getD default.database
      catalog := lookup (variableName "SCHEMA")
      settings := { dialect, maxDepth, maxRelationRows } }

/-! ### Documents -/

/-- The configuration that a document gives, before it is checked.  Members that are not known are
passed over. -/
def ofDocument? (d : Document) : Option Configuration := do
  let default : Configuration := {}
  let m ← d.record? false [⟨"database_path", true⟩, ⟨"schema_path", true⟩, ⟨"dialect", true⟩,
    ⟨"max_relation_rows", true⟩, ⟨"max_depth", true⟩]
  let database ← Document.defaulted? m "database_path" default.database Document.text?
  let catalog ← Document.optional? m "schema_path" Document.text?
  let dialect ← Document.defaulted? m "dialect" default.settings.dialect fun d =>
    d.text?.bind Sql.Dialect.ofName?
  let maxRelationRows ←
    Document.defaulted? m "max_relation_rows" default.settings.maxRelationRows Document.word?
  let maxDepth ← Document.defaulted? m "max_depth" default.settings.maxDepth Document.word?
  pure { database, catalog, settings := { dialect, maxDepth, maxRelationRows } }

/-- The configuration of a YAML text. -/
def ofYaml (text : String) : Except Error Configuration :=
  match (Yaml.parse? text).bind ofDocument? with
  | some c => c.checked
  | none => .error .document

end Configuration

end ObjectGraph
