/-! # Faults of statement building -/

namespace ObjectGraph

namespace Sql

/-- Why no statement can be made. -/
inductive BuildError
  | missingFrom
  | emptySelect
  | unboundParameter (name : String)
  | unsupportedDialect (name : String)
deriving DecidableEq, Repr

/-- The wording of a fault. -/
def BuildError.message : BuildError → String
  | .missingFrom => "Statement has no FROM clause (call `from` or `from_fresh` first)"
  | .emptySelect => "Statement selects nothing (at least one select item is required)"
  | .unboundParameter name => s!"Placeholder `:{name}` is not bound to any parameter"
  | .unsupportedDialect name =>
    s!"Unsupported SQL dialect `{name}` (expected `sqlite` or `postgresql`)"

end Sql

end ObjectGraph
