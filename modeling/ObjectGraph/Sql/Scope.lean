import ObjectGraph.Json.Basic
import ObjectGraph.Sql.Error
import ObjectGraph.Sql.Token

/-! # The scope of a statement

All parts of one statement, its sub-queries included, share a `Scope`: the aliases minted so far
and the named parameters bound so far.  An alias ends in its position among the aliases, so that
every level of nesting gets one of its own (`post_1`, `source_member_2`).  Binding a name again
with an equal value gives the same name; with another value it gives `name_2`, `name_3`, …, the
first of them that is free or holds an equal value.

A finished `Statement` is the text with the parameters and aliases of its scope;
`Statement.verifyBound` fails on the first placeholder that no parameter was bound for. -/

namespace ObjectGraph

namespace Sql

/-- Named parameters in the order in which they were bound. -/
abbrev Params := Dictionary Json

/-- A parameterized statement that can be issued. -/
structure Statement where
  sql : String
  params : Params
  aliases : List String
deriving Repr

/-- The value of a parameter. -/
def Statement.param? (s : Statement) (name : String) : Option Json := s.params.get? name

/-- Fail on the first placeholder that has no parameter. -/
def Statement.verifyBound (s : Statement) : Except BuildError Unit :=
  match (placeholderNames s.sql).find? fun name => (s.param? name).isNone with
  | some name => .error (.unboundParameter name)
  | none => .ok ()

/-! ### Identifiers for aliases -/

/-- Lower-case words joined by underscores: an upper-case letter after a lower-case one or a
digit begins a word, and what is neither an ASCII letter nor a digit becomes an underscore. -/
def snakeChars : (afterLower : Bool) → List Char → List Char
  | _, [] => []
  | afterLower, c :: rest =>
    if c.isUpper then
      if afterLower then '_' :: c.toLower :: snakeChars false rest
      else c.toLower :: snakeChars false rest
    else if c.isAlphanum then c :: snakeChars true rest
    else '_' :: snakeChars false rest

/-- A lower-case identifier made of a name; `t` goes before a leading digit or an empty name. -/
def snakeCase (name : String) : String :=
  match snakeChars false name.toList with
  | [] => "t"
  | c :: rest => String.ofList (if c.isDigit then 't' :: c :: rest else c :: rest)

/-! ### Scopes -/

/-- What the parts of one statement share. -/
structure Scope where
  aliases : List String := []
  params : Params := []
deriving Repr, Inhabited

/-- Building a part of a statement. -/
abbrev Building := StateM Scope

namespace Scope

/-- The finished statement of a text. -/
def statement (scope : Scope) (sql : String) : Statement :=
  ⟨sql, scope.params, scope.aliases⟩

/-- The alias that a hint gives in a scope. -/
def aliasFor (scope : Scope) (hint : String) : String :=
  snakeCase hint ++ "_" ++ toString (scope.aliases.length + 1)

/-- The names tried for a parameter, in turn. -/
def candidate (name : String) : Nat → String
  | 0 => name
  | n + 1 => name ++ "_" ++ toString (n + 2)

/-- Whether a value can be bound under a name: it is free, or holds an equal value. -/
def accepts (params : Params) (value : Json) (name : String) : Bool :=
  match params.get? name with
  | none => true
  | some bound => bound.same value

/-- The name under which a value is bound.  Of one more candidate than there are parameters, one
is free. -/
def nameFor (params : Params) (name : String) (value : Json) : String :=
  let index := (List.range (params.length + 1)).find? fun i =>
    accepts params value (candidate name i)
  candidate name (index.getD params.length)

end Scope

/-- Mint an alias from a hint. -/
def freshAlias (hint : String) : Building String := fun scope =>
  let tableAlias := scope.aliasFor hint
  (tableAlias, { scope with aliases := scope.aliases ++ [tableAlias] })

/-- Bind a value and give the name it is bound under. -/
def bind (name : String) (value : Json) : Building String := fun scope =>
  let name := Scope.nameFor scope.params name value
  match scope.params.get? name with
  | some _ => (name, scope)
  | none => (name, { scope with params := scope.params ++ [(name, value)] })

/-- Build in a fresh scope. -/
def Building.run {α : Type} (build : Building α) : α × Scope := StateT.run build {}

end Sql

end ObjectGraph
