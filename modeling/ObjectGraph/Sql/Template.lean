import ObjectGraph.Sql.Scope

/-! # Templates

A template is SQL text with placeholders for which values are supplied.  `bindTemplate` binds the
values in the scope and puts the names they are bound under in the place of the placeholders: a
list placeholder over an array becomes one name per element, `NULL` if there is none.  All other
text stays as it is, placeholders without a supplied value included. -/

namespace ObjectGraph

namespace Sql

/-- The text of placeholders, separated by commas. -/
def placeholderList (names : List String) : String :=
  String.intercalate ", " (names.map (":" ++ ·))

/-- Bind the elements of a list under `name_0`, `name_1`, …, counting from `index`. -/
def bindElements (name : String) : (index : Nat) → List Json → Building (List String)
  | _, [] => pure []
  | index, item :: items => do
    let bound ← bind (name ++ "_" ++ toString index) item
    let names ← bindElements name (index + 1) items
    pure (bound :: names)

/-- Bind the value of one placeholder and give its text. -/
def bindPlaceholder (list : Bool) (name : String) (value : Json) : Building String :=
  match list, value with
  | true, .arr [] => pure "NULL"
  | true, .arr items => do pure (placeholderList (← bindElements name 0 items))
  | _, value => do pure (":" ++ (← bind name value))

/-- The text of a token after binding. -/
def bindToken (params : Params) (token : Token) : Building String :=
  match token with
  | .placeholder list name =>
    match params.get? (String.ofList name) with
    | some value => bindPlaceholder list (String.ofList name) value
    | none => pure (String.ofList token.text)
  | _ => pure (String.ofList token.text)

/-- The texts of tokens after binding them in turn. -/
def bindTokens (params : Params) : List Token → Building (List String)
  | [] => pure []
  | token :: tokens => do
    let text ← bindToken params token
    let texts ← bindTokens params tokens
    pure (text :: texts)

/-- Put bound names in the place of the placeholders for which values are supplied. -/
def bindTemplate (template : String) (params : Params) : Building String :=
  if params.isEmpty then pure template
  else do pure (String.join (← bindTokens params (Token.scan template.toList)))

end Sql

end ObjectGraph
