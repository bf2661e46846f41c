import ObjectGraph.Caller
import ObjectGraph.Json.Reader
import ObjectGraph.Json.Reading
import ObjectGraph.Storage.Session
import ObjectGraph.Text.Blank
import ObjectGraph.Text.Split
import ObjectGraph.Time.Timestamp

/-! # Transforms

A transform turns the fetched value of a field into the one that is answered.  It sees the caller
and the object the field belongs to, and may look a row up.  `null` is the way to say that the
caller may not see a value: the redactors `nullIfNotLoggedIn`, `nullIfNotSameUser` and
`premiumOnly` answer it, and the coercions let it pass or answer a value that says nothing.

`Transform.named?` resolves the names that catalogs use. -/

namespace ObjectGraph

/-- Why a transform gives no value. -/
inductive TransformError
  | failed (message : String)
  | unexpectedValue (expected : String) (actual : Json)
  | storage (error : StorageError)
deriving Repr

/-- The wording of a failure. -/
def TransformError.message : TransformError → String
  | .failed message => message
  | .unexpectedValue expected actual => s!"Expected {expected}, got {actual.render}"
  | .storage error => s!"Lookup failed: {error.message}"

/-- The transforms that catalogs can name. -/
inductive Builtin
  | nullIfNotLoggedIn
  /-- Keep the value only if this member of the object is the identity of the caller. -/
  | nullIfNotSameUser (column : String)
  | premiumOnly
  | toDate
  | splitComma
  | toBool
  | negate
  | positive
  | arrayLength
  /-- Replace a key by the first row of a table that has it in a column. -/
  | lookup (table column : String)
deriving DecidableEq, Repr

/-- A transform: one of the built-in ones, one that a schema brings, or one after another. -/
inductive Transform
  | builtin (builtin : Builtin)
  | custom (apply : Json → Caller → Object → Except TransformError Json)
  | andThen (first second : Transform)

/-- Whether a member of the object is the identity of the caller. -/
def Caller.isOwner (caller : Caller) (parent : Object) (column : String) : Bool :=
  match caller.user, (parent.get? column).bind Json.identityKey? with
  | some user, some owner => user == owner
  | _, _ => false

namespace Builtin

/-- The value, or `null` unless the condition holds. -/
def keepIf (condition : Bool) (value : Json) : Json := if condition then value else .null

/-- Apply `f` to a value other than `null`; where it has no answer the value is unexpected. -/
def coerce (expected : String) (f : Json → Option Json) (value : Json) :
    Except TransformError Json :=
  if value.isNull then .ok .null
  else
    match f value with
    | some result => .ok result
    | none => .error (.unexpectedValue expected value)

/-- The length of an array, or of an array in JSON text. -/
def lengthOf? : Json → Option Nat
  | .arr items => some items.length
  | .str text =>
    match Json.parse? text with
    | some (.arr items) => some items.length
    | _ => none
  | _ => none

/-- Apply a built-in transform that needs no storage; `none` for a lookup. -/
def applyPure? (value : Json) (caller : Caller) (parent : Object) :
    Builtin → Option (Except TransformError Json)
  | .nullIfNotLoggedIn => some (.ok (keepIf caller.isLoggedIn value))
  | .nullIfNotSameUser column => some (.ok (keepIf (caller.isOwner parent column) value))
  | .premiumOnly => some (.ok (keepIf caller.premium value))
  | .toDate =>
    some (coerce "timestamp" (fun v => (Time.Timestamp.ofJson? v).map fun t => .str t.text) value)
  | .splitComma =>
    some (match value with
      | .null => .ok (.arr [])
      | .str text =>
        if text.isEmpty then .ok (.arr [])
        else .ok (.arr ((Text.splitAll ',' text.toList).map fun part => .str (String.ofList part)))
      | other => .error (.unexpectedValue "comma separated string" other))
  | .toBool => some (coerce "boolean" (fun v => v.truthy?.map .bool) value)
  | .negate => some (coerce "boolean" (fun v => v.truthy?.map fun b => .bool !b) value)
  | .positive =>
    some (match value with
      | .null => .ok (.bool false)
      | .num n => .ok (.bool n.isPositive)
      | .bool b => .ok (.bool b)
      | other => .error (.unexpectedValue "number" other))
  | .arrayLength =>
    some (match value with
      | .null => .ok (Json.ofNat 0)
      | other =>
        match lengthOf? other with
        | some n => .ok (Json.ofNat n)
        | none => .error (.unexpectedValue "array" other))
  | .lookup _ _ => none

/-- The row that a lookup replaces a key by. -/
def lookUp (table column : String) (value : Json) : Session TransformError Json :=
  if value.isNull then pure .null
  else do
    let row ← Session.mapError .storage (Session.findOneBy table column value)
    pure (Json.ofOption .obj row)

/-- Apply a built-in transform. -/
def apply (value : Json) (caller : Caller) (parent : Object) (b : Builtin) :
    Session TransformError Json :=
  match b with
  | .lookup table column => lookUp table column value
  | b =>
    match b.applyPure? value caller parent with
    | some result => Session.ofExcept result
    | none => pure value

/-- Whether the transform issues statements. -/
def readsStorage : Builtin → Bool
  | .lookup _ _ => true
  | _ => false

end Builtin

namespace Transform

/-- Apply a transform to the value of a field of an object. -/
def apply (value : Json) (caller : Caller) (parent : Object) :
    Transform → Session TransformError Json
  | .builtin b => b.apply value caller parent
  | .custom f => Session.ofExcept (f value caller parent)
  | .andThen first second => do
    let value ← first.apply value caller parent
    second.apply value caller parent

/-- The first transform and then the other, where there are two. -/
def andThen? : Option Transform → Option Transform → Option Transform
  | some first, some second => some (.andThen first second)
  | some first, none => some first
  | none, second => second

/-! ### Names -/

/-- The built-in transform of a name with its argument. -/
def builtin? (name : String) (argument : Option String) : Option Builtin :=
  match name, argument with
  | "null_if_not_logged_in", _ => some .nullIfNotLoggedIn
  | "null_if_not_same_user", _ => some (.nullIfNotSameUser "id")
  | "null_if_not_same_user_by", some column => some (.nullIfNotSameUser column)
  | "premium_only", _ => some .premiumOnly
  | "to_date", _ => some .toDate
  | "split_comma", _ => some .splitComma
  | "to_bool", _ => some .toBool
  | "negate", _ => some .negate
  | "positive", _ => some .positive
  | "array_length", _ => some .arrayLength
  | "lookup", some argument =>
    (Text.splitOnce '.' argument).map fun (table, column) => .lookup table column
  | _, _ => none

/-- The transform of an entry `name` or `name:argument`, both trimmed. -/
def named? (entry : String) : Option Transform :=
  let builtin := match Text.splitOnce ':' entry with
    | some (name, argument) => builtin? (Text.trim name) (some (Text.trim argument))
    | none => builtin? (Text.trim entry) none
  builtin.map .builtin

end Transform

end ObjectGraph
