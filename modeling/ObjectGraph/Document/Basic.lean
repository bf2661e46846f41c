import ObjectGraph.Dictionary

/-! # Documents

A `Document` is what a configuration text says, whichever notation it was written in.  Notations
differ in what a scalar may be read as, so a `Scalar` carries its readings: a bare `12` may be
taken as a number, as a text where a text is wanted, but not as a text where a list could stand
as well.

A record's members are asked for by name with `Document.record?`, which refuses members written
twice and, if told so, members that are not known. -/

namespace ObjectGraph

/-- The readings of a scalar. -/
structure Scalar where
  /-- Nothing is written: the empty list, or the empty record. -/
  blank : Bool := false
  /-- Stands for no value where a value is optional. -/
  absent : Bool := false
  /-- As a text, where a text is wanted. -/
  text : Option String := none
  /-- As a text, where another kind of value could stand as well. -/
  bareText : Option String := none
  truth : Option Bool := none
  /-- As an unsigned 64-bit integer. -/
  word : Option Nat := none
deriving Repr

/-- A configuration document. -/
inductive Document
  | scalar (scalar : Scalar)
  /-- A list; a positional one may also stand for a record, its items being the members. -/
  | list (positional : Bool) (items : List Document)
  /-- Entries in order; a key that is no text is `none`. -/
  | record (entries : List (Option String × Document))
deriving Repr

namespace Document

/-- The text of a document that must be a text. -/
def text? : Document → Option String
  | .scalar s => s.text
  | _ => none

/-- The text of a document that may be something else as well. -/
def bareText? : Document → Option String
  | .scalar s => s.bareText
  | _ => none

/-- The truth value of a document. -/
def truth? : Document → Option Bool
  | .scalar s => s.truth
  | _ => none

/-- The unsigned integer of a document. -/
def word? : Document → Option Nat
  | .scalar s => s.word
  | _ => none

/-- The items of a list. -/
def items? : Document → Option (List Document)
  | .list _ items => some items
  | .scalar s => if s.blank then some [] else none
  | .record _ => none

/-- A list whose items are all read by `f`. -/
def listOf? {α : Type} (f : Document → Option α) (d : Document) : Option (List α) := do
  (← d.items?).mapM f

/-- Entries whose keys all are texts. -/
def named? (entries : List (Option String × Document)) : Option (List (String × Document)) :=
  entries.mapM fun entry => entry.1.map fun key => (key, entry.2)

/-- The entries of a record with keys of any name; of entries with one key the last counts. -/
def dictionary? {α : Type} (f : Document → Option α) (d : Document) : Option (Dictionary α) :=
  match d with
  | .record entries => do
    let entries ← named? entries
    let entries ← entries.mapM fun entry => (f entry.2).map fun x => (entry.1, x)
    some (Dictionary.ofList entries).sorted
  | .scalar s => if s.blank then some [] else none
  | .list _ _ => none

/-- A member of a record. -/
structure Member where
  name : String
  /-- Whether it may be left out at the end of a positional list. -/
  optional : Bool

/-- Members given by position; at the end optional ones may be missing. -/
def positional? : List Member → List Document → Option (Dictionary Document)
  | [], [] => some []
  | [], _ :: _ => none
  | members, [] => if members.all Member.optional then some [] else none
  | member :: members, d :: rest => (positional? members rest).map ((member.name, d) :: ·)

/-- The known members of a record.  Every key must be a text.  A known member must not be written
twice; an unknown one is refused if `strict`, else passed over. -/
def record? (strict : Bool) (members : List Member) (d : Document) :
    Option (Dictionary Document) :=
  match d with
  | .record entries => do
    let entries ← named? entries
    let isKnown (entry : String × Document) : Bool := members.any fun m => m.name == entry.1
    let known := entries.filter isKnown
    if strict && !entries.all isKnown then none
    else if (known.map Prod.fst).Nodup then some known
    else none
  | .scalar s => if s.blank then some [] else none
  | .list true items => positional? members items
  | .list false _ => none

/-- A member that must be there. -/
def required? {α : Type} (members : Dictionary Document) (name : String)
    (f : Document → Option α) : Option α := do
  f (← members.get? name)

/-- A member that has a default. -/
def defaulted? {α : Type} (members : Dictionary Document) (name : String) (default : α)
    (f : Document → Option α) : Option α :=
  match members.get? name with
  | none => some default
  | some d => f d

/-- A member that may be missing or absent. -/
def optional? {α : Type} (members : Dictionary Document) (name : String)
    (f : Document → Option α) : Option (Option α) :=
  match members.get? name with
  | none => some none
  | some (.scalar s) => if s.absent then some none else (f (.scalar s)).map some
  | some d => (f d).map some

end Document

end ObjectGraph
