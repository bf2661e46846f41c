import ObjectGraph.Paging.Cursor

/-! # Paging

How a list of related objects is cut into pages.  No total is counted: a page that is full is
reported as possibly having more after it.  There is no paging backwards; whether there is a page
before is a constant of the schema. -/

namespace ObjectGraph

/-- The paging of a relation to many objects. -/
structure Paging where
  limit : Nat
  /-- Whether there is more after a page of that many objects, where it is not left to the page
  being full. -/
  hasNextOverride : Option (Nat → Bool) := none
  hasPrevious : Bool := false
  /-- The cursor of an object, from its row. -/
  cursor : Object → Option String
  /-- The columns that the cursor needs; they are fetched for every object. -/
  cursorColumns : List String

namespace Paging

/-- Paging with a time cursor over a column. -/
def byTime (limit : Nat) (column : String) : Paging :=
  { limit, cursor := Cursor.byTime column, cursorColumns := [column] }

/-- Paging with a time cursor over `createdAt`. -/
def ofLimit (limit : Nat) : Paging := byTime limit "createdAt"

/-- Take the time cursor over another column. -/
def withTimeCursor (p : Paging) (column : String) : Paging :=
  { p with cursor := Cursor.byTime column, cursorColumns := [column] }

/-- Take another cursor over some columns. -/
def withCursor (p : Paging) (columns : List String) (cursor : Object → Option String) : Paging :=
  { p with cursor, cursorColumns := columns }

/-- Whether there is more after a page of `fetched` objects. -/
def hasNext (p : Paging) (fetched : Nat) : Bool :=
  match p.hasNextOverride with
  | some f => f fetched
  | none => fetched == p.limit

/-- The same paging over pages no larger than `size`. -/
def capped (p : Paging) (size : Nat) : Paging := { p with limit := min p.limit size }

end Paging

end ObjectGraph
