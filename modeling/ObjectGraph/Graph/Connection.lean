import ObjectGraph.Paging.Basic

/-! # Lists of related objects in an answer

Without paging a list is an array of objects.  With paging it is a connection: the objects with
their cursors, and what is known of the page. -/

namespace ObjectGraph

/-- A finished object. -/
structure Finished where
  /-- The row as it was fetched. -/
  row : Object
  /-- The row with relations, parsed texts and transformed values, hidden columns included. -/
  full : Object
  /-- The requested fields. -/
  output : Object

namespace Connection

/-- An object of a page, with its cursor. -/
def edge (paging : Paging) (child : Finished) : Json :=
  .obj [("node", .obj child.output), ("cursor", Json.ofOption .str (paging.cursor child.row))]

/-- The cursor of an object that may not be there. -/
def cursorOf (paging : Paging) (child : Option Finished) : Json :=
  Json.ofOption .str (child.bind fun c => paging.cursor c.row)

/-- What is known of a page. -/
def pageInfo (paging : Paging) (children : List Finished) : Json :=
  .obj
    [ ("hasNextPage", .bool (paging.hasNext children.length)),
      ("hasPreviousPage", .bool paging.hasPrevious),
      ("startCursor", cursorOf paging children.head?),
      ("endCursor", cursorOf paging children.getLast?) ]

/-- A page of related objects. -/
def page (paging : Paging) (children : List Finished) : Json :=
  .obj
    [ ("edges", .arr (children.map (edge paging))),
      ("pageInfo", pageInfo paging children) ]

/-- A list of related objects, by its paging. -/
def ofPaging : Option Paging → List Finished → Json
  | none, children => .arr (children.map fun child => .obj child.output)
  | some paging, children => page paging children

end Connection

end ObjectGraph
