import ObjectGraph.Json.Basic

/-! # Callers

Who makes a request.  A caller is passed through planning and assembly and kept nowhere. -/

namespace ObjectGraph

/-- The caller of a request. -/
structure Caller where
  /-- The identity of the caller, absent when not logged in. -/
  user : Option String := none
  premium : Bool := false
  /-- Named values that schema scripts may ask for. -/
  flags : Dictionary Json := []
deriving Repr, Inhabited

namespace Caller

/-- Whether the caller is logged in. -/
def isLoggedIn (c : Caller) : Bool := c.user.isSome

/-- The identity as a parameter value, `null` for an anonymous caller. -/
def userParam (c : Caller) : Json := Json.ofOption .str c.user

/-- The value of a flag. -/
def flag? (c : Caller) (name : String) : Option Json := c.flags.get? name

end Caller

end ObjectGraph
