import ObjectGraph.Json.Basic

/-! # JSON text

The compact form: no blanks, members in order, and only the escapes that are needed.  Quote,
backslash and the control characters below U+0020 are escaped, the usual ones by a letter and the
others by four lower-case hexadecimal digits; everything else stands for itself. -/

namespace ObjectGraph

namespace Json

/-- A hexadecimal digit. -/
def hexDigit (n : Nat) : Char := if n < 10 then Char.ofNat (n + 48) else Char.ofNat (n + 87)

/-- A character inside a string. -/
def escape (c : Char) : List Char :=
  if c = '"' then ['\\', '"']
  else if c = '\\' then ['\\', '\\']
  else if c.toNat = 8 then ['\\', 'b']
  else if c.toNat = 12 then ['\\', 'f']
  else if c = '\n' then ['\\', 'n']
  else if c = '\r' then ['\\', 'r']
  else if c = '\t' then ['\\', 't']
  else if c.toNat < 32 then ['\\', 'u', '0', '0', hexDigit (c.toNat / 16), hexDigit (c.toNat % 16)]
  else [c]

/-- A string with its quotes. -/
def quote (text : String) : String :=
  String.ofList ('"' :: (text.toList.flatMap escape ++ ['"']))

end Json

/-- The text of a number. -/
def Number.text : Number → String
  | .int n => toString n
  | .float x => x.text

namespace Json

mutual

/-- The compact text of a value. -/
def render : Json → String
  | .null => "null"
  | .bool true => "true"
  | .bool false => "false"
  | .num n => n.text
  | .str text => quote text
  | .arr [] => "[]"
  | .arr (x :: xs) => "[" ++ render x ++ renderItems xs
  | .obj [] => "\x7b\x7d"
  | .obj ((key, x) :: xs) => "\x7b" ++ quote key ++ ":" ++ render x ++ renderMembers xs

/-- The items after the first one, up to the closing bracket. -/
def renderItems : List Json → String
  | [] => "]"
  | x :: xs => "," ++ render x ++ renderItems xs

/-- The members after the first one, up to the closing brace. -/
def renderMembers : List (String × Json) → String
  | [] => "\x7d"
  | (key, x) :: xs => "," ++ quote key ++ ":" ++ render x ++ renderMembers xs

end

end Json

end ObjectGraph
