/-! # Characters of a YAML text with their places

In YAML the place of a character carries structure: its column says which block it belongs to, and
its line and its distance in bytes say what may still be a key.  `Yaml.marks` gives every
character its place.

There are five line breaks.  Carriage return, line feed, both together and the character U+0085
all become `\n`; U+2028 and U+2029 break lines too, but stay what they are. -/

namespace ObjectGraph

namespace Yaml

/-- A character with its place. -/
structure Mark where
  char : Char
  /-- How many bytes of the text, in UTF-8, come before. -/
  index : Nat
  line : Nat
  column : Nat
deriving DecidableEq, Repr

/-- Give the characters of a text their places, from a place on. -/
def marksFrom (index line column : Nat) : List Char → List Mark
  | [] => []
  | '\r' :: '\n' :: rest => ⟨'\n', index, line, column⟩ :: marksFrom (index + 2) (line + 1) 0 rest
  | c :: rest =>
    if c = '\n' ∨ c = '\r' ∨ c = '\x85' then
      ⟨'\n', index, line, column⟩ :: marksFrom (index + c.utf8Size) (line + 1) 0 rest
    else if c = '\u2028' ∨ c = '\u2029' then
      ⟨c, index, line, column⟩ :: marksFrom (index + c.utf8Size) (line + 1) 0 rest
    else ⟨c, index, line, column⟩ :: marksFrom (index + c.utf8Size) line (column + 1) rest

/-- The characters of a text with their places. -/
def marks (text : List Char) : List Mark := marksFrom 0 0 0 text

/-- The mark of the encoding, which may begin a line. -/
def encodingMark : Char := '\ufeff'

/-- Whether a character may be in a text: no control characters but tabs and line breaks. -/
def isAllowed (c : Char) : Bool :=
  c == '\t' || c == '\n' || c == '\r' || (' ' ≤ c && c ≤ '~') || c == '\x85' ||
    ('\xa0' ≤ c && c != '\ufffe' && c != '\uffff')

/-- Whether a character is a blank within a line. -/
def isBlank (c : Char) : Bool := c == ' ' || c == '\t'

/-- Whether a character breaks the line. -/
def isBreak (c : Char) : Bool := c == '\n' || c == '\u2028' || c == '\u2029'

/-- Whether a character is white space. -/
def isSpace (c : Char) : Bool := isBlank c || isBreak c

/-- Whether a character separates or encloses the parts of flow collections. -/
def isFlowMark (c : Char) : Bool := c == ',' || c == '[' || c == ']' || c == '\x7b' || c == '\x7d'

/-- Whether white space or the end comes next. -/
def atSpace : List Mark → Bool
  | [] => true
  | m :: _ => isSpace m.char

/-- Whether a line begins here with `---` or `...` and nothing right behind it. -/
def atDocumentMark : List Mark → Bool
  | a :: b :: c :: rest =>
    a.column == 0 && (a.char == '-' || a.char == '.') && b.char == a.char && c.char == a.char &&
      atSpace rest
  | _ => false

end Yaml

end ObjectGraph
