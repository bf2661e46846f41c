import ObjectGraph.Document.PlainScalar
import ObjectGraph.Document.Yaml.Mark

/-! # Scalars as they are written in YAML

A scalar is written plain or in quotes, and it may run over several lines.  White space between two
of its words is kept where it is on one line.  Where it has line breaks, it counts for a blank if
there is one break, and for the breaks behind the first if there are more (`joined`); U+2028 and
U+2029 are never dropped.

Readers take the marks of a text and give what they read with the marks that follow.  Every level
of reading takes a mark, so fuel for more levels than there are marks suffices. -/

namespace ObjectGraph

namespace Yaml

/-! ### White space -/

/-- Split white space off. -/
def spanSpaces (ms : List Mark) : List Mark × List Mark :=
  (ms.takeWhile fun m => isSpace m.char, ms.dropWhile fun m => isSpace m.char)

/-- The line breaks of white space. -/
def breaks (spaces : List Mark) : List Char := (spaces.map Mark.char).filter isBreak

/-- What white space between two words counts for. -/
def joined (spaces : List Mark) : List Char :=
  match breaks spaces with
  | [] => spaces.map Mark.char
  | ['\n'] => [' ']
  | '\n' :: more => more
  | all => all

/-- Whether a tab behind a line break lies left of a column. -/
def hasTabBefore (column : Nat) (spaces : List Mark) : Bool :=
  (spaces.dropWhile fun m => !isBreak m.char).any fun m => m.char == '\t' && m.column < column

/-! ### Plain scalars -/

/-- Characters that no plain scalar begins with. -/
def reserved : List Char := ",[]\x7b\x7d#&*!|>'\"%@\x60".toList

/-- Whether a plain scalar begins here. -/
def startsPlain (inFlow : Bool) : List Mark → Bool
  | [] => false
  | m :: rest =>
    if m.char = '-' then !atSpace rest
    else if m.char = '?' ∨ m.char = ':' then !inFlow && !atSpace rest
    else !isSpace m.char && !reserved.contains m.char

/-- Whether a colon is no part of a word in a flow collection, though no space follows it. -/
def atStrayColon : List Mark → Bool
  | colon :: m :: _ => colon.char == ':' && (isFlowMark m.char || m.char == '?')
  | _ => false

/-- One word of a plain scalar: up to white space, up to a colon before white space, and in a flow
collection up to the end of the part. -/
def plainWord (inFlow : Bool) : List Mark → Option (List Char × List Mark)
  | [] => some ([], [])
  | m :: rest =>
    if inFlow && atStrayColon (m :: rest) then none
    else if isSpace m.char || (m.char == ':' && atSpace rest) || (inFlow && isFlowMark m.char) then
      some ([], m :: rest)
    else do
      let (word, rest) ← plainWord inFlow rest
      some (m.char :: word, rest)

/-- A plain scalar. -/
structure Plain where
  text : List Char
  /-- Whether line breaks behind the last word have been passed. -/
  broken : Bool
  rest : List Mark

/-- Read a plain scalar; outside flow collections its lines must not begin left of `column`, and
nowhere may a tab.  It also ends before a comment and before the mark of a document. -/
def readPlain (inFlow : Bool) (column : Nat) : (fuel : Nat) → List Mark → Option Plain
  | 0, _ => none
  | fuel + 1, ms =>
    if atDocumentMark ms || ms.head?.any fun m => m.char == '#' then some ⟨[], false, ms⟩
    else do
      let (word, rest) ← plainWord inFlow ms
      let (spaces, next) := spanSpaces rest
      if spaces.isEmpty then some ⟨word, false, rest⟩
      else if hasTabBefore column spaces then none
      else
        let broken := !(breaks spaces).isEmpty
        if !inFlow && next.head?.any fun m => m.column < column then some ⟨word, broken, next⟩
        else do
          let more ← readPlain inFlow column fuel next
          if more.text.isEmpty then some ⟨word, broken, more.rest⟩
          else some ⟨word ++ joined spaces ++ more.text, more.broken, more.rest⟩

/-! ### Quoted scalars -/

/-- A run of a quoted scalar up to white space or its end. -/
structure Run where
  text : List Char
  /-- Whether a backslash before a line break ends the run. -/
  escapedBreak : Bool
  rest : List Mark

/-- A run of a single-quoted scalar; a quote written twice stands for one. -/
def singleRun : List Mark → Run
  | [] => ⟨[], false, []⟩
  | m :: rest =>
    if isSpace m.char then ⟨[], false, m :: rest⟩
    else if m.char == '\'' then
      match rest with
      | [] => ⟨[], false, [m]⟩
      | n :: more =>
        if n.char == '\'' then
          let run := singleRun more
          { run with text := '\'' :: run.text }
        else ⟨[], false, m :: n :: more⟩
    else
      let run := singleRun rest
      { run with text := m.char :: run.text }

/-- The characters of one-letter escapes. -/
def letterEscapes : List (Char × Nat) :=
  [('0', 0), ('a', 7), ('b', 8), ('t', 9), ('\t', 9), ('n', 10), ('v', 11), ('f', 12), ('r', 13),
   ('e', 27), (' ', 32), ('"', 34), ('/', 47), ('\\', 92), ('N', 0x85), ('_', 0xa0),
   ('L', 0x2028), ('P', 0x2029)]

/-- How many hexadecimal digits follow the letter of an escape. -/
def hexEscapes : List (Char × Nat) := [('x', 2), ('u', 4), ('U', 8)]

/-- The character that hexadecimal digits denote. -/
def hexChar? (digits : List Char) : Option Char := do
  let n ← Scalar.digits? 16 digits
  if n < 0xd800 ∨ (0xe000 ≤ n ∧ n < 0x110000) then some (Char.ofNat n) else none

/-- The character of the escape with a letter, and how many characters follow the letter. -/
def escape? (letter : Char) (rest : List Mark) : Option (Char × Nat) :=
  match letterEscapes.lookup letter with
  | some n => some (Char.ofNat n, 0)
  | none => do
    let count ← hexEscapes.lookup letter
    let digits := (rest.take count).map Mark.char
    if digits.length = count then (hexChar? digits).map fun c => (c, count) else none

/-- A run of a double-quoted scalar. -/
def doubleRun : (fuel : Nat) → List Mark → Option Run
  | 0, _ => none
  | _ + 1, [] => some ⟨[], false, []⟩
  | fuel + 1, m :: rest =>
    if isSpace m.char || m.char == '"' then some ⟨[], false, m :: rest⟩
    else if m.char == '\\' then
      match rest with
      | [] => none
      | e :: rest =>
        if isBreak e.char then some ⟨[], true, rest⟩
        else do
          let (c, count) ← escape? e.char rest
          let run ← doubleRun fuel (rest.drop count)
          some { run with text := c :: run.text }
    else do
      let run ← doubleRun fuel rest
      some { run with text := m.char :: run.text }

/-- The kinds of quotes. -/
inductive Quote
  | single
  | double
deriving DecidableEq, Repr

/-- The character of a quote. -/
def Quote.char : Quote → Char
  | .single => '\''
  | .double => '"'

/-- A run of a quoted scalar. -/
def Quote.run? (fuel : Nat) : Quote → List Mark → Option Run
  | .single, ms => some (singleRun ms)
  | .double, ms => doubleRun fuel ms

/-- Read a quoted scalar after its opening quote.  No line of it may begin with the mark of a
document. -/
def readQuoted (quote : Quote) : (fuel : Nat) → List Mark → Option (List Char × List Mark)
  | 0, _ => none
  | fuel + 1, ms =>
    if ms.isEmpty || atDocumentMark ms then none
    else do
      let run ← quote.run? (fuel + 1) ms
      if run.rest.head?.any fun m => m.char == quote.char then some (run.text, run.rest.drop 1)
      else
        let (spaces, next) := spanSpaces run.rest
        let (more, rest) ← readQuoted quote fuel next
        some (run.text ++ (if run.escapedBreak then breaks spaces else joined spaces) ++ more, rest)

end Yaml

end ObjectGraph
