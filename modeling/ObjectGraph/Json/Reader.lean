import ObjectGraph.Json.Basic

/-! # Reading JSON

A strict reader: blanks are the four of the format, strings hold no raw control character and no
lone surrogate, nothing follows the value, and values nest no deeper than a limit (`maxNesting`).
Of two members with one key the last value and the first place count.

An integer literal of the range of a signed or unsigned 64-bit word is an integer, except `-0`;
every other literal is a double.  Its digits are taken into a word as long as they fit; digits
before the point that no longer fit raise the power of ten, those after it are dropped. -/

namespace ObjectGraph

namespace Json

/-- How deep arrays and objects may nest. -/
def maxNesting : Nat := 127

/-- The blanks of the format. -/
def isBlank (c : Char) : Bool := c == ' ' || c == '\n' || c == '\t' || c == '\r'

/-- Drop leading blanks. -/
def skipBlanks (text : List Char) : List Char := text.dropWhile isBlank

/-! ### Numbers -/

/-- The value of a decimal digit. -/
def decimal? (c : Char) : Option Nat :=
  if '0' ≤ c ∧ c ≤ '9' then some (c.toNat - '0'.toNat) else none

/-- Digits taken into a 64-bit word, with the number of places that were dropped or taken. -/
structure Word where
  value : Nat
  places : Nat

/-- Whether another digit still fits. -/
def Word.fits (w : Word) (d : Nat) : Bool := w.value * 10 + d < 2 ^ 64

/-- Split leading decimal digits off. -/
def spanDigits (text : List Char) : List Nat × List Char :=
  ((text.takeWhile fun c => (decimal? c).isSome).filterMap decimal?,
    text.dropWhile fun c => (decimal? c).isSome)

/-- Take the digits of an integer part; `places` counts those that no longer fit. -/
def takeInteger (w : Word) : List Nat → Word
  | [] => w
  | d :: rest =>
    if w.places = 0 ∧ w.fits d then takeInteger ⟨w.value * 10 + d, 0⟩ rest
    else takeInteger ⟨w.value, w.places + 1⟩ rest

/-- Take the digits of a fraction up to the first one that does not fit; `places` counts those
that were taken. -/
def takeFraction (w : Word) : List Nat → Word
  | [] => w
  | d :: rest =>
    if w.fits d then takeFraction ⟨w.value * 10 + d, w.places + 1⟩ rest else w

/-- The exponent part; `none` where no digit follows the mark. -/
def readExponent (text : List Char) : Option (Int × List Char) :=
  match text with
  | mark :: rest =>
    if mark = 'e' ∨ mark = 'E' then
      let (negative, digits) := match rest with
        | '-' :: r => (true, r)
        | '+' :: r => (false, r)
        | r => (false, r)
      match spanDigits digits with
      | ([], _) => none
      | (ds, r) =>
        let n : Nat := ds.foldl (fun n d => n * 10 + d) 0
        some (if negative then -(n : Int) else n, r)
    else some (0, text)
  | [] => some (0, [])

/-- A number without its sign. -/
def readMagnitude (negative : Bool) (text : List Char) : Option (Number × List Char) := do
  let (digits, rest) := spanDigits text
  let leadingZero := match digits with
    | 0 :: _ :: _ => true
    | _ => false
  if digits.isEmpty || leadingZero then none
  else
    let word := takeInteger ⟨0, 0⟩ digits
    let float (value : Nat) (exponent : Int) (rest : List Char) : Option (Number × List Char) := do
      let x ← Binary64.ofScaled negative value exponent
      pure (.float x, rest)
    match rest with
    | '.' :: fraction =>
      let (decimals, rest) := spanDigits fraction
      if decimals.isEmpty then none
      else
        let taken := takeFraction ⟨word.value, 0⟩ decimals
        let (exponent, rest) ← readExponent rest
        float taken.value ((word.places : Int) - taken.places + exponent) rest
    | _ =>
      let (exponent, rest') ← readExponent rest
      if rest'.length < rest.length then float word.value ((word.places : Int) + exponent) rest'
      else if word.places ≠ 0 then float word.value word.places rest
      else if !negative then pure (.int word.value, rest)
      else if word.value = 0 ∨ 2 ^ 63 < word.value then float word.value 0 rest
      else pure (.int (-word.value), rest)

/-- A number at the front of a text. -/
def readNumber (text : List Char) : Option (Number × List Char) :=
  match text with
  | '-' :: rest => readMagnitude true rest
  | _ => readMagnitude false text

/-! ### Strings -/

/-- The value of a hexadecimal digit of either case. -/
def hexValue? (c : Char) : Option Nat :=
  if '0' ≤ c ∧ c ≤ '9' then some (c.toNat - 48)
  else if 'a' ≤ c ∧ c ≤ 'f' then some (c.toNat - 87)
  else if 'A' ≤ c ∧ c ≤ 'F' then some (c.toNat - 55)
  else none

/-- Four hexadecimal digits. -/
def readHex4 : List Char → Option (Nat × List Char)
  | a :: b :: c :: d :: rest => do
    let w ← hexValue? a
    let x ← hexValue? b
    let y ← hexValue? c
    let z ← hexValue? d
    some (((w * 16 + x) * 16 + y) * 16 + z, rest)
  | _ => none

/-- The character after `\u`: one unit, or two that form a surrogate pair. -/
def readUnicode (text : List Char) : Option (Char × List Char) := do
  let (unit, rest) ← readHex4 text
  if unit < 0xd800 ∨ 0xe000 ≤ unit then some (Char.ofNat unit, rest)
  else if 0xdc00 ≤ unit then none
  else
    match rest with
    | '\\' :: 'u' :: rest => do
      let (low, rest) ← readHex4 rest
      if 0xdc00 ≤ low ∧ low < 0xe000 then
        some (Char.ofNat (0x10000 + (unit - 0xd800) * 0x400 + (low - 0xdc00)), rest)
      else none
    | _ => none

/-- The characters an escape letter stands for. -/
def escaped? (c : Char) : Option Char :=
  if c = '"' ∨ c = '\\' ∨ c = '/' then some c
  else if c = 'b' then some (Char.ofNat 8)
  else if c = 'f' then some (Char.ofNat 12)
  else if c = 'n' then some '\n'
  else if c = 'r' then some '\r'
  else if c = 't' then some '\t'
  else none

/-- The rest of a string after its opening quote. -/
def readString : (fuel : Nat) → List Char → Option (List Char × List Char)
  | 0, _ => none
  | _ + 1, [] => none
  | fuel + 1, c :: rest =>
    if c = '"' then some ([], rest)
    else if c = '\\' then
      match rest with
      | [] => none
      | 'u' :: rest => do
        let (c, rest) ← readUnicode rest
        let (text, rest) ← readString fuel rest
        some (c :: text, rest)
      | e :: rest => do
        let c ← escaped? e
        let (text, rest) ← readString fuel rest
        some (c :: text, rest)
    else if c.toNat < 32 then none
    else do
      let (text, rest) ← readString fuel rest
      some (c :: text, rest)

/-! ### Values -/

/-- Drop a literal word from the front. -/
def dropWord (word : String) (text : List Char) : Option (List Char) :=
  if word.toList.isPrefixOf text then some (text.drop word.length) else none

mutual

/-- A value after blanks, with at most `depth` more levels of nesting. -/
def readValue : (fuel depth : Nat) → List Char → Option (Json × List Char)
  | 0, _, _ => none
  | fuel + 1, depth, text =>
    match skipBlanks text with
    | [] => none
    | '"' :: rest => do
      let (s, rest) ← readString (rest.length + 1) rest
      some (.str (String.ofList s), rest)
    | '[' :: rest =>
      if depth = 0 then none
      else
        match skipBlanks rest with
        | ']' :: rest => some (.arr [], rest)
        | rest => do
          let (items, rest) ← readItems fuel (depth - 1) rest
          some (.arr items, rest)
    | '\x7b' :: rest =>
      if depth = 0 then none
      else
        match skipBlanks rest with
        | '\x7d' :: rest => some (.obj [], rest)
        | rest => do
          let (members, rest) ← readMembers fuel (depth - 1) rest
          some (.obj (Dictionary.ofList members), rest)
    | 'n' :: rest => (dropWord "ull" rest).map fun rest => (.null, rest)
    | 't' :: rest => (dropWord "rue" rest).map fun rest => (.bool true, rest)
    | 'f' :: rest => (dropWord "alse" rest).map fun rest => (.bool false, rest)
    | rest => (readNumber rest).map fun (n, rest) => (.num n, rest)

/-- The items of an array that is not empty, up to its closing bracket. -/
def readItems : (fuel depth : Nat) → List Char → Option (List Json × List Char)
  | 0, _, _ => none
  | fuel + 1, depth, text => do
    let (item, rest) ← readValue fuel depth text
    match skipBlanks rest with
    | ',' :: rest => do
      let (items, rest) ← readItems fuel depth rest
      some (item :: items, rest)
    | ']' :: rest => some ([item], rest)
    | _ => none

/-- The members of an object that is not empty, up to its closing brace. -/
def readMembers : (fuel depth : Nat) → List Char → Option (List (String × Json) × List Char)
  | 0, _, _ => none
  | fuel + 1, depth, text =>
    match skipBlanks text with
    | '"' :: rest => do
      let (key, rest) ← readString (rest.length + 1) rest
      match skipBlanks rest with
      | ':' :: rest => do
        let (value, rest) ← readValue fuel depth rest
        match skipBlanks rest with
        | ',' :: rest => do
          let (members, rest) ← readMembers fuel depth rest
          some ((String.ofList key, value) :: members, rest)
        | '\x7d' :: rest => some ([(String.ofList key, value)], rest)
        | _ => none
      | _ => none
    | _ => none

end

/-- The value of a text.  Every level of reading takes a character, so the fuel suffices. -/
def parse? (text : String) : Option Json := do
  let chars := text.toList
  let (value, rest) ← readValue (2 * chars.length + 2) maxNesting chars
  if (skipBlanks rest).isEmpty then some value else none

end Json

end ObjectGraph
