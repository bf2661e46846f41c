import ObjectGraph.Document.Yaml.Written

/-! # Tokens of a YAML text

`Token.ofMarks?` splits a text into tokens.  Blocks, which are written by their columns, become
bracketed: a token begins a block where a line goes further in, and `blockEnd` closes it where a
line comes back.

That a scalar or a flow collection is the key of an entry shows only at the colon behind it.  So
the place where a key may have begun is kept as a `Candidate`, one for each level of flow
collections, and the tokens `key` and, where a mapping begins, `blockMappingStart` are put in at
that place when the colon comes.  A candidate is given up at the next line and after 1024
bytes.  It must not be given up where the place allows nothing but a key.

Anchors, tags, block scalars and directives are refused. -/

namespace ObjectGraph

namespace Yaml

/-- A part of a YAML text. -/
inductive Token
  /-- The mark `---`. -/
  | documentStart
  /-- The mark `...`. -/
  | documentEnd
  | blockSequenceStart
  | blockMappingStart
  | blockEnd
  /-- The dash before an item. -/
  | blockEntry
  | flowSequenceStart
  | flowSequenceEnd
  | flowMappingStart
  | flowMappingEnd
  /-- The comma behind a part of a flow collection. -/
  | flowEntry
  /-- A key follows. -/
  | key
  /-- A value follows. -/
  | value
  | plain (text : String)
  | quoted (text : String)
deriving DecidableEq, Repr

/-- A place where a key may have begun. -/
structure Candidate where
  /-- Whether nothing but a key may begin there. -/
  required : Bool
  /-- How many tokens come before. -/
  position : Nat
  mark : Mark
deriving DecidableEq, Repr

/-- Whether a candidate can no longer be a key once the text has gone on to a mark. -/
def Candidate.isStale (c : Candidate) (m : Mark) : Bool :=
  c.mark.line < m.line || c.mark.index + 1024 < m.index

/-- The tokens of the beginning of a text, with what is open at its end. -/
structure Outline where
  tokens : Array Token := #[]
  /-- The columns of the open blocks, the innermost first. -/
  columns : List Nat := []
  /-- Whether a key may begin at the next token. -/
  keyAllowed : Bool := true
  /-- The candidate of the innermost level. -/
  candidate : Option Candidate := none
  /-- The candidates of the levels outside each open flow collection, the innermost first. -/
  outer : List (Option Candidate) := []

namespace Outline

/-- Whether a flow collection is open. -/
def inFlow (o : Outline) : Bool := !o.outer.isEmpty

/-- Add a token; `keyAllowed` says whether a key may follow it. -/
def push (o : Outline) (keyAllowed : Bool) (token : Token) : Outline :=
  { o with tokens := o.tokens.push token, keyAllowed }

/-- The column that lines of the innermost block must reach. -/
def nextColumn (o : Outline) : Nat :=
  match o.columns with
  | [] => 0
  | column :: _ => column + 1

/-! ### Candidates -/

/-- Give up the candidate of the innermost level. -/
def dropCandidate (o : Outline) : Option Outline :=
  if o.candidate.any Candidate.required then none else some { o with candidate := none }

/-- Give up the candidates that are stale at a mark. -/
def dropStale (o : Outline) (m : Mark) : Option Outline :=
  let isStale (c : Candidate) : Bool := c.isStale m
  if (o.candidate :: o.outer).any fun c => c.any fun c => c.required && isStale c then none
  else some
    { o with
      candidate := o.candidate.filter fun c => !isStale c
      outer := o.outer.map fun c => c.filter fun c => !isStale c }

/-- Take the place of a mark as a candidate, if a key may begin there. -/
def noteCandidate (o : Outline) (m : Mark) : Option Outline :=
  if o.keyAllowed then
    let required := !o.inFlow && o.columns.head? == some m.column
    o.dropCandidate.map fun o => { o with candidate := some ⟨required, o.tokens.size, m⟩ }
  else some o

/-! ### Blocks -/

/-- Begin a block at a column, unless there is one already; its token goes to a position among the
tokens. -/
def openBlock (o : Outline) (column position : Nat) (token : Token) : Outline :=
  if !o.inFlow && o.columns.head?.all fun inner => inner < column then
    { o with
      tokens := o.tokens.insertIdxIfInBounds position token
      columns := column :: o.columns }
  else o

/-- Close the blocks right of a column. -/
def closeBlocks (o : Outline) (column : Int) : Outline :=
  if o.inFlow then o
  else
    let isRight (inner : Nat) : Bool := column < inner
    { o with
      tokens := o.tokens ++ (o.columns.takeWhile isRight).map fun _ => Token.blockEnd
      columns := o.columns.dropWhile isRight }

/-! ### Single tokens -/

/-- The mark of a document. -/
def documentMark (o : Outline) (token : Token) : Option Outline :=
  (o.closeBlocks (-1)).dropCandidate.map fun o => o.push false token

/-- The bracket that opens a flow collection. -/
def openFlow (o : Outline) (m : Mark) (token : Token) : Option Outline :=
  (o.noteCandidate m).map fun o =>
    { o with candidate := none, outer := o.candidate :: o.outer }.push true token

/-- The bracket that closes a flow collection. -/
def closeFlow (o : Outline) (token : Token) : Option Outline :=
  o.dropCandidate.map fun o =>
    match o.outer with
    | [] => o.push false token
    | candidate :: outer => { o with candidate, outer }.push false token

/-- The comma of a flow collection. -/
def flowEntry (o : Outline) : Option Outline :=
  o.dropCandidate.map fun o => o.push true .flowEntry

/-- The dash before an item. -/
def blockEntry (o : Outline) (m : Mark) : Option Outline :=
  if !o.inFlow && !o.keyAllowed then none
  else (o.openBlock m.column o.tokens.size .blockSequenceStart).dropCandidate.map fun o =>
    o.push true .blockEntry

/-- The question mark before a key. -/
def explicitKey (o : Outline) (m : Mark) : Option Outline :=
  if !o.inFlow && !o.keyAllowed then none
  else (o.openBlock m.column o.tokens.size .blockMappingStart).dropCandidate.map fun o =>
    o.push (!o.inFlow) .key

/-- The colon before a value: behind a candidate, which then is a key, or on its own. -/
def value (o : Outline) (m : Mark) : Option Outline :=
  match o.candidate with
  | some c =>
    let o := { o with tokens := o.tokens.insertIdxIfInBounds c.position .key, candidate := none }
    some ((o.openBlock c.mark.column c.position .blockMappingStart).push false .value)
  | none =>
    if !o.inFlow && !o.keyAllowed then none
    else some ((o.openBlock m.column o.tokens.size .blockMappingStart).push (!o.inFlow) .value)

/-- A quoted scalar, with the marks that follow. -/
def quoted (fuel : Nat) (o : Outline) (m : Mark) (quote : Quote) (rest : List Mark) :
    Option (Outline × List Mark) := do
  let o ← o.noteCandidate m
  let (text, rest) ← readQuoted quote fuel rest
  some (o.push false (.quoted (String.ofList text)), rest)

/-- A plain scalar, with the marks that follow; a key may begin behind its line breaks. -/
def plain (fuel : Nat) (o : Outline) (m : Mark) (rest : List Mark) :
    Option (Outline × List Mark) := do
  let o ← o.noteCandidate m
  let scalar ← readPlain o.inFlow o.nextColumn fuel (m :: rest)
  some (o.push scalar.broken (.plain (String.ofList scalar.text)), scalar.rest)

/-- The token that begins with a mark, with the marks that follow it. -/
def next (fuel : Nat) (o : Outline) (m : Mark) (rest : List Mark) :
    Option (Outline × List Mark) :=
  let followedBySpace := o.inFlow || atSpace rest
  if m.column = 0 ∧ m.char = '%' then none
  else if atDocumentMark (m :: rest) then
    (o.documentMark (if m.char = '-' then .documentStart else .documentEnd)).map (·, rest.drop 2)
  else if m.char = '[' then (o.openFlow m .flowSequenceStart).map (·, rest)
  else if m.char = '\x7b' then (o.openFlow m .flowMappingStart).map (·, rest)
  else if m.char = ']' then (o.closeFlow .flowSequenceEnd).map (·, rest)
  else if m.char = '\x7d' then (o.closeFlow .flowMappingEnd).map (·, rest)
  else if m.char = ',' then o.flowEntry.map (·, rest)
  else if m.char = '-' ∧ atSpace rest then (o.blockEntry m).map (·, rest)
  else if m.char = '?' ∧ followedBySpace then (o.explicitKey m).map (·, rest)
  else if m.char = ':' ∧ followedBySpace then (o.value m).map (·, rest)
  else if m.char = '\'' then o.quoted fuel m .single rest
  else if m.char = '"' then o.quoted fuel m .double rest
  else if startsPlain o.inFlow (m :: rest) then o.plain fuel m rest
  else none

end Outline

/-- Pass over blanks, line breaks and comments to the next token.  In a block a tab is no blank
where a key may begin, and a key may begin on every new line. -/
def toToken (inFlow keyAllowed inComment : Bool) : List Mark → Bool × List Mark
  | [] => (keyAllowed, [])
  | m :: rest =>
    if isBreak m.char then toToken inFlow (keyAllowed || !inFlow) false rest
    else if inComment || m.char == '#' then toToken inFlow keyAllowed true rest
    else if m.char == ' ' || (m.char == '\t' && (inFlow || !keyAllowed)) ||
        (m.char == encodingMark && m.column == 0) then toToken inFlow keyAllowed false rest
    else (keyAllowed, m :: rest)

namespace Token

/-- The tokens of the rest of a text. -/
def follow? : (fuel : Nat) → Outline → List Mark → Option (Array Token)
  | 0, _, _ => none
  | fuel + 1, o, ms =>
    let (keyAllowed, ms) := toToken o.inFlow o.keyAllowed false ms
    match ms with
    | [] => (o.closeBlocks (-1)).dropCandidate.map Outline.tokens
    | m :: rest => do
      let o ← { o with keyAllowed }.dropStale m
      let (o, rest) ← (o.closeBlocks m.column).next (fuel + 1) m rest
      follow? fuel o rest

/-- The tokens of a text.  Every one takes a mark, so the fuel suffices. -/
def ofMarks? (ms : List Mark) : Option (List Token) :=
  (follow? (ms.length + 1) {} ms).map Array.toList

end Token

end Yaml

end ObjectGraph
