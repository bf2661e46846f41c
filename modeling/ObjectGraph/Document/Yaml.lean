import ObjectGraph.Document.Yaml.Token

/-! # Documents in YAML

A text is one document or, if there is nothing in it, the empty scalar.  It is read in the ordinary
part of the notation: block and flow mappings and sequences, plain and quoted scalars, comments.

A reader takes tokens and gives what it read with the tokens that follow.  A node that is left out
is the empty scalar (`Yaml.empty`); each place where one may be left out knows the tokens that show
it (`nodeUnless`). -/

namespace ObjectGraph

namespace Yaml

/-- The scalar of nothing. -/
def empty : Document := .scalar (.bare [])

/-- The text of a key; only scalars have one. -/
def keyText? : Document → Option String
  | .scalar s => s.text
  | _ => none

/-- What follows the comma that goes before each part of a flow collection but the first. -/
def afterComma (first : Bool) (ts : List Token) : Option (List Token) :=
  if first then some ts
  else
    match ts with
    | .flowEntry :: rest => some rest
    | _ => none

mutual

/-- A node.  Block collections stand where `inBlock` says so; `bareDashes` says whether dashes may
begin a sequence that is no block of its own. -/
def node (inBlock bareDashes : Bool) : (fuel : Nat) → List Token → Option (Document × List Token)
  | 0, _ => none
  | fuel + 1, ts =>
    match ts with
    | .plain text :: rest => some (.scalar (.bare text.toList), rest)
    | .quoted text :: rest => some (.scalar (.quoted text), rest)
    | .flowSequenceStart :: rest => do
      let (items, rest) ← flowItems true fuel rest
      some (.list false items, rest)
    | .flowMappingStart :: rest => do
      let (entries, rest) ← flowEntries true fuel rest
      some (.record entries, rest)
    | .blockEntry :: _ =>
      if bareDashes then do
        let (items, rest) ← bareItems fuel ts
        some (.list false items, rest)
      else none
    | .blockSequenceStart :: rest =>
      if inBlock then do
        let (items, rest) ← blockItems fuel rest
        some (.list false items, rest)
      else none
    | .blockMappingStart :: rest =>
      if inBlock then do
        let (entries, rest) ← blockEntries fuel rest
        some (.record entries, rest)
      else none
    | _ => none

/-- A node, or nothing where one of the given tokens comes. -/
def nodeUnless (ends : List Token) (inBlock bareDashes : Bool) :
    (fuel : Nat) → List Token → Option (Document × List Token)
  | 0, _ => none
  | fuel + 1, ts =>
    if ts.head?.any ends.contains then some (empty, ts) else node inBlock bareDashes fuel ts

/-- The items of a block sequence up to its end. -/
def blockItems : (fuel : Nat) → List Token → Option (List Document × List Token)
  | 0, _ => none
  | fuel + 1, ts =>
    match ts with
    | .blockEntry :: rest => do
      let (item, rest) ← nodeUnless [.blockEntry, .blockEnd] true false fuel rest
      let (items, rest) ← blockItems fuel rest
      some (item :: items, rest)
    | .blockEnd :: rest => some ([], rest)
    | _ => none

/-- The items of a sequence whose dashes stand at the column of the mapping around it. -/
def bareItems : (fuel : Nat) → List Token → Option (List Document × List Token)
  | 0, _ => none
  | fuel + 1, ts =>
    match ts with
    | .blockEntry :: rest => do
      let (item, rest) ← nodeUnless [.blockEntry, .key, .value, .blockEnd] true false fuel rest
      let (items, rest) ← bareItems fuel rest
      some (item :: items, rest)
    | _ => some ([], ts)

/-- The entries of a block mapping up to its end. -/
def blockEntries : (fuel : Nat) → List Token →
    Option (List (Option String × Document) × List Token)
  | 0, _ => none
  | fuel + 1, ts =>
    match ts with
    | .key :: rest => do
      let (key, rest) ← nodeUnless [.key, .value, .blockEnd] true true fuel rest
      let (value, rest) ←
        match rest with
        | .value :: rest => nodeUnless [.key, .value, .blockEnd] true true fuel rest
        | _ => some (empty, rest)
      let (entries, rest) ← blockEntries fuel rest
      some ((keyText? key, value) :: entries, rest)
    | .blockEnd :: rest => some ([], rest)
    | _ => none

/-- The items of a flow sequence up to its end; a comma may stand before the end.  An entry without
braces is an item, a mapping of its own. -/
def flowItems (first : Bool) : (fuel : Nat) → List Token → Option (List Document × List Token)
  | 0, _ => none
  | fuel + 1, ts =>
    match ts with
    | .flowSequenceEnd :: rest => some ([], rest)
    | _ => do
      let ts ← afterComma first ts
      match ts with
      | .flowSequenceEnd :: rest => some ([], rest)
      | .key :: rest => do
        let (item, rest) ← singleEntry fuel rest
        let (items, rest) ← flowItems false fuel rest
        some (item :: items, rest)
      | _ => do
        let (item, rest) ← node false false fuel ts
        let (items, rest) ← flowItems false fuel rest
        some (item :: items, rest)

/-- An entry without braces as an item of a flow sequence.  Where its key is left out, the token
that shows it is passed over, too. -/
def singleEntry : (fuel : Nat) → List Token → Option (Document × List Token)
  | 0, _ => none
  | fuel + 1, ts => do
    let (key, rest) ←
      if ts.head?.any [Token.value, .flowEntry, .flowSequenceEnd].contains then
        some (empty, ts.drop 1)
      else node false false fuel ts
    let (value, rest) ←
      match rest with
      | .value :: rest => nodeUnless [.flowEntry, .flowSequenceEnd] false false fuel rest
      | _ => some (empty, rest)
    some (.record [(keyText? key, value)], rest)

/-- The entries of a flow mapping up to its end; a key without a colon has no value. -/
def flowEntries (first : Bool) : (fuel : Nat) → List Token →
    Option (List (Option String × Document) × List Token)
  | 0, _ => none
  | fuel + 1, ts =>
    match ts with
    | .flowMappingEnd :: rest => some ([], rest)
    | _ => do
      let ts ← afterComma first ts
      match ts with
      | .flowMappingEnd :: rest => some ([], rest)
      | .key :: rest => do
        let (key, rest) ← nodeUnless [.value, .flowEntry, .flowMappingEnd] false false fuel rest
        let (value, rest) ←
          match rest with
          | .value :: rest => nodeUnless [.flowEntry, .flowMappingEnd] false false fuel rest
          | _ => some (empty, rest)
        let (entries, rest) ← flowEntries false fuel rest
        some ((keyText? key, value) :: entries, rest)
      | _ => do
        let (key, rest) ← node false false fuel ts
        let (entries, rest) ← flowEntries false fuel rest
        some ((keyText? key, empty) :: entries, rest)

end

/-- The document of the tokens of a text.  Nothing but marks of its end may follow it.  Every level
of reading takes a token or passes to another kind of node, so the fuel suffices. -/
def ofTokens? (ts : List Token) : Option Document := do
  let fuel := 3 * ts.length + 3
  let (d, rest) ←
    match ts with
    | [] => some (empty, [])
    | .documentStart :: rest =>
      if rest.head?.all [Token.documentStart, .documentEnd].contains then some (empty, rest)
      else node true false fuel rest
    | _ => node true false fuel ts
  if rest.all (· == .documentEnd) then some d else none

/-- The document of a text. -/
def parse? (text : String) : Option Document := do
  if !text.toList.all isAllowed then none
  ofTokens? (← Token.ofMarks? (marks text.toList))

end Yaml

end ObjectGraph
