/-! # Placeholders in SQL text

A text is scanned from left to right into tokens: quoted literals and identifiers, `::` casts,
placeholders `:name` and list placeholders `:...name`, and single characters for all the rest.
Nothing inside quotes is a placeholder.

A quoted token goes on over doubled quotes.  Where its last quote is missing, it ends with the
first quote of its last doubled pair; where there is none, the opening quote stands for itself.
`Token.text_scan` says that nothing of the text is lost. -/

namespace ObjectGraph

namespace Sql

/-- A piece of SQL text. -/
inductive Token
  | char (c : Char)
  | quoted (text : List Char)
  | cast
  | placeholder (list : Bool) (name : List Char)
deriving DecidableEq, Repr

namespace Token

/-- The text of a token. -/
def text : Token → List Char
  | char c => [c]
  | quoted text => text
  | cast => [':', ':']
  | placeholder false name => ':' :: name
  | placeholder true name => ':' :: '.' :: '.' :: '.' :: name

/-- Whether a character may begin a name. -/
def isNameStart (c : Char) : Bool := c.isAlpha || c = '_'

/-- Whether a character may go on a name. -/
def isNameChar (c : Char) : Bool := c.isAlphanum || c = '_'

/-- The rest of a quoted token after its opening quote, and what follows it. -/
def closing (quote : Char) : List Char → Option (List Char × List Char)
  | [] => none
  | [c] => if c = quote then some ([c], []) else none
  | c :: d :: rest =>
    if c = quote then
      if d = quote then
        match closing quote rest with
        | some (body, rest) => some (c :: d :: body, rest)
        | none => some ([c], d :: rest)
      else some ([c], d :: rest)
    else (closing quote (d :: rest)).map fun r => (c :: r.1, r.2)

theorem append_of_closing (quote : Char) (s body rest : List Char)
    (h : closing quote s = some (body, rest)) : body ++ rest = s := by
  fun_induction closing quote s generalizing body rest with
  | case1 => cases h
  | case2 => cases h; rfl
  | case3 => cases h
  | case4 r b r' hb ih => cases h; simp [ih b r' hb]
  | case5 => cases h; rfl
  | case6 => cases h; rfl
  | case7 c d r _ ih =>
    obtain ⟨⟨b, r'⟩, hb, he⟩ := Option.map_eq_some_iff.1 h
    cases he
    simp [ih b r' hb]

/-- A name at the front of a text. -/
def name? (s : List Char) : Option (List Char × List Char) :=
  match s with
  | c :: _ =>
    if isNameStart c then some (s.takeWhile isNameChar, s.dropWhile isNameChar) else none
  | [] => none

theorem append_of_name? {s name rest : List Char} (h : name? s = some (name, rest)) :
    name ++ rest = s := by
  unfold name? at h
  split at h
  · split at h
    · cases h; exact List.takeWhile_append_dropWhile
    · cases h
  · cases h

/-- The token at the front of a non-empty text, and what follows it. -/
def next (c : Char) (rest : List Char) : Token × List Char :=
  if c = '\'' ∨ c = '"' then
    match closing c rest with
    | some (body, rest) => (quoted (c :: body), rest)
    | none => (char c, rest)
  else if c = ':' then
    match rest with
    | ':' :: rest => (cast, rest)
    | '.' :: '.' :: '.' :: named =>
      match name? named with
      | some (name, rest) => (placeholder true name, rest)
      | none => (char c, rest)
    | _ =>
      match name? rest with
      | some (name, rest) => (placeholder false name, rest)
      | none => (char c, rest)
  else (char c, rest)

theorem text_next (c : Char) (rest : List Char) :
    (next c rest).1.text ++ (next c rest).2 = c :: rest := by
  unfold next
  split
  · split
    · next body r h => simp [text, append_of_closing c rest body r h]
    · rfl
  · split
    · next hc =>
      subst hc
      split
      · rfl
      · split
        · next name r h => simp [text, append_of_name? h]
        · rfl
      · split
        · next name r h => simp [text, append_of_name? h]
        · rfl
    · rfl

theorem length_next_lt (c : Char) (rest : List Char) :
    (next c rest).2.length < (c :: rest).length := by
  have h := congrArg List.length (text_next c rest)
  have ht : 0 < (next c rest).1.text.length := by
    unfold next
    repeat' split
    all_goals simp [text]
  simp only [List.length_append, List.length_cons] at h ⊢
  omega

/-- The tokens of a text. -/
def scan : List Char → List Token
  | [] => []
  | c :: rest => (next c rest).1 :: scan (next c rest).2
termination_by s => s.length
decreasing_by exact length_next_lt c rest

/-- The tokens of a text make up the text. -/
theorem text_scan (s : List Char) : (scan s).flatMap text = s := by
  fun_induction scan s with
  | case1 => rfl
  | case2 c rest ih => simp [ih, text_next]

/-- The name that a placeholder asks for. -/
def name : Token → Option String
  | placeholder _ name => some (String.ofList name)
  | _ => none

end Token

/-- The names of the placeholders of a text, in order. -/
def placeholderNames (sql : String) : List String := (Token.scan sql.toList).filterMap Token.name

end Sql

end ObjectGraph
