/-! # Substitution in text

`Text.replace` puts a replacement in the place of every occurrence of a pattern, from left to
right and without overlap; the replacement is not searched again.  `Text.fill` does so for a list
of named holes, one after the other, so that a later hole is also found in what an earlier one
brought in. -/

namespace ObjectGraph

namespace Text

/-- Replace the occurrences of a non-empty pattern, passing over the first `skip` characters. -/
def replaceFrom (pattern replacement : List Char) : (skip : Nat) → List Char → List Char
  | _, [] => []
  | skip + 1, _ :: rest => replaceFrom pattern replacement skip rest
  | 0, c :: rest =>
    if pattern.isPrefixOf (c :: rest) then
      replacement ++ replaceFrom pattern replacement (pattern.length - 1) rest
    else c :: replaceFrom pattern replacement 0 rest

/-- Replace every occurrence of a non-empty pattern. -/
def replace (text pattern replacement : String) : String :=
  String.ofList (replaceFrom pattern.toList replacement.toList 0 text.toList)

/-- Texts to put in the place of named holes, in the order in which they are filled. -/
abbrev Holes := List (String × String)

/-- Fill the holes of a text one after the other. -/
def fill (holes : Holes) (text : String) : String :=
  holes.foldl (fun text hole => replace text hole.1 hole.2) text

end Text

end ObjectGraph
