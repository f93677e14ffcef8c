/-!
# Splitting at a character

`splitAt` cuts a text at every occurrence of a character. A text without it is one part, and parts
may be empty.
-/

namespace SchemaCatalog

/-- The parts of a text between occurrences of a character. -/
def splitAt (sep : Char) (text : List Char) : List (List Char) :=
  text.foldr (fun c parts =>
    if c = sep then [] :: parts
    else
      match parts with
      | [] => [[c]]
      | part :: parts => (c :: part) :: parts) [[]]

end SchemaCatalog
