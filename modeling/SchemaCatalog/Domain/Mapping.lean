import SchemaCatalog.Domain.MappingTable

/-!
# The characters of a domain name

A domain name is the same in capital and in small letters, in wide and in narrow ones. So before
anything else each of its characters is left out, put in the place of others or refused, and
most are kept; `treatment` tells which, and `mapText?` does it to a text. Texts in ASCII only lose
their capital letters, and the tables are not asked about them.
-/

namespace SchemaCatalog.Domain

/-- Whether a character belongs to ASCII. -/
def isAscii (c : Char) : Bool := c.toNat < 0x80

/-- What becomes of a character. -/
inductive Treatment where
  /-- It stands for itself. -/
  | kept
  /-- It is left out. -/
  | dropped
  /-- It cannot stand in a domain name. -/
  | refused
  /-- It is written with other characters. -/
  | mapped (cs : List Char)
  deriving DecidableEq, Repr

/-- What becomes of a character of a domain name. -/
def treatment (c : Char) : Treatment :=
  if isAscii c then if c.isUpper then .mapped [c.toLower] else .kept
  else
    match Table.goesTo? mappedTable c with
    | some cs => .mapped cs
    | none =>
      if Table.covers droppedTable c then .dropped
      else if Table.covers refusedTable c then .refused
      else .kept

/-- A text with its characters treated, if none is refused. -/
def mapText? (text : List Char) : Option (List Char) := do
  let parts ← text.mapM fun c =>
    match treatment c with
    | .kept => some [c]
    | .dropped => some []
    | .refused => none
    | .mapped cs => some cs
  return parts.flatten

end SchemaCatalog.Domain
