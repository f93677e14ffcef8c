import SchemaCatalog.Domain.Composition
import SchemaCatalog.Domain.Direction
import SchemaCatalog.Domain.Joiner
import SchemaCatalog.Domain.Punycode

/-!
# Domain names

A domain name is a list of labels with full stops between them. `Domain.toAscii?` gives it the one
form in which it is compared and looked up: its characters treated, composed where they can be,
and every label with characters beyond ASCII written in Punycode behind a mark. A label that
carries the mark already must be what that writing makes of some label in normal form.

A name has no such form if it has a character that is refused, a label that begins with a mark or
has a joiner where it makes no difference, or labels of mixed direction. Which ASCII characters a
name may have is left to those who use it.
-/

namespace SchemaCatalog.Domain

/-- What a label in Punycode begins with. -/
def mark : List Char := "xn--".toList

/-- The most characters a label in Punycode may have behind its mark. -/
def mostEncoded : Nat := 2000

/-- The most characters a label may have that is to be written in Punycode. -/
def mostDecoded : Nat := 1000

/-- Whether a label begins with no mark and all its joiners may stand there. -/
def isWellFormed (label : List Char) : Bool := !label.head?.any isMark && keepsJoiners label

/-- Whether a label is as treating and composing would make it. -/
def isNormal (label : List Char) : Bool :=
  label.all (treatment · == .kept) && compose label == label

/-- The label that one in Punycode stands for, the mark left out. -/
def decodeLabel? (text : List Char) : Option (List Char) := do
  if text.getLastD '-' = '-' ∨ mostEncoded < text.length then none
  else
    let label ← Punycode.decode? text
    if isNormal label && isWellFormed label && !mark.isPrefixOf label then some label else none

/-- The label that a composed text stands for. -/
def readLabel? (text : List Char) : Option (List Char) :=
  if text.all isAscii then
    if mark.isPrefixOf text then decodeLabel? (text.drop mark.length) else some text
  else if isWellFormed text && !mark.isPrefixOf text && text.length ≤ mostDecoded then some text
  else none

/-- A label as it is written in ASCII. -/
def writeLabel (label : List Char) : List Char :=
  if label.all isAscii then label else mark ++ Punycode.encode label

/-- A name with its characters treated and composed. -/
def prepare? (name : List Char) : Option (List Char) :=
  if name.all isAscii then mapText? name else compose <$> mapText? name

/-- A domain name in ASCII. -/
def toAscii? (name : List Char) : Option (List Char) := do
  let labels ← (splitAt '.' (← prepare? name)).mapM readLabel?
  if labels.any (·.any isRightToLeft) && !labels.all keepsDirection then none
  else some (List.intercalate ['.'] (labels.map writeLabel))

end SchemaCatalog.Domain
