import SchemaCatalog.Address.Basic
import SchemaCatalog.Text.Percent

/-!
# Reading paths

A path is read segment by segment onto an `OpenPath`: the segments that a slash ends, and the text
behind the last slash, which the next segment continues. A segment of one dot stays where it is
and one of two dots goes up. Read onto `/a/b`, opened at its last segment, `../c` gives `/c`.

The path of a file may begin with a drive letter, and three rules keep it there.

* Going up never leaves a drive letter, wherever it stands in a path.
* At the front it is written with a colon, also where the text has a bar.
* With a colon it is a segment of its own: what a relative path says, or a text says behind a
  break, comes after a slash.
-/

namespace SchemaCatalog.Address

/-! ## Texts -/

/-- Whether a character counts for nothing inside a text. -/
def isLayout (c : Char) : Bool := c == '\t' || c == '\n' || c == '\r'

/-- A text without layout. -/
def withoutLayout (text : List Char) : List Char := text.filter fun c => !isLayout c

/-- Whether a character is a slash, as a backslash is under a special scheme. -/
def isSlash (special : Bool) (c : Char) : Bool := c == '/' || (special && c == '\\')

/-- Whether a character ends a path. -/
def endsPath (c : Char) : Bool := c == '?' || c == '#'

/-- The segments of a path, up to a question mark or a number sign, and what follows. -/
def splitPath (special : Bool) : List Char → List (List Char) × List Char
  | [] => ([[]], [])
  | c :: cs =>
    if endsPath c then ([[]], c :: cs)
    else
      match splitPath special cs with
      | ([], rest) => ([[c]], rest)
      | (part :: parts, rest) =>
        if isSlash special c then ([] :: part :: parts, rest) else ((c :: part) :: parts, rest)

/-- The dots a segment stands for, where each may be percent-encoded. -/
def dots? : List Char → Option Nat
  | [] => some 0
  | '.' :: cs => (dots? cs).map (· + 1)
  | '%' :: '2' :: 'e' :: cs => (dots? cs).map (· + 1)
  | '%' :: '2' :: 'E' :: cs => (dots? cs).map (· + 1)
  | _ => none

/-! ## Drive letters -/

/-- Whether a segment is a drive letter, written with a colon or a bar. -/
def isDriveLetter : List Char → Bool
  | [c, d] => c.isAlpha && (d == ':' || d == '|')
  | _ => false

/-- Whether a segment is a drive letter written with a colon. -/
def isNormalDriveLetter : List Char → Bool
  | [c, ':'] => c.isAlpha
  | _ => false

/-- Whether a text starts with a segment that is a drive letter. -/
def startsWithDrive (text : List Char) : Bool :=
  match withoutLayout text with
  | [c, d] => isDriveLetter [c, d]
  | c :: d :: e :: _ => isDriveLetter [c, d] && (isSlash true e || endsPath e)
  | _ => false

/-- The parts of a segment that is a drive letter with a colon, a break and more. -/
def splitAtBreak? : List Char → Option (List Char × List Char)
  | c :: ':' :: b :: text =>
    if c.isAlpha && isLayout b && !(withoutLayout text).isEmpty then
      some ([c, ':'], withoutLayout text)
    else none
  | _ => none

/-! ## Open paths -/

/-- A path as far as it is read. -/
structure OpenPath where
  /-- The segments that a slash ends, the last one first. -/
  closed : List String := []
  /-- The text behind the last slash. -/
  last : String := ""
  /-- Whether a drive letter was read at the front. -/
  hasDrive : Bool := false

namespace OpenPath

/-- The path of some segments, the last one still open. -/
def ofNames (names : List String) : OpenPath :=
  match names.reverse with
  | [] => {}
  | last :: closed => { closed, last }

/-- The segments of a path. -/
def names (p : OpenPath) : List String := (p.last :: p.closed).reverse

/-- Whether nothing is read behind the first slash. -/
def isRoot (p : OpenPath) : Bool := p.closed.isEmpty && p.last.isEmpty

/-- Whether a path is a drive letter alone, so that a slash must follow. -/
def isDrive (p : OpenPath) : Bool := p.closed.isEmpty && isNormalDriveLetter p.last.toList

/-- The path with a slash behind it. -/
def close (p : OpenPath) : OpenPath := { p with closed := p.last :: p.closed, last := "" }

/-- The path with a slash behind it if `slash` holds. -/
def closeIf (slash : Bool) (p : OpenPath) : OpenPath := if slash then p.close else p

/-- The path with more text behind it. -/
def append (p : OpenPath) (text : List Char) : OpenPath :=
  { p with last := p.last ++ String.ofList (Percent.encode Percent.path text) }

/-- The path without the text behind its last slash, which stays if it is a drive letter. -/
def dropLast (file : Bool) (p : OpenPath) : OpenPath :=
  if file && isNormalDriveLetter p.last.toList then p else { p with last := "" }

/-- The path one level up: without its last segment, the empty one behind a slash aside. -/
def up (file : Bool) (p : OpenPath) : OpenPath :=
  match p.closed with
  | name :: closed =>
    if p.last.isEmpty && !isDriveLetter name.toList then
      ({ p with closed, last := name } : OpenPath).dropLast file
    else p.dropLast file
  | [] => p.dropLast file

/-- The path with one segment read onto it; `slash` tells whether a slash ends the segment. -/
def step (file slash : Bool) (p : OpenPath) (part : List Char) : OpenPath :=
  let text := withoutLayout part
  let p := if file && p.isDrive && !text.isEmpty then p.close else p
  match if file && p.isRoot then splitAtBreak? part else none with
  | some (drive, more) => closeIf slash ((p.append drive).close.append more)
  | none =>
    match dots? text with
    | some 2 =>
      let p := p.up file
      if p.last.isEmpty then p else p.closeIf slash
    | some 1 => if p.last.isEmpty then p else p.close
    | _ =>
      if file && p.isRoot && isDriveLetter text then
        closeIf slash { p.append (text.take 1 ++ [':']) with hasDrive := true }
      else closeIf slash (p.append text)

/-- The path with segments read onto it. -/
def steps (file : Bool) : OpenPath → List (List Char) → OpenPath
  | p, [] => p
  | p, [part] => p.step file false part
  | p, part :: parts => steps file (p.step file true part) parts

end OpenPath

/-! ## Whole paths -/

/-- The segments of a file's path: empty ones at the front do not count. -/
def trimFront (names : List String) : List String :=
  match names.dropWhile String.isEmpty with
  | [] => [""]
  | names => names

/-- The segments of a path that was read to its end. -/
def finish (scheme : String) (p : OpenPath) : List String :=
  if scheme == "file" then trimFront p.names else p.names

/-- Read a path onto an open one; the second part is what follows the path. -/
def readPath (scheme : String) (onto : OpenPath) (text : List Char) : OpenPath × List Char :=
  let (parts, rest) := splitPath (isSpecialScheme scheme) text
  (onto.steps (scheme == "file") parts, rest)

/-- The segments of an address. -/
def names (a : Address) : List String :=
  match a.path with
  | .segments names => names
  | .plain _ => []

/-- The path that relative ones are read onto: that of an address without its last segment. -/
def openPath (a : Address) : OpenPath := (OpenPath.ofNames a.names).dropLast (a.scheme == "file")

/-- The address as that of a directory: without fragment and with a slash at its end, so that
names join beneath it. The path is read again with the slash. A slash alone would make a
hierarchy of plain text and is encoded. -/
def asDirectory (a : Address) : Address :=
  let path := match a.path with
    | .plain text =>
      if text.isEmpty then .plain "%2F"
      else if text.toList.getLast? = some '/' then .plain text
      else .plain (text ++ "/")
    | .segments names =>
      if names.getLast? = some "" then .segments names
      else
        .segments (finish a.scheme
          (({} : OpenPath).steps (a.scheme == "file") (names.map String.toList ++ [[]])))
  { a with path, fragment := none }

end SchemaCatalog.Address
