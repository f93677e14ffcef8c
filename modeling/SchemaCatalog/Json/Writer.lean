import SchemaCatalog.Json.Basic
import SchemaCatalog.Number.Shortest

/-!
# Writing JSON text

Two layouts of a value: `Json.compact` without any blank, and `Json.pretty` with every item and
member on a line of its own, two blanks deeper than its container, and a blank behind each
colon; empty containers stay on one line. In both, strings escape the quote, the backslash and
the control characters and leave everything else as it is, and numbers have the form of
`Number.text`.
-/

namespace SchemaCatalog.Json

/-- The lower-case hexadecimal digit of a number below sixteen. -/
def hexDigit (n : Nat) : Char := "0123456789abcdef".toList.getD n '0'

/-- A character as it stands inside a written string. -/
def escapeChar (c : Char) : List Char :=
  match c with
  | '"' => ['\\', '"']
  | '\\' => ['\\', '\\']
  | '\x08' => ['\\', 'b']
  | '\x0c' => ['\\', 'f']
  | '\n' => ['\\', 'n']
  | '\r' => ['\\', 'r']
  | '\t' => ['\\', 't']
  | c =>
    if c.toNat < 0x20 then ['\\', 'u', '0', '0', hexDigit (c.toNat / 16), hexDigit (c.toNat % 16)]
    else [c]

/-- A string between quotes. -/
def quote (s : String) : String := String.ofList ('"' :: s.toList.flatMap escapeChar ++ ['"'])

mutual

/-- The text of a value without blanks. -/
def compact : Json → String
  | .null => "null"
  | .bool true => "true"
  | .bool false => "false"
  | .number n => n.text
  | .string s => quote s
  | .array xs => "[" ++ compactItems xs ++ "]"
  | .object ms => "\x7b" ++ compactMembers ms ++ "\x7d"

/-- The texts of items, commas between them. -/
def compactItems : List Json → String
  | [] => ""
  | [x] => x.compact
  | x :: xs => x.compact ++ "," ++ compactItems xs

/-- The texts of members, commas between them. -/
def compactMembers : List (String × Json) → String
  | [] => ""
  | [(name, x)] => quote name ++ ":" ++ x.compact
  | (name, x) :: ms => quote name ++ ":" ++ x.compact ++ "," ++ compactMembers ms

end

/-- A line break and the blanks of a depth. -/
def lineBreak (depth : Nat) : String := String.ofList ('\n' :: List.replicate (2 * depth) ' ')

mutual

/-- The text of a value over several lines, inside `depth` containers. -/
def prettyAt (depth : Nat) : Json → String
  | .array (x :: xs) => "[" ++ prettyItems (depth + 1) (x :: xs) ++ lineBreak depth ++ "]"
  | .object (m :: ms) => "\x7b" ++ prettyMembers (depth + 1) (m :: ms) ++ lineBreak depth ++ "\x7d"
  | .array [] => "[]"
  | .object [] => "\x7b\x7d"
  | .null => "null"
  | .bool true => "true"
  | .bool false => "false"
  | .number n => n.text
  | .string s => quote s

/-- The texts of items, each on its line. -/
def prettyItems (depth : Nat) : List Json → String
  | [] => ""
  | [x] => lineBreak depth ++ x.prettyAt depth
  | x :: xs => lineBreak depth ++ x.prettyAt depth ++ "," ++ prettyItems depth xs

/-- The texts of members, each on its line. -/
def prettyMembers (depth : Nat) : List (String × Json) → String
  | [] => ""
  | [(name, x)] => lineBreak depth ++ quote name ++ ": " ++ x.prettyAt depth
  | (name, x) :: ms =>
    lineBreak depth ++ quote name ++ ": " ++ x.prettyAt depth ++ "," ++ prettyMembers depth ms

end

/-- The text of a value over several lines. -/
def pretty (v : Json) : String := prettyAt 0 v

end SchemaCatalog.Json
