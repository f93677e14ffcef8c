import SchemaCatalog.Text.Utf8

/-!
# Percent-encoding

A character that may not stand raw in a part of an address is written as the bytes of its UTF-8
form, each as a percent sign and two upper-case hexadecimal digits. What may not stand raw
depends on the part: the sets below grow from controls, which never may, to the user name, where
least may. Encoding leaves percent signs alone except in the segments of a file's path, so text
that is encoded already stays as it is.
-/

namespace SchemaCatalog.Percent

/-- Controls and everything beyond ASCII, encoded in every part. -/
def control (c : Char) : Bool := c.toNat < 0x20 || 0x7F ≤ c.toNat

/-- What is encoded in a fragment. -/
def fragment (c : Char) : Bool := control c || c ∈ [' ', '"', '<', '>', '\u0060']

/-- What is encoded in a query. -/
def query (c : Char) : Bool := control c || c ∈ [' ', '"', '#', '<', '>']

/-- What is encoded in a query of a special scheme. -/
def specialQuery (c : Char) : Bool := query c || c == '\''

/-- What is encoded in a path. -/
def path (c : Char) : Bool := fragment c || c ∈ ['#', '?', '{', '}']

/-- What is encoded in a segment made of the name of a file. -/
def fileName (c : Char) : Bool := path c || c ∈ ['/', '%', '\\']

/-- What is encoded in a user name or a password. -/
def userInfo (c : Char) : Bool :=
  path c || c ∈ ['/', ':', ';', '=', '@', '[', '\\', ']', '^', '|']

/-- An upper-case hexadecimal digit. -/
def hexDigit (n : Nat) : Char := "0123456789ABCDEF".toList.getD n '0'

/-- A byte as a percent sign and two digits. -/
def encodeByte (b : UInt8) : List Char := ['%', hexDigit (b.toNat / 16), hexDigit (b.toNat % 16)]

/-- A text with the characters of a set encoded. -/
def encode (set : Char → Bool) (text : List Char) : List Char :=
  text.flatMap fun c => if set c then (Utf8.encodeChar c).flatMap encodeByte else [c]

/-- The value of a hexadecimal digit. -/
def digit? (c : Char) : Option Nat :=
  if '0' ≤ c ∧ c ≤ '9' then some (c.toNat - '0'.toNat)
  else if 'a' ≤ c ∧ c ≤ 'f' then some (c.toNat - 'a'.toNat + 10)
  else if 'A' ≤ c ∧ c ≤ 'F' then some (c.toNat - 'A'.toNat + 10)
  else none

/-- The bytes of a text, where a percent sign with two digits stands for one byte and any other
percent sign for itself. -/
def decode : List Char → List UInt8
  | [] => []
  | '%' :: a :: b :: cs =>
    match digit? a, digit? b with
    | some x, some y => UInt8.ofNat (x * 16 + y) :: decode cs
    | _, _ => 0x25 :: decode (a :: b :: cs)
  | c :: cs => Utf8.encodeChar c ++ decode cs

end SchemaCatalog.Percent
