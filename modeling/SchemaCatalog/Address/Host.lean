import SchemaCatalog.Address.Basic
import SchemaCatalog.Domain.Basic
import SchemaCatalog.Text.Percent

/-!
# Hosts

A host is an address of eight groups between brackets, an address of four bytes, a domain name,
or, under a scheme that is not special, any text without separators. Each has one normal form:
groups in lower-case hexadecimal with the longest run of zeros left out, bytes in decimal,
domains in small ASCII letters.
-/

namespace SchemaCatalog.Address

open Except (error ok)

/-! ## Four bytes -/

/-- A number in a base, if all its digits belong to the base. -/
def numberIn? (base : Nat) (cs : List Char) : Option Nat :=
  cs.foldlM (fun n c => do
    let d ← Percent.digit? c
    if d < base then some (n * base + d) else none) 0

/-- A part of a numeric host: hexadecimal behind `0x`, octal behind a zero, else decimal. -/
def hostNumber? : List Char → Option Nat
  | [] => none
  | '0' :: 'x' :: cs => numberIn? 16 cs
  | '0' :: 'X' :: cs => numberIn? 16 cs
  | '0' :: c :: cs => numberIn? 8 (c :: cs)
  | cs => numberIn? 10 cs

/-- The parts of a host, an empty last one left out. -/
def hostParts (cs : List Char) : List (List Char) :=
  let parts := splitAt '.' cs
  if 1 < parts.length ∧ parts.getLast? = some [] then parts.dropLast else parts

/-- Whether the last part of a host is a number, so that the host must be one. -/
def endsInNumber (cs : List Char) : Bool :=
  match (hostParts cs).getLast? with
  | some last => (!last.isEmpty && last.all Char.isDigit) || (hostNumber? last).isSome
  | none => false

/-- The number of a numeric host: all parts but the last are bytes, the last fills the rest. -/
def ipv4? (cs : List Char) : Option Nat := do
  let parts := hostParts cs
  if 4 < parts.length then none
  let numbers ← parts.mapM hostNumber?
  let last ← numbers.getLast?
  let bytes := numbers.dropLast
  if Nat.pow 256 (4 - bytes.length) ≤ last ∨ bytes.any (255 < ·) then none
  return bytes.zipIdx.foldl (fun n (b, i) => n + b * Nat.pow 256 (3 - i)) last

/-- Four bytes in decimal. -/
def ipv4Text (n : Nat) : String :=
  ".".intercalate ([3, 2, 1, 0].map fun i => toString (n / Nat.pow 256 i % 256))

/-! ## Eight groups -/

/-- A group of one to four hexadecimal digits. -/
def group? (cs : List Char) : Option Nat :=
  if cs.isEmpty ∨ 4 < cs.length then none else numberIn? 16 cs

/-- A byte in decimal without leading zeros. -/
def byte? (cs : List Char) : Option Nat :=
  if cs.isEmpty ∨ (1 < cs.length ∧ cs.head? = some '0') then none
  else do
    let n ← numberIn? 10 cs
    if n < 256 then some n else none

/-- Groups between colons, the last two of which may be four bytes in decimal. -/
def groups? (cs : List Char) : Option (List Nat) :=
  if cs.isEmpty then some []
  else do
    let parts := splitAt ':' cs
    let last ← parts.getLast?
    let front ← parts.dropLast.mapM group?
    if '.' ∈ last then
      match ← (splitAt '.' last).mapM byte? with
      | [a, b, c, d] => some (front ++ [a * 256 + b, c * 256 + d])
      | _ => none
    else do return front ++ [← group? last]

/-- The two sides of the first double colon. -/
def splitDoubleColon : List Char → Option (List Char × List Char)
  | ':' :: ':' :: cs => some ([], cs)
  | c :: cs => do
    let (left, right) ← splitDoubleColon cs
    return (c :: left, right)
  | [] => none

/-- The eight groups of an address, those left out at a double colon filled with zeros. -/
def ipv6? (cs : List Char) : Option (List Nat) :=
  match splitDoubleColon cs with
  | none => do
    let groups ← groups? cs
    if groups.length = 8 then some groups else none
  | some (left, right) => do
    if '.' ∈ left then none
    let left ← groups? left
    let right ← groups? right
    if left.length + right.length < 8 then
      some (left ++ List.replicate (8 - left.length - right.length) 0 ++ right)
    else none

/-- The length of the run of zeros at the front. -/
def zeroRun (groups : List Nat) : Nat := (groups.takeWhile (· = 0)).length

/-- The start and length of the first longest run of zeros, from position `i` on. -/
def longestRun (i : Nat) : List Nat → Nat × Nat
  | [] => (i, 0)
  | g :: groups =>
    let here := zeroRun (g :: groups)
    let later := longestRun (i + 1) groups
    if later.2 ≤ here then (i, here) else later

/-- A number in lower-case hexadecimal. -/
def hexText (n : Nat) : String := String.ofList (Nat.toDigits 16 n)

/-- Eight groups, the first longest run of at least two zeros left out. -/
def ipv6Text (groups : List Nat) : String :=
  let (start, length) := longestRun 0 groups
  let text (gs : List Nat) := ":".intercalate (gs.map hexText)
  if 2 ≤ length then text (groups.take start) ++ "::" ++ text (groups.drop (start + length))
  else text groups

/-! ## Any host -/

/-- The characters that separate the parts of an address and never stand in a host. -/
def isSeparator (c : Char) : Bool :=
  c ∈ ['\x00', '\t', '\n', '\r', ' ', '#', '/', ':', '<', '>', '?', '@', '[', '\\', ']', '^', '|']

/-- The characters that never stand in a domain name. -/
def isForbidden (c : Char) : Bool :=
  isSeparator c || c.toNat < 0x20 || c == '%' || c.toNat == 0x7F

/-- The host between brackets. -/
def bracketHost (cs : List Char) : Except ParseError String :=
  if cs.getLast? = some ']' then
    match ipv6? cs.dropLast with
    | some groups => .ok ("[" ++ ipv6Text groups ++ "]")
    | none => .error .invalidIPv6
  else .error .invalidIPv6

/-- The host of a special scheme. -/
def specialHost (cs : List Char) : Except ParseError String :=
  match cs with
  | '[' :: cs => bracketHost cs
  | cs =>
    match Utf8.decode (Percent.decode cs) with
    | .error _ => .error .invalidDomain
    | .ok cs =>
      match Domain.toAscii? cs with
      | none => .error .invalidDomain
      | some domain =>
        if domain.isEmpty then .error .emptyHost
        else if domain.any isForbidden then .error .invalidDomain
        else if endsInNumber domain then
          match ipv4? domain with
          | some n => .ok (ipv4Text n)
          | none => .error .invalidIPv4
        else .ok (String.ofList domain)

/-- The host of a scheme that is not special. -/
def plainHost (cs : List Char) : Except ParseError String :=
  match cs with
  | '[' :: cs => bracketHost cs
  | cs =>
    if cs.any isSeparator then .error .invalidDomainCharacter
    else .ok (String.ofList (Percent.encode Percent.control cs))

end SchemaCatalog.Address
