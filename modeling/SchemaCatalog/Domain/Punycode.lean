/-!
# Punycode

A label with characters beyond ASCII is written in ASCII: its ASCII characters, a hyphen if there
are any, and then the others as insertions in rising order of their numbers. An insertion is the
number of places and characters passed over since the last one, in base 36 with digits of varying
weight: `threshold` tells which digits end a number, and `adapt` moves it along with the sizes of
the numbers seen.
-/

namespace SchemaCatalog.Domain.Punycode

/-! ## Digits -/

/-- A digit of base 36. -/
def digit (n : Nat) : Char := if n < 26 then Char.ofNat (n + 97) else Char.ofNat (n + 22)

/-- The value of a digit of base 36. -/
def digit? (c : Char) : Option Nat :=
  if c.isLower then some (c.toNat - 97)
  else if c.isDigit then some (c.toNat - 22)
  else none

/-- The least digit that does not end a number at position `k`. -/
def threshold (bias k : Nat) : Nat :=
  if k ≤ bias + 1 then 1 else if bias + 26 ≤ k then 26 else k - bias

/-- The loop of `adapt`: the delta divided down and the weight it has reached. -/
def damp : Nat → Nat → Nat → Nat × Nat
  | 0, delta, k => (delta, k)
  | fuel + 1, delta, k => if 455 < delta then damp fuel (delta / 35) (k + 36) else (delta, k)

/-- The next bias after an insertion. -/
def adapt (delta count : Nat) (isFirst : Bool) : Nat :=
  let delta := if isFirst then delta / 700 else delta / 2
  let (delta, k) := damp delta (delta + delta / count) 0
  k + 36 * delta / (delta + 38)

/-! ## Encoding -/

/-- A number in digits of varying weight, least first. -/
def weighted (bias : Nat) : Nat → Nat → Nat → List Char
  | 0, _, q => [digit q]
  | fuel + 1, k, q =>
    let t := threshold bias k
    if q < t then [digit q]
    else digit (t + (q - t) % (36 - t)) :: weighted bias fuel (k + 36) ((q - t) / (36 - t))

/-- Where an encoding stands. -/
structure Encoding where
  /-- The step since the last insertion. -/
  delta : Nat
  bias : Nat
  handled : Nat
  /-- The insertions so far, the last one first. -/
  output : List (List Char)

/-- Insert the occurrences of the character with number `n`. -/
def insertAll (basic n : Nat) (label : List Char) (s : Encoding) : Encoding :=
  label.foldl (fun s c =>
    if c.toNat < n then { s with delta := s.delta + 1 }
    else if c.toNat = n then
      { delta := 0
        bias := adapt s.delta (s.handled + 1) (s.handled == basic)
        handled := s.handled + 1
        output := weighted s.bias s.delta 36 s.delta :: s.output }
    else s) s

/-- The numbers beyond ASCII of a label, rising, each once. -/
def extended (label : List Char) : List Nat :=
  ((label.map Char.toNat).filter (0x80 ≤ ·)).mergeSort.eraseDups

/-- A label in Punycode. -/
def encode (label : List Char) : List Char :=
  let basic := label.filter fun c => c.toNat < 0x80
  let (s, _) := (extended label).foldl (fun (s, last) n =>
    let s := { s with delta := s.delta + (n - last) * (s.handled + 1) }
    let s := insertAll basic.length n label s
    ({ s with delta := s.delta + 1 }, n + 1)) ((⟨0, 72, basic.length, []⟩ : Encoding), 0x80)
  (if basic.isEmpty then [] else basic ++ ['-']) ++ s.output.reverse.flatten

/-! ## Decoding -/

/-- Where a decoding stands. -/
structure Decoding where
  output : List Char
  /-- The number of the last character inserted. -/
  number : Nat := 0x80
  /-- The place behind the last character inserted. -/
  place : Nat := 0
  bias : Nat := 72
  /-- The weight of the next digit of the number that is being read. -/
  weight : Nat := 1
  /-- The position of the next digit. -/
  position : Nat := 36
  /-- What the digits of the number that is being read add to `place`. -/
  read : Nat := 0

/-- The character of a number, if there is one. -/
def char? (n : Nat) : Option Char := if h : n.isValidChar then some (Char.ofNatAux n h) else none

/-- The decoding one digit further; the last digit of a number makes an insertion. -/
def Decoding.step? (s : Decoding) (c : Char) : Option Decoding := do
  let d ← digit? c
  let read := s.read + d * s.weight
  let t := threshold s.bias s.position
  if d < t then
    let count := s.output.length + 1
    let number := s.number + (s.place + read) / count
    let place := (s.place + read) % count
    let inserted ← char? number
    return {
      output := s.output.insertIdx place inserted
      number
      place := place + 1
      bias := adapt read count (s.place == 0) }
  else return { s with read, weight := s.weight * (36 - t), position := s.position + 36 }

/-- The label that a text in Punycode writes. -/
def decode? (text : List Char) : Option (List Char) := do
  let tail := (text.reverse.takeWhile (· != '-')).reverse
  let basic := text.take (text.length - tail.length - 1)
  let s ← (if basic.isEmpty then text else tail).foldlM Decoding.step? { output := basic }
  if s.position = 36 then some s.output else none

end SchemaCatalog.Domain.Punycode
