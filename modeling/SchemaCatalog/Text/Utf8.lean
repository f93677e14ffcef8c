/-!
# Reading UTF-8

Bytes are split from the front into pieces: a character in its only permitted encoding, a run of
bytes that cannot begin or continue one, or a character cut off by the end. Surrogates, overlong
encodings and numbers beyond the last character are not permitted, which shows in the range of
the second byte, so every wrong run is recognized as soon as its first wrong byte is seen.

`decode` reads bytes that must be UTF-8 throughout and tells where the first fault is; `lossy`
reads any bytes and puts the replacement character in the place of each wrong run.
-/

namespace SchemaCatalog.Utf8

/-- A piece at the front of some bytes. -/
inductive Piece where
  /-- A character and the number of bytes it takes. -/
  | char (c : Char) (width : Nat)
  /-- A run of bytes that is no character. -/
  | invalid (width : Nat)
  /-- A character cut off by the end of the bytes. -/
  | incomplete (width : Nat)
  deriving DecidableEq, Repr

/-- The number of bytes of a piece. -/
def Piece.width : Piece → Nat
  | .char _ width => width
  | .invalid width => width
  | .incomplete width => width

/-- Where and why bytes are no UTF-8: the index of the first byte at fault, and the length of
the wrong run, or none where the end came too early. -/
structure Fault where
  /-- The number of bytes read before. -/
  index : Nat
  /-- The length of the wrong run. -/
  length : Option Nat
  deriving DecidableEq, Repr

/-- The text of a fault. -/
def Fault.message (f : Fault) : String :=
  match f.length with
  | some n => "invalid utf-8 sequence of " ++ toString n ++ " bytes from index " ++ toString f.index
  | none => "incomplete utf-8 byte sequence from index " ++ toString f.index

/-- What a first byte above ASCII announces: the number of bytes that follow, the range of the
next one, and the part of the character's number it holds. -/
def lead? (b : Nat) : Option (Nat × Nat × Nat × Nat) :=
  if b < 0xC2 then none
  else if b < 0xE0 then some (1, 0x80, 0xBF, b - 0xC0)
  else if b = 0xE0 then some (2, 0xA0, 0xBF, 0)
  else if b = 0xED then some (2, 0x80, 0x9F, b - 0xE0)
  else if b < 0xF0 then some (2, 0x80, 0xBF, b - 0xE0)
  else if b = 0xF0 then some (3, 0x90, 0xBF, 0)
  else if b < 0xF4 then some (3, 0x80, 0xBF, b - 0xF0)
  else if b = 0xF4 then some (3, 0x80, 0x8F, b - 0xF0)
  else none

/-- The numbers of up to `n` continuing bytes, the first of them in the given range. -/
def continuing (low high : Nat) : Nat → List UInt8 → List Nat
  | 0, _ => []
  | _, [] => []
  | n + 1, b :: bs =>
    if low ≤ b.toNat ∧ b.toNat ≤ high then (b.toNat - 0x80) :: continuing 0x80 0xBF n bs else []

/-- The piece that a byte and those behind it begin with. -/
def Piece.first (b : UInt8) (bs : List UInt8) : Piece :=
  if b.toNat < 0x80 then .char (Char.ofNat b.toNat) 1
  else
    match lead? b.toNat with
    | none => .invalid 1
    | some (n, low, high, part) =>
      let rest := continuing low high n bs
      if rest.length = n then
        .char (Char.ofNat (rest.foldl (fun v c => v * 64 + c) part)) (n + 1)
      else if bs.length ≤ rest.length then .incomplete (rest.length + 1)
      else .invalid (rest.length + 1)

/-- The pieces of some bytes, of which the first `skip` belong to a piece before them. -/
def piecesFrom : Nat → List UInt8 → List Piece
  | _, [] => []
  | skip + 1, _ :: bs => piecesFrom skip bs
  | 0, b :: bs =>
    let p := Piece.first b bs
    p :: piecesFrom (p.width - 1) bs

/-- The pieces of some bytes. -/
def pieces (bytes : List UInt8) : List Piece := piecesFrom 0 bytes

/-- The characters of pieces up to the first fault, which lies `index` bytes and more in. -/
def charsFrom (index : Nat) : List Piece → Except Fault (List Char)
  | [] => .ok []
  | .char c width :: ps => (c :: ·) <$> charsFrom (index + width) ps
  | .invalid width :: _ => .error ⟨index, some width⟩
  | .incomplete _ :: _ => .error ⟨index, none⟩

/-- The characters of bytes that are UTF-8 throughout. -/
def decode (bytes : List UInt8) : Except Fault (List Char) := charsFrom 0 (pieces bytes)

/-- The characters of any bytes, each wrong run replaced. -/
def lossy (bytes : List UInt8) : List Char :=
  (pieces bytes).map fun
    | .char c _ => c
    | _ => '\ufffd'

/-- The bytes of a character. -/
def encodeChar (c : Char) : List UInt8 := (String.singleton c).toUTF8.toList

end SchemaCatalog.Utf8
