import SchemaCatalog.Number.Literal

/-!
# Tokens of JSON text

The lexical level of JSON: four kinds of brackets, comma and colon, the three words, strings and
numbers, with blanks between them. `Token.scan` turns characters into tokens or fails. It is
strict: a string holds no raw control character and no lone half of a surrogate pair, a number
has no leading zero, at least one digit on either side of its point and after its exponent mark,
and a number out of the range of floating-point numbers is no token.

Each reader of one token returns what is left of the text, and its `_length` lemma says that the
rest is no longer than the text; `scan` ends because a token takes at least one character.
-/

namespace SchemaCatalog.Json

/-- A token of JSON text. -/
inductive Token where
  | openObject
  | closeObject
  | openArray
  | closeArray
  | comma
  | colon
  | null
  | bool (b : Bool)
  | number (n : Number)
  /-- A string, its escapes undone. -/
  | string (s : String)
  deriving DecidableEq, Repr

namespace Token

/-- The blanks that may stand between tokens. -/
def isBlank (c : Char) : Bool := c == ' ' || c == '\n' || c == '\t' || c == '\r'

/-- The value of a hexadecimal digit. -/
def hexDigit? (c : Char) : Option Nat :=
  if '0' ≤ c ∧ c ≤ '9' then some (c.toNat - '0'.toNat)
  else if 'a' ≤ c ∧ c ≤ 'f' then some (c.toNat - 'a'.toNat + 10)
  else if 'A' ≤ c ∧ c ≤ 'F' then some (c.toNat - 'A'.toNat + 10)
  else none

/-- The number written by four hexadecimal digits. -/
def hexUnit? (a b c d : Char) : Option Nat := do
  return ((← hexDigit? a) * 16 + (← hexDigit? b)) * 256 + (← hexDigit? c) * 16 + (← hexDigit? d)

/-- Whether a code unit is the first half of a surrogate pair. -/
def isHighSurrogate (u : Nat) : Bool := 0xD800 ≤ u && u < 0xDC00

/-- Whether a code unit is the second half of a surrogate pair. -/
def isLowSurrogate (u : Nat) : Bool := 0xDC00 ≤ u && u < 0xE000

/-- The character a one-letter escape stands for. -/
def escaped? : Char → Option Char
  | '"' => some '"'
  | '\\' => some '\\'
  | '/' => some '/'
  | 'b' => some '\x08'
  | 'f' => some '\x0c'
  | 'n' => some '\n'
  | 'r' => some '\r'
  | 't' => some '\t'
  | _ => none

/-- The characters of a string up to its closing quote, in reverse on top of `done`, and the
text behind the quote. -/
def scanString (done : List Char) : List Char → Option (List Char × List Char)
  | [] => none
  | '"' :: rest => some (done, rest)
  | '\\' :: 'u' :: a :: b :: c :: d :: rest =>
    match hexUnit? a b c d with
    | none => none
    | some u =>
      if isHighSurrogate u then
        match rest with
        | '\\' :: 'u' :: e :: f :: g :: h :: rest =>
          match hexUnit? e f g h with
          | none => none
          | some v =>
            if isLowSurrogate v then
              scanString (Char.ofNat (0x10000 + (u - 0xD800) * 0x400 + (v - 0xDC00)) :: done) rest
            else none
        | _ => none
      else if isLowSurrogate u then none
      else scanString (Char.ofNat u :: done) rest
  | '\\' :: e :: rest =>
    match escaped? e with
    | some c => scanString (c :: done) rest
    | none => none
  | c :: rest => if c.toNat < 0x20 ∨ c = '\\' then none else scanString (c :: done) rest

/-- The leading decimal digits of a text and what follows them. -/
def scanDigits : List Char → List Nat × List Char
  | [] => ([], [])
  | c :: rest =>
    if c.isDigit then
      let (ds, rest) := scanDigits rest
      ((c.toNat - '0'.toNat) :: ds, rest)
    else ([], c :: rest)

/-- The fraction of a number, if a point follows. -/
def scanFraction : List Char → Option (Option (List Nat) × List Char)
  | '.' :: rest =>
    match scanDigits rest with
    | ([], _) => none
    | (ds, rest) => some (some ds, rest)
  | rest => some (none, rest)

/-- The digits of an exponent behind its sign. -/
def scanPower (negative : Bool) (text : List Char) : Option (Option Int × List Char) :=
  match scanDigits text with
  | ([], _) => none
  | (ds, rest) =>
    let n : Int := Literal.ofDigits ds
    some (some (if negative then -n else n), rest)

/-- The exponent of a number, if its mark follows. -/
def scanExponent : List Char → Option (Option Int × List Char)
  | c :: rest =>
    if c = 'e' ∨ c = 'E' then
      match rest with
      | '-' :: rest => scanPower true rest
      | '+' :: rest => scanPower false rest
      | rest => scanPower false rest
    else some (none, c :: rest)
  | [] => some (none, [])

/-- A number behind its sign. -/
def scanNumber (negative : Bool) (text : List Char) : Option (Number × List Char) :=
  let integer := scanDigits text
  if integer.1 = [] ∨ (integer.1.head? = some 0 ∧ integer.1 ≠ [0]) then none
  else do
    let (fraction, rest) ← scanFraction integer.2
    let (exponent, rest) ← scanExponent rest
    let n ← Literal.number? ⟨negative, integer.1, fraction, exponent⟩
    return (n, rest)

/-- The token at the head of a text that starts with the given character. -/
def next (c : Char) (rest : List Char) : Option (Token × List Char) :=
  match c, rest with
  | '{', rest => some (.openObject, rest)
  | '}', rest => some (.closeObject, rest)
  | '[', rest => some (.openArray, rest)
  | ']', rest => some (.closeArray, rest)
  | ',', rest => some (.comma, rest)
  | ':', rest => some (.colon, rest)
  | 'n', 'u' :: 'l' :: 'l' :: rest => some (.null, rest)
  | 't', 'r' :: 'u' :: 'e' :: rest => some (.bool true, rest)
  | 'f', 'a' :: 'l' :: 's' :: 'e' :: rest => some (.bool false, rest)
  | '"', rest =>
    (scanString [] rest).map fun (cs, rest) => (.string (String.ofList cs.reverse), rest)
  | '-', rest => (scanNumber true rest).map fun (n, rest) => (.number n, rest)
  | c, rest => (scanNumber false (c :: rest)).map fun (n, rest) => (.number n, rest)

theorem scanString_length {done text cs rest : List Char}
    (h : scanString done text = some (cs, rest)) : rest.length < text.length := by
  fun_induction scanString done text <;> simp_all <;> omega

theorem scanDigits_length (text : List Char) :
    (scanDigits text).2.length + (scanDigits text).1.length = text.length := by
  fun_induction scanDigits text <;> grind

theorem scanFraction_length {text rest : List Char} {f : Option (List Nat)}
    (h : scanFraction text = some (f, rest)) : rest.length ≤ text.length := by
  have hd := scanDigits_length
  fun_cases scanFraction text <;> grind [scanFraction]

theorem scanPower_length {b : Bool} {text rest : List Char} {e : Option Int}
    (h : scanPower b text = some (e, rest)) : rest.length ≤ text.length := by
  have hd := scanDigits_length text
  grind [scanPower]

theorem scanExponent_length {text rest : List Char} {e : Option Int}
    (h : scanExponent text = some (e, rest)) : rest.length ≤ text.length := by
  match text with
  | [] => simp_all [scanExponent]
  | c :: text =>
    simp only [scanExponent] at h
    split at h
    · split at h <;> have hp := scanPower_length h <;> simp only [List.length_cons] at * <;> omega
    · simp_all

theorem scanNumber_length {b : Bool} {text rest : List Char} {n : Number}
    (h : scanNumber b text = some (n, rest)) : rest.length < text.length := by
  have hd := scanDigits_length text
  simp only [scanNumber] at h
  split at h
  · simp at h
  · rename_i hne
    simp only [Option.bind_eq_bind, Option.bind_eq_some_iff, Option.pure_def, Option.some.injEq,
      Prod.mk.injEq, Prod.exists] at h
    obtain ⟨f, r, hf, e, r', he, m, hm, -, rfl⟩ := h
    have hf := scanFraction_length hf
    have he := scanExponent_length he
    have hpos : 0 < (scanDigits text).1.length :=
      List.length_pos_iff.2 fun hnil => hne (.inl hnil)
    omega

/-- A token takes at least its first character. -/
theorem next_length {c : Char} {text rest : List Char} {t : Token}
    (h : next c text = some (t, rest)) : rest.length ≤ text.length := by
  fun_cases next c text <;> simp_all [next]
  · omega
  · omega
  · omega
  · obtain ⟨cs, h, -⟩ := h
    exact Nat.le_of_lt (scanString_length h)
  · obtain ⟨n, h, -⟩ := h
    exact Nat.le_of_lt (scanNumber_length h)
  · obtain ⟨n, h, -⟩ := h
    exact Nat.le_of_lt_succ (scanNumber_length h)

/-- The tokens of a text. -/
def scan (text : List Char) : Option (List Token) :=
  match text with
  | [] => some []
  | c :: text =>
    if isBlank c then scan text
    else
      match h : next c text with
      | none => none
      | some (t, rest) =>
        have : rest.length < text.length + 1 := Nat.lt_succ_of_le (next_length h)
        (scan rest).map (t :: ·)
termination_by text.length

end Token

end SchemaCatalog.Json
