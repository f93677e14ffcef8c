import SchemaCatalog.Address.Host
import SchemaCatalog.Address.Path

/-!
# Reading addresses

`Address.parse` reads an absolute address and `Address.join` one that may be relative to a base.
Blanks and controls around a text are dropped and tabs and line breaks inside it count for
nothing, except behind a drive letter. What follows the scheme is read part by part: an optional
host part behind two slashes, the path, the query, the fragment. Under a special scheme a
backslash counts as a slash and the host part is always there; under `file` the host may be
empty, and `localhost` is empty too.
-/

namespace SchemaCatalog.Address

/-! ## Texts -/

/-- Whether a character is dropped at the ends of a text. -/
def isOuterBlank (c : Char) : Bool := c.toNat ≤ 0x20

/-- A text without its layout, save that one break stays behind a letter and a colon, where it may
end a drive letter; `letter` and `drive` tell whether the text before ends in a letter or in both
of them. -/
def dropLayout (letter drive : Bool) : List Char → List Char
  | [] => []
  | c :: cs =>
    if isLayout c then
      if drive then c :: dropLayout false false cs else dropLayout letter false cs
    else c :: dropLayout c.isAlpha (letter && c == ':') cs

/-- A text without the blanks and controls around it and without the layout that counts for
nothing. -/
def clean (text : String) : List Char :=
  let cs := text.toList.dropWhile isOuterBlank
  dropLayout false false (cs.reverse.dropWhile isOuterBlank).reverse

/-- Whether a character may stand in a scheme behind its first letter. -/
def isSchemeChar (c : Char) : Bool := c.isAlphanum || c == '+' || c == '-' || c == '.'

/-- The scheme of a text in lower case and what follows its colon. -/
def splitScheme? (text : List Char) : Option (String × List Char) :=
  match text with
  | c :: _ =>
    if c.isAlpha then
      match text.dropWhile isSchemeChar with
      | ':' :: rest =>
        some ((String.ofList (text.takeWhile isSchemeChar)).toLower, rest.dropWhile isLayout)
      | _ => none
    else none
  | [] => none

/-! ## Query and fragment -/

/-- A fragment as an address holds it. -/
def encodeFragment (text : List Char) : String :=
  String.ofList (Percent.encode Percent.fragment (withoutLayout text))

/-- The query and the fragment of what follows a path. -/
def queryAndFragment (special : Bool) : List Char → Option String × Option String
  | '?' :: text =>
    let set := if special then Percent.specialQuery else Percent.query
    let query := String.ofList (Percent.encode set (withoutLayout (text.takeWhile (· != '#'))))
    match text.dropWhile (· != '#') with
    | '#' :: fragment => (some query, some (encodeFragment fragment))
    | _ => (some query, none)
  | '#' :: fragment => (none, some (encodeFragment fragment))
  | _ => (none, none)

/-- The address with query and fragment read from what follows its path. -/
def withTail (a : Address) (text : List Char) : Address :=
  let (query, fragment) := queryAndFragment (isSpecialScheme a.scheme) text
  { a with query, fragment }

/-! ## Paths -/

/-- The address with a path and what follows it. -/
def withReadPath (a : Address) (p : OpenPath × List Char) : Address :=
  withTail { a with path := .segments (finish a.scheme p.1) } p.2

/-- The address with path, query and fragment read onto an open path. -/
def withPath (a : Address) (onto : OpenPath) (text : List Char) : Address :=
  a.withReadPath (readPath a.scheme onto text)

/-- The address with a path behind its host part, where one slash is the root, and with what
follows the path. Where the scheme is not special there may be no path. -/
def withRootedPath (a : Address) (text : List Char) : Address :=
  let special := isSpecialScheme a.scheme
  match text with
  | c :: cs =>
    if isSlash special c then a.withPath {} cs
    else if !special && endsPath c then withTail { a with path := .segments [] } text
    else a.withPath {} text
  | [] => { a with path := .segments (if special then [""] else []) }

/-! ## Host parts -/

/-- The user name and password of the text before an at sign. -/
def credentials? (text : List Char) : String × Option String :=
  let encode (cs : List Char) := String.ofList (Percent.encode Percent.userInfo cs)
  match text.dropWhile (· != ':') with
  | ':' :: c :: password => (encode (text.takeWhile (· != ':')), some (encode (c :: password)))
  | _ => (encode (text.takeWhile (· != ':')), none)

/-- The text up to the last at sign and what follows it. -/
def splitLastAt (text : List Char) : Option (List Char × List Char) :=
  let after := (text.reverse.takeWhile (· != '@')).reverse
  if after.length < text.length then
    some (text.take (text.length - after.length - 1), after)
  else none

/-- The text of a host, up to a colon outside of brackets, and what follows it. -/
def splitHost (inside : Bool) : List Char → List Char × List Char
  | [] => ([], [])
  | c :: cs =>
    if c = ':' ∧ !inside then ([], c :: cs)
    else
      let inside := if c = '[' then true else if c = ']' then false else inside
      let (host, rest) := splitHost inside cs
      (c :: host, rest)

/-- The port of a text behind a colon, if it is not the scheme's own, and what follows it, which
can only begin with a backslash. -/
def readPort (scheme : String) (text : List Char) :
    Except ParseError (Option Nat × List Char) :=
  let digits := text.takeWhile Char.isDigit
  let rest := text.dropWhile Char.isDigit
  if rest.head?.all (· == '\\') then
    let n := digits.foldl (fun n c => n * 10 + (c.toNat - '0'.toNat)) 0
    if Nat.pow 2 16 ≤ n then .error .invalidPort
    else if digits.isEmpty ∨ defaultPort scheme = some n then .ok (none, rest)
    else .ok (some n, rest)
  else .error .invalidPort

/-- The host and the port of a text and what follows them; a special scheme must have a host,
and so must a port. -/
def readHost (scheme : String) (text : List Char) :
    Except ParseError (String × Option Nat × List Char) := do
  let (host, rest) := splitHost false text
  let name ← if isSpecialScheme scheme then specialHost host else plainHost host
  match rest with
  | _ :: port => if name.isEmpty then .error .emptyHost else return (name, ← readPort scheme port)
  | [] => return (name, none, [])

/-- The user name, the password and the text of the host of a host part; `last` tells whether
nothing follows it. -/
def splitCredentials (last : Bool) (authority : List Char) :
    Except ParseError ((String × Option String) × List Char) :=
  match splitLastAt authority with
  | none => .ok (("", none), authority)
  | some ([], []) => if last then .ok (("", none), []) else .error .emptyHost
  | some ([], host) => .ok (("", none), host)
  | some (user, host) => .ok (credentials? user, host)

/-- An address whose host part begins a text, which stood behind two slashes. -/
def readAuthority (scheme : String) (text : List Char) : Except ParseError Address := do
  let stops (c : Char) := isSlash (isSpecialScheme scheme) c || endsPath c
  let authority := withoutLayout (text.takeWhile fun c => !stops c)
  let rest := text.dropWhile fun c => !stops c
  let ((username, password), hostText) ← splitCredentials rest.isEmpty authority
  let (host, port, more) ← readHost scheme hostText
  if host.isEmpty && (!username.isEmpty || password.isSome) then .error .emptyHost
  else
    let a : Address := { scheme, username, password, host := some host, port, path := .segments [] }
    return a.withRootedPath (more ++ rest)

/-! ## Files -/

/-- The address of the root of the files at a host. -/
def fileRoot (host : String) : Address :=
  { scheme := "file", host := some host, path := .segments [""] }

/-- The address of a file whose host begins a text, which stood behind two slashes. A drive letter
takes the place of a host, and so it does where it begins the path at a host. -/
def readFileHost (text : List Char) : Except ParseError Address := do
  let stops (c : Char) := isSlash true c || endsPath c
  let hostText := withoutLayout (text.takeWhile fun c => !stops c)
  let rest := text.dropWhile fun c => !stops c
  if isDriveLetter hostText then return (fileRoot "").withPath {} text
  else
    let host ← if hostText.isEmpty then pure "" else specialHost hostText
    if host.isEmpty || host == "localhost" then return (fileRoot "").withPath {} rest
    else
      let p := readPath "file" {} (match rest with
        | c :: cs => if isSlash true c then cs else rest
        | [] => [])
      return (fileRoot (if p.1.hasDrive then "" else host)).withReadPath p

/-- The address of a file from what follows its scheme, or from a text relative to a base. -/
def readFileScheme (base : Option Address) (text : List Char) : Except ParseError Address :=
  match text with
  | c :: cs =>
    if isSlash true c then
      match cs with
      | d :: ds =>
        if isSlash true d then readFileHost ds else .ok (rooted base (d :: ds))
      | [] => .ok (rooted base [])
    else
      match base with
      | none => .ok ((fileRoot "").withPath {} text)
      | some base =>
        if endsPath c then
          .ok (if c = '#' then base.withFragment (some (encodeFragment cs)) else withTail base text)
        else if startsWithDrive text then .ok ((fileRoot "").withPath {} text)
        else .ok (base.withPath base.openPath text)
  | [] =>
    match base with
    | none => .ok (fileRoot "")
    | some base => .ok base.withoutFragment
where
  /-- The address of a path from the root of the base's host, or of its drive. -/
  rooted (base : Option Address) (text : List Char) : Address :=
    match base with
    | none => (fileRoot "").withPath {} text
    | some base =>
      if startsWithDrive text then (fileRoot "").withPath {} text
      else
        match base.names.head?.filter fun name => isNormalDriveLetter name.toList with
        | some drive => (fileRoot "").withPath { closed := [drive] } text
        | none => (fileRoot (base.host.getD "")).withPath {} text

/-! ## Any address -/

/-- An address that shares the scheme of its base and is relative to it. -/
def readRelative (base : Address) (text : List Char) : Except ParseError Address :=
  match text with
  | [] => .ok base.withoutFragment
  | c :: cs =>
    if c = '?' then .ok (withTail base text)
    else if c = '#' then .ok (base.withFragment (some (encodeFragment cs)))
    else if isSlash true c then
      match cs with
      | d :: ds =>
        if isSlash true d then
          if c = '/' ∧ d = '/' then readAuthority base.scheme ds
          else readAuthority base.scheme (text.dropWhile (isSlash true))
        else .ok (base.withPath {} (d :: ds))
      | [] => .ok (base.withPath {} [])
    else .ok (base.withPath base.openPath text)

/-- An address of the given scheme from what follows it. -/
def readSchemed (base : Option Address) (scheme : String) (text : List Char) :
    Except ParseError Address :=
  if scheme == "file" then
    readFileScheme (base.filter fun b => b.scheme == "file") text
  else if isSpecialScheme scheme then
    let slashes := text.takeWhile (isSlash true)
    match base with
    | some b =>
      if slashes.length < 2 ∧ b.scheme = scheme then readRelative b text
      else readAuthority scheme (text.dropWhile (isSlash true))
    | none => readAuthority scheme (text.dropWhile (isSlash true))
  else
    match text with
    | '/' :: '/' :: rest => readAuthority scheme rest
    | '/' :: rest => .ok ({ scheme, path := .segments [] : Address }.withPath {} rest)
    | text =>
      let plain :=
        Percent.encode Percent.control (withoutLayout (text.takeWhile fun c => !endsPath c))
      .ok (withTail { scheme, path := .plain (String.ofList plain) }
        (text.dropWhile fun c => !endsPath c))

/-- The address of a text, which may be relative to a base if there is one. -/
def parseFrom (base : Option Address) (text : String) : Except ParseError Address :=
  let cs := clean text
  match splitScheme? cs with
  | some (scheme, rest) => readSchemed base scheme rest
  | none =>
    match base with
    | none => .error .relativeWithoutBase
    | some b =>
      match cs with
      | '#' :: fragment => .ok (b.withFragment (some (encodeFragment fragment)))
      | cs =>
        if b.isPlain then .error .relativeWithPlainBase
        else if b.scheme == "file" then readFileScheme (some b) cs
        else readRelative b cs

/-- The address a text writes. -/
def parse (text : String) : Except ParseError Address := parseFrom none text

/-- The address a text writes as seen from a base. -/
def join (base : Address) (text : String) : Except ParseError Address := parseFrom (some base) text

/-- The address of a place in a document, named by a fragment that is not yet encoded. -/
def atFragment (a : Address) (fragment : String) : Address :=
  a.withFragment (some (encodeFragment fragment.toList))

end SchemaCatalog.Address
