/-!
# Addresses

An `Address` is an absolute URL in normal form: lower-case scheme, normalized host, a port only
where it is not the scheme's own, a path without dot segments, and every character that may not
stand raw already percent-encoded. Documents are addressed by what is left when the fragment is
taken away, and places inside a document by the fragment.

The schemes of the web and of files are *special*: they always have a host part and a rooted
path, and a backslash is a slash in them. Other schemes may lack both; an address whose path is
mere text is no base for relative references.
-/

namespace SchemaCatalog

/-- The path of an address. -/
inductive Address.Path where
  /-- Text that is no hierarchy, as in `mailto:a@b`. -/
  | plain (text : String)
  /-- Segments, each written behind a slash. -/
  | segments (names : List String)
  deriving DecidableEq, Repr, Inhabited, Hashable

/-- An absolute URL in normal form. -/
structure Address where
  /-- The scheme in lower case, without its colon. -/
  scheme : String
  /-- The user name before the host, percent-encoded. -/
  username : String := ""
  /-- The password before the host, percent-encoded. -/
  password : Option String := none
  /-- The host as it is written; `none` where the address has no host part at all. -/
  host : Option String := none
  /-- The port, if it is not the scheme's own. -/
  port : Option Nat := none
  /-- The path, percent-encoded. -/
  path : Address.Path
  /-- The text behind the question mark, percent-encoded. -/
  query : Option String := none
  /-- The text behind the number sign, percent-encoded. -/
  fragment : Option String := none
  deriving DecidableEq, Repr, Inhabited, Hashable

namespace Address

/-- Why a text is no address. -/
inductive ParseError where
  /-- The text has no scheme and there is no base to join it to. -/
  | relativeWithoutBase
  /-- The text is relative and the path of the base is no hierarchy. -/
  | relativeWithPlainBase
  /-- The port is no number below `2 ^ 16`. -/
  | invalidPort
  /-- The host is missing where the scheme needs one. -/
  | emptyHost
  /-- The host is a number but no address of four bytes. -/
  | invalidIPv4
  /-- The brackets around a host hold no address of eight groups. -/
  | invalidIPv6
  /-- The host of a scheme that is not special holds a character that may not stand there. -/
  | invalidDomainCharacter
  /-- The host of a special scheme is no domain name. -/
  | invalidDomain
  deriving DecidableEq, Repr

/-- The text of an error. -/
def ParseError.message : ParseError → String
  | .relativeWithoutBase => "relative URL without a base"
  | .relativeWithPlainBase => "relative URL with a cannot-be-a-base base"
  | .invalidPort => "invalid port number"
  | .emptyHost => "empty host"
  | .invalidIPv4 => "invalid IPv4 address"
  | .invalidIPv6 => "invalid IPv6 address"
  | .invalidDomainCharacter => "invalid domain character"
  | .invalidDomain => "invalid international domain name"

/-- The port a scheme implies. -/
def defaultPort : String → Option Nat
  | "http" | "ws" => some 80
  | "https" | "wss" => some 443
  | "ftp" => some 21
  | _ => none

/-- Whether a scheme is one of those of the web and of files. -/
def isSpecialScheme (scheme : String) : Bool :=
  scheme == "file" || (defaultPort scheme).isSome

/-- Whether a text begins like an address of the web. -/
def isWebText (s : String) : Bool :=
  "http://".toList.isPrefixOf s.toList || "https://".toList.isPrefixOf s.toList

/-- Whether the path of an address is mere text. -/
def isPlain (a : Address) : Bool :=
  match a.path with
  | .plain _ => true
  | .segments _ => false

/-- The address with another fragment, which is already percent-encoded. -/
def withFragment (a : Address) (fragment : Option String) : Address :=
  { a with fragment := fragment }

/-- The path without the blanks at its end. Segments hold no blanks. -/
def Path.dropEnd : Path → Path
  | .plain text => .plain (String.ofList (text.toList.reverse.dropWhile (· == ' ')).reverse)
  | .segments names => .segments names

/-- The address of the document an address points into. Where the fragment stood behind a plain
path, the blanks between the two go with it. -/
def withoutFragment (a : Address) : Address :=
  if a.fragment.isNone then a
  else { a with fragment := none, path := if a.query.isNone then a.path.dropEnd else a.path }

/-- An address without a fragment is the address of its document. -/
theorem withoutFragment_of_fragment_eq_none {a : Address} (h : a.fragment = none) :
    a.withoutFragment = a := by
  simp [withoutFragment, h]

@[simp] theorem fragment_withoutFragment (a : Address) : a.withoutFragment.fragment = none := by
  by_cases h : a.fragment = none <;> simp [withoutFragment, h]

@[simp] theorem withoutFragment_idem (a : Address) :
    a.withoutFragment.withoutFragment = a.withoutFragment :=
  withoutFragment_of_fragment_eq_none (fragment_withoutFragment a)

/-- The user part before a host, with its closing sign. -/
def credentials (a : Address) : String :=
  match a.username, a.password with
  | "", none => ""
  | user, none => user ++ "@"
  | user, some password => user ++ ":" ++ password ++ "@"

/-- The part from the colon of the scheme to the path. A rooted path that begins with an empty
segment would read as a host part where there is none, so a dot segment is written before it. -/
def authority (a : Address) : String :=
  match a.host, a.path with
  | some host, _ =>
    "//" ++ a.credentials ++ host ++ (match a.port with
      | some port => ":" ++ toString port
      | none => "")
  | none, .segments ("" :: _ :: _) => "/."
  | none, _ => ""

/-- The written form of a path. -/
def pathText (a : Address) : String :=
  match a.path with
  | .plain text => text
  | .segments names => String.join (names.map ("/" ++ ·))

/-- The written form of an address. -/
def text (a : Address) : String :=
  a.scheme ++ ":" ++ a.authority ++ a.pathText ++
    (match a.query with
      | some query => "?" ++ query
      | none => "") ++
    (match a.fragment with
      | some fragment => "#" ++ fragment
      | none => "")

end Address

end SchemaCatalog
