import SchemaCatalog.Address.Parser
import SchemaCatalog.Schema.Decode

/-!
# References

A reference is a text that names a place in a document: an address, or a text relative to the
document it stands in. `Address.target` finds the address of the place. The place inside the
document is the fragment with its percent escapes undone; an empty fragment and none at all name
the same place, the document itself, and `Address.place` is the address without the difference.
-/

namespace SchemaCatalog

/-- What is wrong with a reference. -/
inductive ReferenceFault where
  | several
  /-- It is no address. -/
  | address (e : Address.ParseError)
  /-- Its fragment is no text. -/
  | fragment (f : Utf8.Fault)
  deriving DecidableEq, Repr

/-- The text of a fault. -/
def ReferenceFault.message : ReferenceFault → String
  | .several => "a schema may carry only one $ref"
  | .address e => e.message
  | .fragment f => f.message

/-- Why a reference cannot be resolved. -/
inductive ResolveError where
  /-- There is no such document or no such place in it. -/
  | notFound (place : Address)
  /-- The reference has no meaning. -/
  | malformed (reference : String) (fault : ReferenceFault)
  /-- The document is no schema. -/
  | decode (document : Address) (cause : DecodeError)
  /-- More targets are open within one another than the limit allows. -/
  | tooDeep (place : Address)
  deriving DecidableEq, Repr

/-- The text of an error. -/
def ResolveError.message : ResolveError → String
  | .notFound place => "reference not found: " ++ place.text
  | .malformed reference fault =>
    "malformed reference \"" ++ reference ++ "\": " ++ fault.message
  | .decode document cause => "cannot decode " ++ document.text ++ ": " ++ cause.message
  | .tooDeep place => "references nest too deeply at " ++ place.text

namespace Address

/-- The address that a reference names where it stands in the document at `current`. -/
def target (current : Address) (reference : String) : Except ResolveError Address :=
  match parse reference with
  | .ok a => .ok a
  | .error .relativeWithoutBase =>
    match current.withoutFragment.join reference with
    | .ok a => .ok a
    | .error e => .error (.malformed reference (.address e))
  | .error e => .error (.malformed reference (.address e))

/-- The address without an empty fragment. -/
def place (a : Address) : Address :=
  if a.fragment = some "" then a.withoutFragment else a

/-- The fragment of an address, its percent escapes undone. -/
def fragmentText (a : Address) : Except ResolveError String :=
  match Utf8.decode (Percent.decode (a.fragment.getD "").toList) with
  | .ok cs => .ok (String.ofList cs)
  | .error f => .error (.malformed a.text (.fragment f))

@[simp] theorem place_place (a : Address) : a.place.place = a.place := by
  by_cases h : a.fragment = some "" <;> simp [place, h]

@[simp] theorem withoutFragment_place (a : Address) :
    a.place.withoutFragment = a.withoutFragment := by
  by_cases h : a.fragment = some "" <;> simp [place, h]

end Address

end SchemaCatalog
