import SchemaCatalog.Json.Basic
import SchemaCatalog.Json.Token

/-!
# Reading JSON text

Tokens are read one by one by a machine whose state is the value under construction: the
containers still open, innermost first, and what may come next. `Reading.step` is its whole
grammar, so that a text is a JSON value exactly when its tokens drive `Reading.value []` to
`Reading.finished`. At most `depthLimit` containers are open at a time. A member name that comes
again keeps its first place and takes the later value.

`Json.read?` reads characters and `Json.readBytes?` bytes, which must be UTF-8 without a byte
order mark.
-/

namespace SchemaCatalog.Json

/-- A container waiting for the value of one of its places. -/
inductive Frame where
  /-- A list with the items before this one, the last first. -/
  | array (done : List Json)
  /-- An object with the members before this one, and this one's name. -/
  | object (done : OrderedMap String Json) (name : String)

/-- A value under construction; `stack` holds the containers around it, innermost first. -/
inductive Reading where
  /-- A value must come. -/
  | value (stack : List Frame)
  /-- A list was opened: its first item or its end must come. -/
  | firstItem (stack : List Frame)
  /-- An item was read: a comma or the end of the list must come. -/
  | afterItem (done : List Json) (stack : List Frame)
  /-- An object was opened: its first name or its end must come. -/
  | firstName (stack : List Frame)
  /-- A comma was read in an object: a name must come. -/
  | nextName (done : OrderedMap String Json) (stack : List Frame)
  /-- A name was read: its colon must come. -/
  | colon (done : OrderedMap String Json) (name : String) (stack : List Frame)
  /-- A member was read: a comma or the end of the object must come. -/
  | afterMember (done : OrderedMap String Json) (stack : List Frame)
  /-- The whole value was read: nothing may come. -/
  | finished (v : Json)

namespace Reading

/-- The number of containers that may be open at a time. -/
def depthLimit : Nat := 127

/-- Put a complete value where it belongs. -/
def deliver (v : Json) : List Frame → Reading
  | [] => .finished v
  | .array done :: stack => .afterItem (v :: done) stack
  | .object done name :: stack => .afterMember (OrderedMap.insert done name v) stack

/-- The step on a token where a value must come. -/
def start (stack : List Frame) : Token → Option Reading
  | .null => some (deliver .null stack)
  | .bool b => some (deliver (.bool b) stack)
  | .number n => some (deliver (.number n) stack)
  | .string s => some (deliver (.string s) stack)
  | .openArray => if stack.length < depthLimit then some (.firstItem stack) else none
  | .openObject => if stack.length < depthLimit then some (.firstName stack) else none
  | .closeArray | .closeObject | .comma | .colon => none

/-- The grammar of JSON, a token at a time. -/
def step : Reading → Token → Option Reading
  | .value stack, t => start stack t
  | .firstItem stack, .closeArray => some (deliver (.array []) stack)
  | .firstItem stack, t => start (.array [] :: stack) t
  | .afterItem done stack, .comma => some (.value (.array done :: stack))
  | .afterItem done stack, .closeArray => some (deliver (.array done.reverse) stack)
  | .firstName stack, .closeObject => some (deliver (.object []) stack)
  | .firstName stack, .string s => some (.colon [] s stack)
  | .nextName done stack, .string s => some (.colon done s stack)
  | .colon done name stack, .colon => some (.value (.object done name :: stack))
  | .afterMember done stack, .comma => some (.nextName done stack)
  | .afterMember done stack, .closeObject => some (deliver (.object done) stack)
  | _, _ => none

/-- The value of a finished reading. -/
def result? : Reading → Option Json
  | .finished v => some v
  | _ => none

end Reading

/-- The value written by a text. -/
def read? (text : List Char) : Option Json := do
  let tokens ← Token.scan text
  let reading ← tokens.foldlM Reading.step (.value [])
  reading.result?

/-- The value written by a text in UTF-8. -/
def readBytes? (bytes : ByteArray) : Option Json := do
  read? (← String.fromUTF8? bytes).toList

end SchemaCatalog.Json
