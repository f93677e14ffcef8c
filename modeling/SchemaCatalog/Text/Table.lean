import SchemaCatalog.Text.Percent
import SchemaCatalog.Text.Split

/-!
# Tables of characters

What is known of single characters is written down in tables: texts of entries with blanks
between them, all numbers hexadecimal. A property is a table of ranges, as in `5BE-5F4 608`. A
mapping to other characters is a table of runs, and a run is written in one of three ways:

* `C0-D6:E0`, where the characters from `C0` to `D6` go to those from `E0` on, in order;
* `100=12E:101`, where every second character from `100` to `12E` goes to the one as far from
  `101`;
* `132:69.6A;69.6A`, where `132` and the characters behind it go, in turn, to the texts between
  the semicolons.
-/

namespace SchemaCatalog.Table

/-- The entries of a table. -/
def entries (text : String) : List (List Char) :=
  (splitAt ' ' (text.toList.map fun c => if c = '\n' then ' ' else c)).filter (!·.isEmpty)

/-- A number in hexadecimal. -/
def number (cs : List Char) : Nat :=
  cs.foldl (fun n c => n * 16 + (Percent.digit? c).getD 0) 0

/-! ## Properties -/

/-- The numbers between two, both included. -/
structure Range where
  first : Nat
  last : Nat
  deriving DecidableEq, Repr

/-- Whether a number lies in a range. -/
def Range.contains (r : Range) (n : Nat) : Bool := r.first ≤ n && n ≤ r.last

/-- A range whose ends stand beside a separator; one number alone is both ends. -/
def Range.ofText (sep : Char) (cs : List Char) : Range :=
  match (splitAt sep cs).map number with
  | [first, last] => ⟨first, last⟩
  | numbers => ⟨numbers.headD 0, numbers.headD 0⟩

/-- The ranges of a table. -/
def ranges (text : String) : List Range := (entries text).map (Range.ofText '-')

/-- Whether a character lies in one of some ranges. -/
def covers (rs : List Range) (c : Char) : Bool := rs.any (·.contains c.toNat)

/-! ## Mappings -/

/-- A run of characters and what they go to. -/
inductive Run where
  /-- All characters of a range go to those from `target` on. -/
  | every (range : Range) (target : Nat)
  /-- Every second character of a range goes to the one as far from `target`. -/
  | alternate (range : Range) (target : Nat)
  /-- The characters from `first` on go to the listed texts. -/
  | listed (first : Nat) (targets : List (List Nat))
  deriving Repr

/-- The run of an entry. -/
def Run.ofText (cs : List Char) : Run :=
  match splitAt ':' cs with
  | [source, target] =>
    if source.contains '-' then .every (Range.ofText '-' source) (number target)
    else if source.contains '=' then .alternate (Range.ofText '=' source) (number target)
    else
      .listed (number source) ((splitAt ';' target).map fun text => (splitAt '.' text).map number)
  | _ => .listed 0 []

/-- What a run says of a number. -/
def Run.find? (r : Run) (n : Nat) : Option (List Nat) :=
  match r with
  | .every range target =>
    if range.contains n then some [target + (n - range.first)] else none
  | .alternate range target =>
    if range.contains n && (n - range.first) % 2 == 0 then some [target + (n - range.first)]
    else none
  | .listed first targets => if first ≤ n then targets[n - first]? else none

/-- The runs of a table. -/
def runs (text : String) : List Run := (entries text).map Run.ofText

/-- What a character goes to by some runs. -/
def goesTo? (rs : List Run) (c : Char) : Option (List Char) :=
  (rs.findSome? (·.find? c.toNat)).map (·.map Char.ofNat)

end SchemaCatalog.Table
