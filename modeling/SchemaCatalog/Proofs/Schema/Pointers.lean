import SchemaCatalog.Check.Walk
import SchemaCatalog.Proofs.Schema.Places

/-!
# Pointers of paths

A path is written as a pointer with a slash before each segment and the slashes and tildes inside
the segments escaped, and reading the pointer gives the path back whatever its segments are
(`pointerSegments?_pointer`): no slash is left in an escaped segment, so those of the pointer are
the ones between the segments.

An index is a decimal number, and it is read back as long as it fits 64 bits (`index?_toString`).
The indices of lists in memory do; of the lists here, which may be of any length, it is asked
(`Node.IndicesFit`).  No keyword of the vocabulary looks like an index (`index?_name`), so where a
path passes the only schema of a list without an index, the keyword that comes next is not taken
for one.
-/

namespace SchemaCatalog

/-! ## Escapes -/

@[simp] lemma unescapeSegment_escapeSegment (cs : List Char) :
    unescapeSegment (escapeSegment cs) = cs := by
  induction cs with
  | nil => rfl
  | cons c cs ih =>
    by_cases htilde : c = '~'
    · simp [escapeSegment, unescapeSegment, htilde, ih]
    by_cases hslash : c = '/'
    · simp [escapeSegment, unescapeSegment, hslash, ih]
    · simp [escapeSegment, unescapeSegment, htilde, hslash, ih]

lemma slash_notMem_escapeSegment (cs : List Char) : '/' ∉ escapeSegment cs := by
  induction cs with
  | nil => exact List.not_mem_nil
  | cons c cs ih =>
    unfold escapeSegment
    split
    · simp [ih]
    · split
      · simp [ih]
      case isFalse hslash => simp [ih, Ne.symm hslash]

/-! ## Slashes -/

lemma splitSlashes_of_notMem {part : List Char} (h : '/' ∉ part) : splitSlashes part = [part] := by
  induction part with
  | nil => rfl
  | cons c part ih =>
    obtain ⟨hc, hpart⟩ := not_or.1 (mt List.mem_cons.2 h)
    simp [splitSlashes, Ne.symm hc, ih hpart]

lemma splitSlashes_append {part : List Char} (h : '/' ∉ part) (rest : List Char) :
    splitSlashes (part ++ '/' :: rest) = part :: splitSlashes rest := by
  induction part with
  | nil => simp [splitSlashes]
  | cons c part ih =>
    obtain ⟨hc, hpart⟩ := not_or.1 (mt List.mem_cons.2 h)
    simp [splitSlashes, Ne.symm hc, ih hpart]

/-! ## Pointers -/

/-- A path as a pointer, that of the root being empty. -/
def pointer (path : List String) : String :=
  String.join (path.map fun s => "/" ++ String.ofList (escapeSegment s.toList))

/-- Reports print a path as its pointer, that of the root apart. -/
lemma pointerText_eq (path : List String) :
    pointerText path = if path.isEmpty then "/" else pointer path := rfl

lemma toList_pointer_cons (segment : String) (path : List String) :
    (pointer (segment :: path)).toList =
      '/' :: (escapeSegment segment.toList ++ (pointer path).toList) := by
  simp [pointer, String.join_cons]

/-- The parts of a pointer between its slashes are the escaped segments. -/
lemma splitSlashes_pointer (segment : String) (path : List String) :
    splitSlashes (escapeSegment segment.toList ++ (pointer path).toList) =
      (segment :: path).map fun s => escapeSegment s.toList := by
  induction path generalizing segment with
  | nil =>
    simpa [pointer] using splitSlashes_of_notMem (slash_notMem_escapeSegment segment.toList)
  | cons next path ih =>
    rw [toList_pointer_cons, splitSlashes_append (slash_notMem_escapeSegment _), ih next]
    rfl

theorem pointerSegments?_pointer (path : List String) :
    pointerSegments? (pointer path) = some path := by
  cases path with
  | nil => rfl
  | cons segment path =>
    simp only [pointerSegments?, toList_pointer_cons, splitSlashes_pointer, List.map_map,
      Function.comp_def, unescapeSegment_escapeSegment, String.ofList_toList, List.map_id']

lemma Node.find?_pointer (n : Node) (path : List String) : n.find? (pointer path) = n.at? path := by
  rw [Node.find?, pointerSegments?_pointer]
  rfl

/-! ## Indices -/

lemma index?_toString {i : Nat} (h : i < Nat.pow 2 64) : index? (toString i) = some i := by
  have hvalue : (Nat.toDigits 10 i).foldl (fun n c => n * 10 + (c.toNat - '0'.toNat)) 0 = i := by
    simpa only [Nat.ofDigitChars_eq_foldl, Nat.mul_comm] using
      Nat.ofDigitChars_ten_toDigits (n := i)
  have hdigits : ∀ c ∈ Nat.toDigits 10 i, c.isDigit = true :=
    fun c hc => Nat.isDigit_of_mem_toDigits (by decide) (by decide) hc
  have hall : (Nat.toDigits 10 i).all Char.isDigit = true := List.all_eq_true.2 hdigits
  have hsome : (Nat.toDigits 10 i).isEmpty = false := List.isEmpty_eq_false_iff.2 Nat.toDigits_ne_nil
  simp only [index?, Nat.toString_eq_ofList_toDigits, String.toList_ofList]
  split
  case h_1 cs htext => exact absurd (hdigits '+' (htext ▸ List.mem_cons_self)) (by decide)
  case h_2 =>
    simp only [hsome, hall, hvalue, h, Bool.not_true, Bool.or_false, Bool.false_eq_true, if_true,
      if_false]

/-- No keyword of the vocabulary looks like an index. -/
lemma index?_name (t : Term) : index? t.name = none := by
  rcases t with ⟨⟨⟩⟩ | ⟨⟨⟩⟩ | _ | _ | _ | _ | _ | _ | ⟨⟨⟩⟩ | ⟨⟨⟩⟩ | ⟨⟨⟩⟩ | _ | ⟨⟨⟩⟩ | ⟨⟨⟩⟩ | _ <;>
    decide +kernel

/-! ## Places under a keyword -/

variable {n c : Node}

/-- Behind its key a path goes on in the schema under the key. -/
lemma keywordAt?_keyed {kind : KeyedKind} {members : List (String × Node)} {key : String}
    (hc : OrderedMap.get? members key = some c) (rest : List String) :
    keywordAt? (.keyed kind members) (key :: rest) = c.at? rest := by
  rw [keywordAt?, memberAt?_eq, hc, Option.bind_some]

/-- Behind its index a path goes on in the schema that has the index. -/
lemma keywordAt?_ordered {kind : OrderedKind} {schemas : List Node} {i : Nat}
    (hc : schemas[i]? = some c) (fits : schemas.length ≤ Nat.pow 2 64) (rest : List String) :
    keywordAt? (.ordered kind schemas) (toString i :: rest) = c.at? rest := by
  obtain ⟨hlt, -⟩ := List.getElem?_eq_some_iff.1 hc
  simp only [keywordAt?, index?_toString (Nat.lt_of_lt_of_le hlt fits), schemaAt?_eq, hc,
    Option.bind_some]

namespace Node

/-- Whether 64 bits can count the schemas of every keyword of a tree, as they can in memory. -/
def IndicesFit (n : Node) : Prop :=
  ∀ c ∈ n.nodes, ∀ k ∈ c.keywords, k.nested.length ≤ Nat.pow 2 64

instance (n : Node) : Decidable n.IndicesFit := by
  unfold IndicesFit
  infer_instance

lemma IndicesFit.keywords (h : n.IndicesFit) :
    ∀ k ∈ n.keywords, k.nested.length ≤ Nat.pow 2 64 := h n n.self_mem_nodes

lemma IndicesFit.nested (h : n.IndicesFit) {k : Keyword} (hk : k ∈ n.keywords)
    (hc : c ∈ k.nested) : c.IndicesFit :=
  fun d hd => h d (mem_nodes_of_nested hk hc hd)

lemma IndicesFit.of_forget (h : n.IndicesFit) (hforget : n.forget = c.forget) : c.IndicesFit := by
  intro d hd k hk
  obtain ⟨d', hd', hdd'⟩ := exists_mem_nodes hforget.symm hd
  obtain ⟨k', hk', hkk'⟩ := Keyword.exists_rel_of_mem (related_of_forget hdd').flip hk
  rw [← hkk'.nested.length_eq]
  exact h d' hd' k' hk'

end Node

end SchemaCatalog
