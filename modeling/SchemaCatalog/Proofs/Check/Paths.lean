import SchemaCatalog.Proofs.Check.Visits
import SchemaCatalog.Proofs.Resolution.Session
import SchemaCatalog.Proofs.Schema.Likewise
import SchemaCatalog.Proofs.Schema.Pointers

/-!
# The paths of a walk

A walk gives every node it visits a path, and in a tree in which no name comes twice the path leads
from the root back to that node (`Node.find?_of_mem_visits`).  The walk and the look-up agree on
every keyword that holds schemas: the walk writes the name of the keyword and the key or index of
the schema, and the look-up finds the first keyword of the name, which is the only one, and reads
the key or index back.

What a walk adds to the nodes it had found is stated for each of its functions by a relation of
nodes and paths (`Walk.Adds`); the paths of a keyword are those of the schemas in it behind the
segments that lead to them.
-/

namespace SchemaCatalog

namespace Walk

variable {P Q : Node → List String → Prop} {w w₁ w₂ : Walk}

/-- Whether all that a walk has found in addition, with its path, is of a certain kind. -/
def Adds (P : Node → List String → Prop) (w w' : Walk) : Prop :=
  ∀ m path, (m, path) ∈ w'.found → (m, path) ∈ w.found ∨ P m path

namespace Adds

lemma refl : Adds P w w := fun _ _ h => .inl h

lemma trans (h : Adds P w w₁) (h' : Adds P w₁ w₂) : Adds P w w₂ := by
  intro m path hm
  rcases h' m path hm with hm | hm
  · exact h m path hm
  · exact .inr hm

lemma mono (h : Adds P w w₁) (hPQ : ∀ m path, P m path → Q m path) : Adds Q w w₁ :=
  fun m path hm => (h m path hm).imp_right (hPQ m path)

end Adds

/-- Whether a path goes on behind another one to a node that a look-up finds there. -/
def Leads (find : List String → Option Node) (path : List String) (m : Node)
    (whole : List String) : Prop :=
  ∃ rest, whole = path ++ rest ∧ find rest = some m

/-- Whether the walk through a node gives whatever it visits a path that leads there from the
node. -/
def Traced (c : Node) : Prop := ∀ path w, Adds (Leads c.at? path) w (node path c w)

lemma adds_memberList {members : List (String × Node)}
    (h : ∀ c ∈ OrderedMap.values members, Traced c) (path : List String) (w : Walk) :
    Adds (fun m whole => ∃ e ∈ members, Leads e.2.at? (path ++ [e.1]) m whole) w
      (memberList path members w) := by
  induction members generalizing w with
  | nil => exact .refl
  | cons e members ih =>
    obtain ⟨hc, hmembers⟩ := List.forall_mem_cons.1 h
    refine .trans ((hc (path ++ [e.1]) w).mono fun m whole hm => ?_)
      ((ih hmembers _).mono fun m whole ⟨e', he', hm⟩ => ?_)
    · exact ⟨e, List.mem_cons_self, hm⟩
    · exact ⟨e', List.mem_cons_of_mem _ he', hm⟩

lemma adds_schemaList {schemas : List Node} (h : ∀ c ∈ schemas, Traced c) (path : List String)
    (index : Nat) (w : Walk) :
    Adds (fun m whole => ∃ i c, schemas[i]? = some c ∧
        Leads c.at? (path ++ [toString (index + i)]) m whole) w
      (schemaList path index schemas w) := by
  induction schemas generalizing w index with
  | nil => exact .refl
  | cons c schemas ih =>
    obtain ⟨hc, hschemas⟩ := List.forall_mem_cons.1 h
    refine .trans ((hc (path ++ [toString index]) w).mono fun m whole hm => ?_)
      ((ih hschemas (index + 1) _).mono fun m whole ⟨i, d, hd, hm⟩ => ?_)
    · exact ⟨0, c, rfl, hm⟩
    · refine ⟨i + 1, d, hd, ?_⟩
      rwa [Nat.add_right_comm, Nat.add_assoc] at hm

/-- The walk through a keyword gives paths that lead on under it. -/
lemma adds_keyword {k : Keyword} (h : ∀ c ∈ k.nested, Traced c) (hk : k.Comparable)
    (fits : k.nested.length ≤ Nat.pow 2 64) (path : List String) (w : Walk) :
    Adds (Leads (keywordAt? k) (path ++ [k.name])) w (keyword path k w) := by
  cases k with
  | keyed kind members =>
    refine (adds_memberList h (path ++ [kind.name]) w).mono ?_
    rintro m _ ⟨e, he, rest, rfl, hm⟩
    have hget : OrderedMap.get? members e.1 = some e.2 :=
      (OrderedMap.get?_eq_some_iff hk).2 he
    refine ⟨e.1 :: rest, ?_, (keywordAt?_keyed hget rest).trans hm⟩
    simp [Keyword.name]
  | ordered kind schemas =>
    refine (adds_schemaList h (path ++ [kind.name]) 0 w).mono ?_
    rintro m _ ⟨i, c, hc, rest, rfl, hm⟩
    refine ⟨toString i :: rest, ?_, (keywordAt?_ordered hc fits rest).trans hm⟩
    simp [Keyword.name]
  | additionalProperties schema => exact h schema (List.mem_singleton_self schema) _ w
  | ref target => exact .refl
  | facet a => exact .refl

lemma adds_keywordList {ks : List Keyword} (h : ∀ k ∈ ks, ∀ c ∈ k.nested, Traced c)
    (hks : ∀ k ∈ ks, k.Comparable) (fits : ∀ k ∈ ks, k.nested.length ≤ Nat.pow 2 64)
    (path : List String) (w : Walk) :
    Adds (fun m whole => ∃ k ∈ ks, Leads (keywordAt? k) (path ++ [k.name]) m whole) w
      (keywordList path ks w) := by
  induction ks generalizing w with
  | nil => exact .refl
  | cons k ks ih =>
    rw [List.forall_mem_cons] at h hks fits
    refine .trans ((adds_keyword h.1 hks.1 fits.1 path w).mono fun m whole hm => ?_)
      ((ih h.2 hks.2 fits.2 _).mono fun m whole ⟨j, hj, hm⟩ => ?_)
    · exact ⟨k, List.mem_cons_self, hm⟩
    · exact ⟨j, List.mem_cons_of_mem _ hj, hm⟩

/-- The walk through a tree without repeated names gives paths that lead back. -/
theorem traced_of_single {n : Node} (hn : n.Single) (fits : n.IndicesFit) : Traced n := by
  induction n using Node.induction_nested with
  | step n ih =>
    intro path w
    have hnested : ∀ k ∈ n.keywords, ∀ c ∈ k.nested, Traced c :=
      fun k hk c hc => ih k hk c hc (hn.nested hk hc) (fits.nested hk hc)
    rw [node_eq]
    split
    · exact .refl
    have hself : Adds (Leads n.at? path) w (w.visit n path) := by
      intro m whole hm
      rcases List.mem_cons.1 hm with hm | hm
      · obtain ⟨rfl, rfl⟩ := Prod.mk.inj hm
        exact .inr ⟨[], (List.append_nil _).symm, at?_nil m⟩
      · exact .inl hm
    have hbelow : Adds (Leads n.at? path) (w.visit n path)
        (keywordList path n.keywords (w.visit n path)) := by
      refine (adds_keywordList hnested hn.keywords fits.keywords path _).mono ?_
      rintro m _ ⟨k, hk, rest, rfl, hm⟩
      exact ⟨k.name :: rest, by simp, at?_of_mem_keywords hn.names hk hm⟩
    exact hself.trans hbelow

end Walk

namespace Node

/-- In a tree without repeated names a path that a walk gives leads back to the node. -/
lemma at?_of_mem_visits {n m : Node} {path : List String} (hn : n.Single) (fits : n.IndicesFit)
    (hm : (m, path) ∈ n.visits) : n.at? path = some m := by
  rw [visits, List.mem_reverse] at hm
  rcases Walk.traced_of_single hn fits [] {} m path hm with hm | ⟨rest, rfl, hm⟩
  · exact absurd hm List.not_mem_nil
  · exact hm

/-- **The paths that a walk reports lead back.**  A document that is decoded from a value and
registered has nodes with identities of their own.  The walk visits all of them, and the pointer of
the path that it gives to a node leads from the root of the document to that very node. -/
theorem find?_of_mem_visits {v : Json} (distinct : v.hasDistinctNames = true) {n : Node}
    (hn : decode v = .ok n) (fits : n.IndicesFit) (r : Registry) (address : Address) :
    ((r.register address n).1.nodes.map identity).Nodup ∧
      (∀ m, m ∈ (r.register address n).1.nodes ↔
        ∃ path, (m, path) ∈ (r.register address n).1.visits) ∧
      ∀ m path, (m, path) ∈ (r.register address n).1.visits →
        (r.register address n).1.find? (pointer path) = some m ∧
        pointerText path = if path.isEmpty then "/" else pointer path := by
  let raw : Node := { n with base := some address.withoutFragment }
  have hforget : n.forget = (r.register address n).1.forget :=
    (Registry.forget_register r address n).symm
  have hempty : Roster.Below (fun _ => none) r.nextIdentity := nofun
  obtain ⟨W, -, -, hlisted⟩ := exists_listed_label hempty raw
  have hcounted := raw.counted_label r.nextIdentity
  refine ⟨hcounted.nodup_identities, fun m => mem_nodes_iff_visits hlisted, fun m path hm => ?_⟩
  rw [find?_pointer]
  have hsingle := (single_of_decode distinct hn).of_forget hforget
  exact ⟨at?_of_mem_visits hsingle (fits.of_forget hforget) hm, pointerText_eq path⟩

end Node

/-- A schema with a parameter whose name has to be escaped, in JSON. -/
def Json.slashedParameter : Json :=
  .object [("parameters", .array [.object
    [("name", .string "a/b~"), ("items", .array [.bool true])]])]

/-- A schema with a parameter whose name has to be escaped. -/
def Node.slashedParameter : Node :=
  .ofKeywords [.keyed .parameters [("a/b~", .ofKeywords
    [.facet (.unrecognized "name" (.string "a/b~")), .ordered .items [.ofBool true]])]]

/-- The path to the listed schema of a parameter. -/
theorem Node.find?_of_mem_visits_slashedParameter :
    decode .slashedParameter = .ok .slashedParameter ∧
      ∃ m, (m, ["parameters", "a/b~", "items", "0"]) ∈
          (Registry.register {} (.inMemory "") .slashedParameter).1.visits ∧
        (Registry.register {} (.inMemory "") .slashedParameter).1.find?
          "/parameters/a~1b~0/items/0" = some m := by
  have hdecode : decode .slashedParameter = .ok .slashedParameter := by cbv
  have hvisited : ∃ m, (m, ["parameters", "a/b~", "items", "0"]) ∈
      (Registry.register {} (.inMemory "") .slashedParameter).1.visits := by
    have hindex : Nat.repr 0 = "0" := rfl
    simp [slashedParameter, visits, Registry.register, ofKeywords, ofBool, label, labelKeywords,
      labelKeyword, labelMembers, labelSchemas, Walk.node, Walk.keywordList, Walk.keyword,
      Walk.memberList, Walk.schemaList, Walk.visit, Walk.visited, KeyedKind.name,
      OrderedKind.name, hindex]
  obtain ⟨-, -, hlead⟩ :=
    find?_of_mem_visits (by decide +kernel) hdecode (by decide +kernel) {} (.inMemory "")
  obtain ⟨m, hm⟩ := hvisited
  exact ⟨hdecode, m, hm, (hlead m _ hm).1⟩

end SchemaCatalog
