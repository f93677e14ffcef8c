import SchemaCatalog.Check.Walk
import SchemaCatalog.Proofs.Registry.Identities

/-!
# What a walk visits

A walk leaves out a node whose identity it has met, and with it the whole tree below.  In a tree
that is listed in a roster the node it has met is the same one, so nothing is missed: the nodes of
the tree are visited, and no others (`Node.mem_nodes_iff_visits`).

The invariant is about a walk and a later stage of it.  All the nodes that the walk is to go
through are found there, and so are the schemas below all that was found in between; what was
found before may have schemas whose turn is yet to come (`Walk.Covers`).
-/

namespace SchemaCatalog

namespace Walk

variable {W : Roster} {w w₁ w₂ : Walk}

/-- Whether a node was found. -/
def Found (w : Walk) (c : Node) : Prop := ∃ path, (c, path) ∈ w.found

/-- Whether an identity was met only if the node that it stands for was found. -/
def Sound (W : Roster) (w : Walk) : Prop :=
  ∀ i, w.seen.contains i = true → ∃ c, W i = some c ∧ w.Found c

/-- Whether a walk has gone on through some nodes. -/
structure Covers (W : Roster) (w w' : Walk) (ns : List Node) : Prop where
  sound : w'.Sound W
  kept : ∀ c, w.Found c → w'.Found c
  roots : ∀ n ∈ ns, w'.Found n
  inside : ∀ c, w'.Found c → w.Found c ∨ ∃ n ∈ ns, c ∈ n.nodes
  closed : ∀ c, w'.Found c → w.Found c ∨ ∀ k ∈ c.keywords, ∀ d ∈ k.nested, w'.Found d

namespace Covers

variable {ns ms : List Node}

lemma refl (h : w.Sound W) : Covers W w w [] where
  sound := h
  kept _ hc := hc
  roots _ hn := absurd hn List.not_mem_nil
  inside _ hc := .inl hc
  closed _ hc := .inl hc

lemma trans (h : Covers W w w₁ ns) (h' : Covers W w₁ w₂ ms) : Covers W w w₂ (ns ++ ms) where
  sound := h'.sound
  kept c hc := h'.kept c (h.kept c hc)
  roots n hn := by
    rcases List.mem_append.1 hn with hn | hn
    · exact h'.kept n (h.roots n hn)
    · exact h'.roots n hn
  inside c hc := by
    rcases h'.inside c hc with hc | ⟨n, hn, hc⟩
    · rcases h.inside c hc with hc | ⟨n, hn, hc⟩
      · exact .inl hc
      · exact .inr ⟨n, List.mem_append_left _ hn, hc⟩
    · exact .inr ⟨n, List.mem_append_right _ hn, hc⟩
  closed c hc := by
    rcases h'.closed c hc with hc | hclosed
    · rcases h.closed c hc with hc | hclosed
      · exact .inl hc
      · exact .inr fun k hk d hd => h'.kept d (hclosed k hk d hd)
    · exact .inr hclosed

end Covers

/-! ## One node -/

lemma node_eq (path : List String) (n : Node) (w : Walk) : node path n w =
    if w.visited n then w else keywordList path n.keywords (w.visit n path) := by
  cases n
  rfl

lemma found_visit {n c : Node} {path : List String} :
    (w.visit n path).Found c ↔ c = n ∨ w.Found c := by
  simp only [Found, visit, List.mem_cons, Prod.mk.injEq, exists_or, exists_and_left]
  simp

/-- In a listed tree a node whose identity was met was found. -/
lemma Sound.found_of_visited (h : w.Sound W) {n : Node} (hn : n.Listed W)
    (hvisited : w.visited n = true) : w.Found n := by
  unfold visited at hvisited
  split at hvisited
  case h_2 => cases hvisited
  case h_1 i hi =>
    obtain ⟨c, hc, hfound⟩ := h i hvisited
    rw [hn n n.self_mem_nodes i hi] at hc
    exact Option.some.inj hc ▸ hfound

lemma Sound.visit (h : w.Sound W) {n : Node} (hn : n.Listed W) (path : List String) :
    (w.visit n path).Sound W := by
  intro i hi
  have before (hi : w.seen.contains i = true) : ∃ c, W i = some c ∧ (w.visit n path).Found c := by
    obtain ⟨c, hc, hfound⟩ := h i hi
    exact ⟨c, hc, found_visit.2 (.inr hfound)⟩
  unfold Walk.visit at hi
  dsimp only at hi
  split at hi
  case h_2 => exact before hi
  case h_1 j hj =>
    rw [Std.HashSet.contains_insert, Bool.or_eq_true, beq_iff_eq] at hi
    rcases hi with rfl | hi
    · exact ⟨n, hn n n.self_mem_nodes j hj, found_visit.2 (.inl rfl)⟩
    · exact before hi

/-- Whether the walk through a node covers it, wherever it is found. -/
def Passes (W : Roster) (c : Node) : Prop :=
  ∀ path w, w.Sound W → Covers W w (node path c w) [c]

/-! ## Trees -/

lemma covers_memberList {members : List (String × Node)}
    (h : ∀ c ∈ OrderedMap.values members, Passes W c) (path : List String) (hw : w.Sound W) :
    Covers W w (memberList path members w) (OrderedMap.values members) := by
  induction members generalizing w with
  | nil => exact .refl hw
  | cons e members ih =>
    obtain ⟨hc, hmembers⟩ := List.forall_mem_cons.1 h
    have hfirst := hc (path ++ [e.1]) w hw
    exact hfirst.trans (ih hmembers hfirst.sound)

lemma covers_schemaList {schemas : List Node} (h : ∀ c ∈ schemas, Passes W c)
    (path : List String) (index : Nat) (hw : w.Sound W) :
    Covers W w (schemaList path index schemas w) schemas := by
  induction schemas generalizing w index with
  | nil => exact .refl hw
  | cons c schemas ih =>
    obtain ⟨hc, hschemas⟩ := List.forall_mem_cons.1 h
    have hfirst := hc (path ++ [toString index]) w hw
    exact hfirst.trans (ih hschemas (index + 1) hfirst.sound)

lemma covers_keyword {k : Keyword} (h : ∀ c ∈ k.nested, Passes W c) (path : List String)
    (hw : w.Sound W) : Covers W w (keyword path k w) k.nested := by
  cases k with
  | keyed kind members => exact covers_memberList h (path ++ [kind.name]) hw
  | ordered kind schemas => exact covers_schemaList h (path ++ [kind.name]) 0 hw
  | additionalProperties schema => exact h schema (List.mem_singleton_self _) _ w hw
  | ref target => exact .refl hw
  | facet a => exact .refl hw

lemma covers_keywordList {ks : List Keyword} (h : ∀ k ∈ ks, ∀ c ∈ k.nested, Passes W c)
    (path : List String) (hw : w.Sound W) :
    Covers W w (keywordList path ks w) (ks.flatMap Keyword.nested) := by
  induction ks generalizing w with
  | nil => exact .refl hw
  | cons k ks ih =>
    obtain ⟨hk, hks⟩ := List.forall_mem_cons.1 h
    have hfirst := covers_keyword hk path hw
    exact hfirst.trans (ih hks hfirst.sound)

/-- The walk through a listed tree covers it. -/
theorem passes_of_listed {n : Node} (hn : n.Listed W) : Passes W n := by
  induction n using Node.induction_nested with
  | step n ih =>
    intro path w hw
    have hnested : ∀ k ∈ n.keywords, ∀ c ∈ k.nested, Passes W c :=
      fun k hk c hc => ih k hk c hc (hn.nested hk hc)
    have hbelow := covers_keywordList hnested path (hw.visit hn path)
    rw [node_eq]
    split
    case isTrue hvisited =>
      have hfound := hw.found_of_visited hn hvisited
      exact ⟨hw, fun _ hc => hc, fun c hc => List.mem_singleton.1 hc ▸ hfound, fun _ hc => .inl hc,
        fun _ hc => .inl hc⟩
    case isFalse =>
      have hself : (keywordList path n.keywords (w.visit n path)).Found n :=
        hbelow.kept n (found_visit.2 (.inl rfl))
      refine ⟨hbelow.sound, fun c hc => hbelow.kept c (found_visit.2 (.inr hc)),
        fun c hc => List.mem_singleton.1 hc ▸ hself, fun c hc => ?_, fun c hc => ?_⟩
      · rcases hbelow.inside c hc with hc | ⟨d, hd, hc⟩
        · rcases found_visit.1 hc with rfl | hc
          · exact .inr ⟨c, List.mem_singleton_self c, c.self_mem_nodes⟩
          · exact .inl hc
        · obtain ⟨k, hk, hd⟩ := List.mem_flatMap.1 hd
          exact .inr ⟨n, List.mem_singleton_self n, Node.mem_nodes_of_nested hk hd hc⟩
      · rcases hbelow.closed c hc with hc | hclosed
        · rcases found_visit.1 hc with rfl | hc
          · exact .inr fun k hk d hd => hbelow.roots d (List.mem_flatMap.2 ⟨k, hk, hd⟩)
          · exact .inl hc
        · exact .inr hclosed

end Walk

/-- **The nodes of a listed tree are visited, and no others.** -/
theorem Node.mem_nodes_iff_visits {W : Roster} {n : Node} (hn : n.Listed W) {c : Node} :
    c ∈ n.nodes ↔ ∃ path, (c, path) ∈ n.visits := by
  have hempty : Walk.Sound W {} := by
    intro i hi
    simp at hi
  have hcovers := Walk.passes_of_listed hn [] {} hempty
  have hnothing (d : Node) : ¬ Walk.Found {} d := by
    rintro ⟨path, hpath⟩
    exact absurd hpath List.not_mem_nil
  have hbelow : ∀ d, (Walk.node [] n {}).Found d → ∀ c ∈ d.nodes, (Walk.node [] n {}).Found c := by
    intro d hd c hc
    induction d using Node.induction_nested with
    | step d ih =>
      rcases Node.mem_nodes.1 hc with rfl | ⟨k, hk, e, he, hc⟩
      · exact hd
      · have hclosed := (hcovers.closed d hd).resolve_left (hnothing d)
        exact ih k hk e he (hclosed k hk e he) hc
  unfold visits
  simp only [List.mem_reverse]
  constructor
  · exact fun hc => hbelow n (hcovers.roots n (List.mem_singleton_self n)) c hc
  · intro hc
    obtain ⟨m, hm, hc⟩ := (hcovers.inside c hc).resolve_left (hnothing c)
    exact List.mem_singleton.1 hm ▸ hc

end SchemaCatalog
