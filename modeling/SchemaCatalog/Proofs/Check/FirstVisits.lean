import SchemaCatalog.Proofs.Check.Visits
import SchemaCatalog.Proofs.Resolution.Identified
import SchemaCatalog.Proofs.Resolution.Session
import SchemaCatalog.Schema.Equality

/-!
# A walk visits each node once, where it first comes

Without shared nodes a walk would go through a tree along every path.  `Node.occurrences` lists what
it would come across: a node stands there once for each path that leads to it, in the order of the
walk.  The walk visits the first occurrence of each node and no other (`Visits.firsts`).

When the walk comes to a node that it has visited, it leaves out all that is below, and it may do so
only if all that was visited before.  That is not so of every visited node: the nodes that the walk
is inside of were visited, and below them there is more to come.  But these are higher than the node
the walk is at, so the invariant is about visited nodes up to a height (`Walk.Settled`).  It follows
that walking through a tree is to look at each occurrence in turn and to visit what was not met
(`Walk.replays_of_listed`).
-/

namespace SchemaCatalog

/-! ## Occurrences -/

namespace Node

mutual

/-- The nodes of a tree that is found at a path, each as often as paths lead to it, with these
paths. -/
def occurrences (path : List String) : Node → List (Node × List String)
  | ⟨identity, truth, base, keywords⟩ =>
    (⟨identity, truth, base, keywords⟩, path) :: keywordsOccurrences path keywords

/-- The nodes below keywords of the node at a path, with their paths. -/
def keywordsOccurrences (path : List String) : List Keyword → List (Node × List String)
  | [] => []
  | k :: ks => keywordOccurrences path k ++ keywordsOccurrences path ks

/-- The nodes below a keyword of the node at a path, with their paths. -/
def keywordOccurrences (path : List String) : Keyword → List (Node × List String)
  | .keyed kind members => membersOccurrences (path ++ [kind.name]) members
  | .ordered kind schemas => schemasOccurrences (path ++ [kind.name]) 0 schemas
  | .additionalProperties schema => schema.occurrences (path ++ ["additionalProperties"])
  | .ref _ => []
  | .facet _ => []

/-- The nodes of named schemas of the keyword at a path, with their paths. -/
def membersOccurrences (path : List String) : List (String × Node) → List (Node × List String)
  | [] => []
  | (name, n) :: members => n.occurrences (path ++ [name]) ++ membersOccurrences path members

/-- The nodes of listed schemas of the keyword at a path, from an index on, with their paths. -/
def schemasOccurrences (path : List String) (index : Nat) : List Node → List (Node × List String)
  | [] => []
  | n :: schemas =>
    n.occurrences (path ++ [toString index]) ++ schemasOccurrences path (index + 1) schemas

end

lemma occurrences_eq (n : Node) (path : List String) :
    n.occurrences path = (n, path) :: keywordsOccurrences path n.keywords := by
  cases n
  rw [occurrences]

/-- Whether the nodes that occur in a tree are the nodes of the tree, wherever it is found. -/
def OccursAsNodes (c : Node) : Prop := ∀ path, (c.occurrences path).map Prod.fst = c.nodes

lemma map_fst_membersOccurrences {members : List (String × Node)}
    (h : ∀ c ∈ OrderedMap.values members, c.OccursAsNodes) (path : List String) :
    (membersOccurrences path members).map Prod.fst = membersNodes members := by
  induction members with
  | nil => rfl
  | cons e members ih =>
    obtain ⟨hc, hmembers⟩ := List.forall_mem_cons.1 h
    rw [membersOccurrences, membersNodes, List.map_append, hc, ih hmembers]

lemma map_fst_schemasOccurrences {schemas : List Node} (h : ∀ c ∈ schemas, c.OccursAsNodes)
    (path : List String) (index : Nat) :
    (schemasOccurrences path index schemas).map Prod.fst = schemasNodes schemas := by
  induction schemas generalizing index with
  | nil => rfl
  | cons c schemas ih =>
    obtain ⟨hc, hschemas⟩ := List.forall_mem_cons.1 h
    rw [schemasOccurrences, schemasNodes, List.map_append, hc, ih hschemas]

lemma map_fst_keywordOccurrences {k : Keyword} (h : ∀ c ∈ k.nested, c.OccursAsNodes)
    (path : List String) : (keywordOccurrences path k).map Prod.fst = keywordNodes k := by
  cases k with
  | keyed kind members => exact map_fst_membersOccurrences h _
  | ordered kind schemas => exact map_fst_schemasOccurrences h _ 0
  | additionalProperties schema => exact h schema (List.mem_singleton_self schema) _
  | ref target => rfl
  | facet a => rfl

lemma map_fst_keywordsOccurrences {ks : List Keyword}
    (h : ∀ k ∈ ks, ∀ c ∈ k.nested, c.OccursAsNodes) (path : List String) :
    (keywordsOccurrences path ks).map Prod.fst = keywordsNodes ks := by
  induction ks with
  | nil => rfl
  | cons k ks ih =>
    obtain ⟨hk, hks⟩ := List.forall_mem_cons.1 h
    rw [keywordsOccurrences, keywordsNodes, List.map_append, map_fst_keywordOccurrences hk, ih hks]

theorem map_fst_occurrences (n : Node) : n.OccursAsNodes := by
  induction n using induction_nested with
  | step n ih =>
    intro path
    rw [occurrences_eq, List.map_cons, map_fst_keywordsOccurrences ih]
    cases n
    rw [nodes]

lemma exists_occurrence {n c : Node} (hc : c ∈ n.nodes) (path : List String) :
    ∃ v ∈ n.occurrences path, v.1 = c := by
  rw [← n.map_fst_occurrences path] at hc
  exact List.mem_map.1 hc

lemma mem_nodes_of_occurrence {n : Node} {path : List String} {v : Node × List String}
    (hv : v ∈ n.occurrences path) : v.1 ∈ n.nodes := by
  rw [← n.map_fst_occurrences path]
  exact List.mem_map_of_mem hv

end Node

namespace Walk

variable {W : Roster} {w w' : Walk} {H : Nat} {n c : Node} {path : List String}
variable {v : Node × List String} {vs : List (Node × List String)}

/-! ## Meeting nodes -/

/-- The walk that comes across a node at a path, and visits it unless it was met. -/
def meet (w : Walk) (v : Node × List String) : Walk :=
  if w.visited v.1 then w else w.visit v.1 v.2

lemma visited_congr (h : n.identity = c.identity) : w.visited n = w.visited c := by
  unfold visited
  rw [h]

/-- The nodes visited are those of before and those of the identity of the one that is. -/
lemma visited_visit_iff (hn : n.identity ≠ none) (hc : c.identity ≠ none) :
    (w.visit n path).visited c = true ↔ w.visited c = true ∨ n.identity = c.identity := by
  obtain ⟨i, hi⟩ := Option.ne_none_iff_exists'.1 hn
  obtain ⟨j, hj⟩ := Option.ne_none_iff_exists'.1 hc
  unfold visited visit
  dsimp only
  rw [hi, hj]
  dsimp only
  rw [Std.HashSet.contains_insert, Bool.or_eq_true, beq_iff_eq, or_comm, Option.some.injEq]

lemma visited_meet_iff (hv : v.1.identity ≠ none) (hc : c.identity ≠ none) :
    (w.meet v).visited c = true ↔ w.visited c = true ∨ v.1.identity = c.identity := by
  unfold meet
  split
  · next hvisited =>
    refine ⟨.inl, fun h => h.elim id fun heq => ?_⟩
    rwa [← visited_congr heq]
  · exact visited_visit_iff hv hc

lemma visited_foldl_meet_iff (hvs : ∀ v ∈ vs, v.1.identity ≠ none) (hc : c.identity ≠ none) :
    (vs.foldl meet w).visited c = true ↔
      w.visited c = true ∨ ∃ v ∈ vs, v.1.identity = c.identity := by
  induction vs generalizing w with
  | nil => simp
  | cons v vs ih =>
    obtain ⟨hv, hvs⟩ := List.forall_mem_cons.1 hvs
    rw [List.foldl_cons, ih hvs, visited_meet_iff hv hc, or_assoc, List.exists_mem_cons_iff]

lemma foldl_meet_of_visited (h : ∀ v ∈ vs, w.visited v.1 = true) : vs.foldl meet w = w := by
  induction vs with
  | nil => rfl
  | cons v vs ih =>
    obtain ⟨hv, hvs⟩ := List.forall_mem_cons.1 h
    rw [List.foldl_cons, meet, if_pos hv, ih hvs]

/-! ## Walks through trees -/

/-- Whether, of all visited nodes up to a height, what is below was visited as well. -/
def Settled (W : Roster) (H : Nat) (w : Walk) : Prop :=
  ∀ c : Node, c.Listed W → c.Identified → c.height ≤ H → w.visited c = true →
    ∀ d ∈ c.nodes, w.visited d = true

lemma Settled.mono (h : Settled W H w) {H' : Nat} (hle : H' ≤ H) : Settled W H' w :=
  fun c hlisted hidentified hheight => h c hlisted hidentified (hheight.trans hle)

/-- Coming across all nodes of a tree leaves no visited node of it with more to come. -/
lemma Settled.foldl_occurrences (h : Settled W H w) (listed : n.Listed W)
    (identified : n.Identified) (path : List String) :
    Settled W H ((n.occurrences path).foldl meet w) := by
  have hall : ∀ v ∈ n.occurrences path, v.1.identity ≠ none := fun v hv =>
    identified v.1 (Node.mem_nodes_of_occurrence hv)
  intro c hlisted hidentified hheight hvisited d hd
  rw [visited_foldl_meet_iff hall (hidentified d hd)]
  rcases (visited_foldl_meet_iff hall hidentified.self).1 hvisited with hbefore | ⟨v, hv, hvc⟩
  · exact .inl (h c hlisted hidentified hheight hbefore d hd)
  · have hmem : v.1 ∈ n.nodes := Node.mem_nodes_of_occurrence hv
    have heq : v.1 = c :=
      (listed.of_mem_nodes hmem).eq_of_identity_eq hlisted hidentified.self hvc
    obtain ⟨u, hu, hud⟩ := Node.exists_occurrence (Node.mem_nodes_trans (heq ▸ hmem) hd) path
    exact .inr ⟨u, hu, congrArg Node.identity hud⟩

lemma Settled.visit (h : Settled W n.height w) (listed : n.Listed W) (identified : n.Identified)
    (hlt : H < n.height) (path : List String) : Settled W H (w.visit n path) := by
  intro c hlisted hidentified hheight hvisited d hd
  rw [visited_visit_iff identified.self (hidentified d hd)]
  rcases (visited_visit_iff identified.self hidentified.self).1 hvisited with hbefore | hnc
  · exact .inl (h c hlisted hidentified (by omega) hbefore d hd)
  · obtain rfl := listed.eq_of_identity_eq hlisted hidentified.self hnc
    omega

/-- Whether walking through a tree, where all visited nodes up to a height are settled, is to meet
what occurs in it and leaves them settled. -/
def Replays (W : Roster) (H : Nat) (c : Node) : Prop :=
  ∀ path w, Settled W H w → node path c w = (c.occurrences path).foldl meet w ∧
    Settled W H (node path c w)

lemma replays_memberList {members : List (String × Node)}
    (h : ∀ c ∈ OrderedMap.values members, Replays W H c) (path : List String)
    (hw : Settled W H w) :
    memberList path members w = (Node.membersOccurrences path members).foldl meet w ∧
      Settled W H (memberList path members w) := by
  induction members generalizing w with
  | nil => exact ⟨rfl, hw⟩
  | cons e members ih =>
    obtain ⟨hc, hmembers⟩ := List.forall_mem_cons.1 h
    obtain ⟨hfirst, hsettled⟩ := hc (path ++ [e.1]) w hw
    rw [memberList, Node.membersOccurrences, List.foldl_append, ← hfirst]
    exact ih hmembers hsettled

lemma replays_schemaList {schemas : List Node} (h : ∀ c ∈ schemas, Replays W H c)
    (path : List String) (index : Nat) (hw : Settled W H w) :
    schemaList path index schemas w =
        (Node.schemasOccurrences path index schemas).foldl meet w ∧
      Settled W H (schemaList path index schemas w) := by
  induction schemas generalizing w index with
  | nil => exact ⟨rfl, hw⟩
  | cons c schemas ih =>
    obtain ⟨hc, hschemas⟩ := List.forall_mem_cons.1 h
    obtain ⟨hfirst, hsettled⟩ := hc (path ++ [toString index]) w hw
    rw [schemaList, Node.schemasOccurrences, List.foldl_append, ← hfirst]
    exact ih hschemas (index + 1) hsettled

lemma replays_keyword {k : Keyword} (h : ∀ c ∈ k.nested, Replays W H c) (path : List String)
    (hw : Settled W H w) :
    keyword path k w = (Node.keywordOccurrences path k).foldl meet w ∧
      Settled W H (keyword path k w) := by
  cases k with
  | keyed kind members => exact replays_memberList h (path ++ [kind.name]) hw
  | ordered kind schemas => exact replays_schemaList h (path ++ [kind.name]) 0 hw
  | additionalProperties schema => exact h schema (List.mem_singleton_self schema) _ w hw
  | ref target => exact ⟨rfl, hw⟩
  | facet a => exact ⟨rfl, hw⟩

lemma replays_keywordList {ks : List Keyword} (h : ∀ k ∈ ks, ∀ c ∈ k.nested, Replays W H c)
    (path : List String) (hw : Settled W H w) :
    keywordList path ks w = (Node.keywordsOccurrences path ks).foldl meet w ∧
      Settled W H (keywordList path ks w) := by
  induction ks generalizing w with
  | nil => exact ⟨rfl, hw⟩
  | cons k ks ih =>
    obtain ⟨hk, hks⟩ := List.forall_mem_cons.1 h
    obtain ⟨hfirst, hsettled⟩ := replays_keyword hk path hw
    rw [keywordList, Node.keywordsOccurrences, List.foldl_append, ← hfirst]
    exact ih hks hsettled

/-- **To walk through a tree is to meet what occurs in it.** -/
theorem replays_of_listed (listed : n.Listed W) (identified : n.Identified) (hH : n.height ≤ H) :
    Replays W H n := by
  induction n using Node.induction_nested generalizing H with
  | step n ih =>
    intro path w hw
    suffices hmeet : node path n w = (n.occurrences path).foldl meet w by
      exact ⟨hmeet, hmeet ▸ hw.foldl_occurrences listed identified path⟩
    rw [node_eq]
    split
    · next hvisited =>
      refine (foldl_meet_of_visited fun v hv => ?_).symm
      exact hw n listed identified hH hvisited v.1 (Node.mem_nodes_of_occurrence hv)
    · next hnew =>
      -- the node itself is not settled until the walk has gone through all that is below
      have hlower : n.height = Node.keywordsHeight n.keywords + 1 := Node.height_eq n
      have hbelow : ∀ k ∈ n.keywords, ∀ c ∈ k.nested,
          Replays W (Node.keywordsHeight n.keywords) c := fun k hk c hc =>
        ih k hk c hc (listed.nested hk hc) (identified.nested hk hc)
          (Node.all_height_le (Nat.le_of_eq hlower) k hk c hc)
      have hsettled : Settled W (Node.keywordsHeight n.keywords) (w.visit n path) :=
        (hw.mono hH).visit listed identified (by omega) path
      rw [(replays_keywordList hbelow path hsettled).1, Node.occurrences_eq, List.foldl_cons, meet,
        if_neg hnew]

/-! ## First occurrences -/

/-- Whether some places are, in order, the first ones in a list at which a node of each identity
stands. -/
structure Firsts (vs firsts : List (Node × List String)) : Prop where
  sublist : firsts.Sublist vs
  nodup : (firsts.map (·.1.identity)).Nodup
  complete : ∀ v ∈ vs, ∃ u ∈ firsts, u.1.identity = v.1.identity
  first : ∀ u ∈ firsts, ∃ before after, vs = before ++ u :: after ∧
    ∀ v ∈ before, v.1.identity ≠ u.1.identity

namespace Firsts

variable {firsts : List (Node × List String)}

lemma concat_old (h : Firsts vs firsts) (hv : ∃ u ∈ vs, u.1.identity = v.1.identity) :
    Firsts (vs ++ [v]) firsts where
  sublist := h.sublist.trans (List.sublist_append_left vs [v])
  nodup := h.nodup
  complete u hu := by
    rcases List.mem_append.1 hu with hu | hu
    · exact h.complete u hu
    · obtain rfl := List.mem_singleton.1 hu
      obtain ⟨t, ht, htu⟩ := hv
      obtain ⟨s, hs, hst⟩ := h.complete t ht
      exact ⟨s, hs, hst.trans htu⟩
  first u hu := by
    obtain ⟨before, after, rfl, hbefore⟩ := h.first u hu
    exact ⟨before, after ++ [v], by simp, hbefore⟩

lemma concat_new (h : Firsts vs firsts) (hv : ∀ u ∈ vs, u.1.identity ≠ v.1.identity) :
    Firsts (vs ++ [v]) (firsts ++ [v]) where
  sublist := h.sublist.append (.refl [v])
  nodup := by
    rw [List.map_append, List.nodup_append]
    refine ⟨h.nodup, List.nodup_singleton _, fun i hi j hj => ?_⟩
    obtain ⟨u, hu, rfl⟩ := List.mem_map.1 hi
    obtain rfl := List.mem_singleton.1 hj
    exact hv u (h.sublist.subset hu)
  complete u hu := by
    rcases List.mem_append.1 hu with hu | hu
    · obtain ⟨s, hs, hsu⟩ := h.complete u hu
      exact ⟨s, List.mem_append_left _ hs, hsu⟩
    · obtain rfl := List.mem_singleton.1 hu
      exact ⟨u, List.mem_append_right _ (List.mem_singleton_self u), rfl⟩
  first u hu := by
    rcases List.mem_append.1 hu with hu | hu
    · obtain ⟨before, after, rfl, hbefore⟩ := h.first u hu
      exact ⟨before, after ++ [v], by simp, hbefore⟩
    · obtain rfl := List.mem_singleton.1 hu
      exact ⟨vs, [], rfl, hv⟩

end Firsts

lemma visited_empty (c : Node) : ({} : Walk).visited c = false := by
  unfold visited
  split
  · exact Std.HashSet.contains_empty
  · rfl

/-- A walk that comes across nodes with identities visits the first ones. -/
lemma firsts_foldl_meet (hvs : ∀ v ∈ vs, v.1.identity ≠ none) :
    Firsts vs ((vs.foldl meet {}).found.reverse) := by
  induction vs using List.reverseRecOn with
  | nil =>
    exact ⟨.slnil, List.nodup_nil, fun _ h => absurd h List.not_mem_nil,
      fun _ h => absurd h List.not_mem_nil⟩
  | append_singleton vs v ih =>
    obtain ⟨hvs, hv⟩ := List.forall_mem_append.1 hvs
    have hmet : (vs.foldl meet {}).visited v.1 = true ↔ ∃ u ∈ vs, u.1.identity = v.1.identity := by
      rw [visited_foldl_meet_iff hvs (hv v (List.mem_singleton_self v)), visited_empty]
      simp
    rw [List.foldl_append, List.foldl_cons, List.foldl_nil, meet]
    split
    · next hvisited => exact (ih hvs).concat_old (hmet.1 hvisited)
    · next hnew =>
      have hfound : ((vs.foldl meet {}).visit v.1 v.2).found.reverse =
          (vs.foldl meet {}).found.reverse ++ [v] := List.reverse_cons
      rw [hfound]
      exact (ih hvs).concat_new fun u hu heq => hnew (hmet.2 ⟨u, hu, heq⟩)

end Walk

namespace Node

variable {W : Roster} {n : Node}

/-- **A walk visits the first occurrences of the nodes of a tree.** -/
theorem firsts_visits (listed : n.Listed W) (identified : n.Identified) :
    Walk.Firsts (n.occurrences []) n.visits := by
  have hsettled : Walk.Settled W n.height {} := by
    intro c _ _ _ hvisited
    rw [Walk.visited_empty] at hvisited
    cases hvisited
  rw [visits, (Walk.replays_of_listed listed identified (Nat.le_refl _) [] {} hsettled).1]
  exact Walk.firsts_foldl_meet fun v hv => identified v.1 (mem_nodes_of_occurrence hv)

/-- The nodes of a tree are those that are reached from its root. -/
lemma mem_nodes_iff_reaches {c : Node} :
    c ∈ n.nodes ↔
      Relation.ReflTransGen (fun a b : Node => ∃ k ∈ a.keywords, b ∈ k.nested) n c := by
  constructor
  · intro hc
    induction n using induction_nested with
    | step n ih =>
      rcases mem_nodes.1 hc with rfl | ⟨k, hk, d, hd, hc⟩
      · exact .refl
      · exact .head ⟨k, hk, hd⟩ (ih k hk d hd hc)
  · intro hreach
    induction hreach with
    | refl => exact n.self_mem_nodes
    | tail _ hstep ih =>
      obtain ⟨k, hk, hd⟩ := hstep
      exact mem_nodes_trans ih (mem_nodes_of_nested hk hd (self_mem_nodes _))

end Node

namespace Resolver

open Resolution

variable {s s' : Resolver} {given : List Node} {n : Node}

/-- **The walk through a resolved document visits each node once.**  In whatever use a resolver is,
the nodes of a document that it resolves have identities, each one of its own.  The walk through
the document, which begins with no node visited, visits exactly the nodes that are reached from the
root through the schemas that keywords hold, each of them once.  Of all the paths that lead to a
node, in the order of declaration and depth first, the visit is given the first. -/
theorem visits_once_of_document (serving : s.Serving given) {limit : Nat} {address : Address}
    (hrun : outcome (document limit address) s = (.ok n, s')) :
    (∀ c ∈ n.nodes, ∃ i, c.identity = some i ∧ ∀ d ∈ n.nodes, d.identity = some i → d = c) ∧
    (∀ c, Relation.ReflTransGen (fun a b : Node => ∃ k ∈ a.keywords, b ∈ k.nested) n c ↔
      c ∈ n.visits.map Prod.fst) ∧
    (n.visits.map Prod.fst).Nodup ∧
    n.visits.Sublist (n.occurrences []) ∧
    ∀ c path, (c, path) ∈ n.visits →
      ∃ before after, n.occurrences [] = before ++ (c, path) :: after ∧
        ∀ v ∈ before, v.1 ≠ c := by
  have keyed := (serving.document limit address).keyed
  rw [hrun] at keyed
  have hgiven : n ∈ (Except.ok n : Except ResolveError Node).toOption.toList ++ given :=
    List.mem_append_left _ (List.mem_singleton_self n)
  obtain ⟨W, -, hlisted⟩ := keyed.listed
  have listed : n.Listed W := hlisted n hgiven
  have identified : n.Identified := keyed.given n hgiven
  have firsts := Node.firsts_visits listed identified
  refine ⟨fun c hc => ?_, fun c => ?_, ?_, firsts.sublist, fun c path hvisit => ?_⟩
  · obtain ⟨i, hi⟩ := Option.ne_none_iff_exists'.1 (identified c hc)
    exact ⟨i, hi, fun d hd hdi => identified.eq_of_identity_eq listed hd hc (hdi.trans hi.symm)⟩
  · rw [← Node.mem_nodes_iff_reaches, Node.mem_nodes_iff_visits listed, List.mem_map]
    simp
  · have hidentities : n.visits.map (·.1.identity) =
        (n.visits.map Prod.fst).map Node.identity := by
      rw [List.map_map]
      rfl
    exact (hidentities ▸ firsts.nodup).of_map
  · obtain ⟨before, after, hsplit, hbefore⟩ := firsts.first (c, path) hvisit
    exact ⟨before, after, hsplit, fun v hv heq => hbefore v hv (congrArg Node.identity heq)⟩

/-- The resolver that was given the document `mem:item` and a document `mem:pair` with two
references to it. -/
def ofPair : Resolver :=
  [("item", [Keyword.facet (.type ["string"])]),
    ("pair", [.keyed .properties
      [("first", .ofKeywords [.ref "mem:item"]), ("second", .ofKeywords [.ref "mem:item"])]])].foldl
    (fun s document =>
      s.withRegistry (s.registry.register (.inMemory document.1) (.ofKeywords document.2)).2)
    (.ofRegistry {})

/-- Two paths lead to the item of a pair, and the walk visits it at the first of them only. -/
theorem visits_once_of_pair : ∃ given m s' c,
    ofPair.Serving given ∧ outcome (document 3 (.inMemory "pair")) ofPair = (.ok m, s') ∧
    m.occurrences [] = [(m, []), (c, ["properties", "first"]), (c, ["properties", "second"])] ∧
    (c, ["properties", "first"]) ∈ m.visits ∧ (c, ["properties", "second"]) ∉ m.visits := by
  have serving : ofPair.Serving _ :=
    .register (.inMemory "pair") _ (.register (.inMemory "item") _ (.start none))
  obtain ⟨m, s', hrun⟩ : ∃ m s', outcome (document 3 (.inMemory "pair")) ofPair = (.ok m, s') :=
    exists_of_isOk (by decide +kernel)
  have hplaces : (outcome (document 3 (.inMemory "pair")) ofPair).1.toOption.map
      (fun m => (m.occurrences []).map fun v => (v.1.identity, v.2)) =
        some [(some 4, []), (some 0, ["properties", "first"]),
          (some 0, ["properties", "second"])] := by decide +kernel
  rw [hrun] at hplaces
  obtain ⟨distinct, reached, -, sublist, first⟩ := visits_once_of_document serving hrun
  rcases hlist : m.occurrences [] with _ | ⟨u, _ | ⟨⟨c, p⟩, _ | ⟨⟨d, q⟩, _ | ⟨_, _⟩⟩⟩⟩
  all_goals
    simp only [Except.toOption, Option.map_some, hlist, List.map_cons, List.map_nil,
      Option.some.injEq, List.cons.injEq, Prod.mk.injEq, reduceCtorEq, and_true,
      and_false] at hplaces
  obtain ⟨⟨hidentity, -⟩, ⟨hc, rfl⟩, hd, rfl⟩ := hplaces
  have hmem : ∀ v ∈ m.occurrences [], v.1 ∈ m.nodes := fun v => Node.mem_nodes_of_occurrence
  rw [hlist] at hmem sublist
  have hcm : c ∈ m.nodes := hmem (c, ["properties", "first"]) (by simp)
  have hdm : d ∈ m.nodes := hmem (d, ["properties", "second"]) (by simp)
  obtain rfl : d = c := by
    obtain ⟨i, hi, heq⟩ := distinct c hcm
    exact heq d hdm (hd.trans (hc.symm.trans hi))
  obtain rfl : u = (m, []) := by
    rw [Node.occurrences_eq] at hlist
    exact (List.cons.inj hlist).1.symm
  have hsecond : (d, ["properties", "second"]) ∉ m.visits := by
    intro hvisit
    obtain ⟨before, after, hsplit, hbefore⟩ := first d _ hvisit
    rw [hlist] at hsplit
    rcases before with _ | ⟨v, _ | ⟨w, before⟩⟩
    · simp at hsplit
    · simp at hsplit
    · have hw : (d, ["properties", "first"]) = w := by
        simp only [List.cons_append, List.cons.injEq] at hsplit
        exact hsplit.2.1
      exact hbefore w (by simp) (congrArg Prod.fst hw.symm)
  have hfirst : (d, ["properties", "first"]) ∈ m.visits := by
    obtain ⟨v, hv, rfl⟩ := List.mem_map.1 ((reached d).1 (Node.mem_nodes_iff_reaches.1 hdm))
    have hplace := sublist.subset hv
    simp only [List.mem_cons, List.not_mem_nil, or_false] at hplace
    rcases hplace with rfl | hplace | hplace
    · rw [hidentity] at hd
      cases hd
    · exact hplace ▸ hv
    · exact absurd (hplace ▸ hv) hsecond
  exact ⟨_, m, s', d, serving, hrun, hlist, hfirst, hsecond⟩

end Resolver

end SchemaCatalog
