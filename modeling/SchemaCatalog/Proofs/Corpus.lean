import Mathlib.Data.List.Induction
import SchemaCatalog.Corpus.Basic
import SchemaCatalog.Proofs.NameOrder

/-!
# Corpora as maps of names

A corpus is filled by attempts to put documents into it, some of which fail: a name need not make
an address beneath the base.  `Corpus.attempts` makes attempts one after the other and keeps a log
of what came of them.

What a corpus holds is read off that log (`Reflects`).  Its documents are in order of their names,
each lies at the address that its name has beneath the base, and it holds a document exactly if the
last attempt that succeeded with its name brought its content (`LastPut`).  Empty corpora reflect
the empty log, and an attempt leads from a corpus that reflects a log to one that reflects the log
with that attempt in it (`Reflects.attempt`).

An attempt that fails changes nothing, and whether one succeeds depends on its name and on the base
alone.  So attempts with different names may be made in any order (`attempts_perm`).
-/

namespace SchemaCatalog

namespace Corpus

/-- What came of an attempt to put a document into a corpus. -/
structure Attempt where
  name : String
  content : ByteArray
  outcome : Except LoadError Unit

/-- Try to put a document into the corpus. -/
def attempt (document : String × ByteArray) : StateM Corpus Attempt := do
  return ⟨document.1, document.2, ← (put document.1 document.2).run⟩

/-- Try to put documents into the corpus, one after the other. -/
def attempts (documents : List (String × ByteArray)) : StateM Corpus (List Attempt) :=
  documents.mapM attempt

/-- Whether the last attempt in a log that succeeded with a name brought a content. -/
def LastPut (log : List Attempt) (name : String) (content : ByteArray) : Prop :=
  ∃ before after, log = before ++ ⟨name, content, .ok ()⟩ :: after ∧
    ∀ a ∈ after, a.name = name → a.outcome ≠ .ok ()

variable {base : Address} {c c' : Corpus} {name : String} {content : ByteArray}
variable {log : List Attempt} {x y : String × ByteArray}
variable {documents documents' : List (String × ByteArray)}

/-! ## One attempt -/

/-- A name that makes no address beneath the base is refused, and nothing changes.  All others are
put in their places. -/
lemma run_put : (put name content).run.run c =
    match c.base.join name with
    | .error _ => (.error (.invalidBase (c.base.text ++ name)), c)
    | .ok address => (.ok (),
        { c with documents :=
            NameOrder.put Document.name ⟨name, address, content⟩ c.documents }) := by
  have hget : (get : Filling Corpus).run.run c = pure (.ok c, c) := rfl
  rw [put, ExceptT.run_bind, StateT.run_bind, hget, pure_bind]
  dsimp only
  cases c.base.join name <;> rfl

lemma run_attempt : (attempt x).run c =
    (⟨x.1, x.2, ((put x.1 x.2).run.run c).1⟩, ((put x.1 x.2).run.run c).2) := by
  rw [attempt, StateT.run_bind]
  rfl

/-- An attempt fails with an error about the address, or it succeeds. -/
lemma attempt_cases :
    (∃ e, c.base.join x.1 = .error e ∧
      (attempt x).run c = (⟨x.1, x.2, .error (.invalidBase (c.base.text ++ x.1))⟩, c)) ∨
    ∃ address, c.base.join x.1 = .ok address ∧
      (attempt x).run c = (⟨x.1, x.2, .ok ()⟩,
        ⟨c.base, NameOrder.put Document.name ⟨x.1, address, x.2⟩ c.documents⟩) := by
  rw [run_attempt, run_put]
  cases h : c.base.join x.1 with
  | error e => exact .inl ⟨e, rfl, rfl⟩
  | ok address => exact .inr ⟨address, rfl, rfl⟩

lemma base_attempt : ((attempt x).run c).2.base = c.base := by
  obtain ⟨_, _, hrun⟩ | ⟨_, _, hrun⟩ := attempt_cases (c := c) (x := x) <;> rw [hrun]

lemma fst_attempt_of_base_eq (h : c.base = c'.base) :
    ((attempt x).run c).1 = ((attempt x).run c').1 := by
  rw [run_attempt, run_attempt, run_put, run_put, h]
  cases c'.base.join x.1 <;> rfl

lemma outcome_attempt : ((attempt x).run c).1.outcome = .ok () ↔
    ∃ address, c.base.join x.1 = .ok address := by
  obtain ⟨e, hjoin, hrun⟩ | ⟨address, hjoin, hrun⟩ := attempt_cases (c := c) (x := x)
  · simp [hrun, hjoin]
  · simp [hrun, hjoin]

lemma attempt_of_error {e : LoadError} (h : ((attempt x).run c).1.outcome = .error e) :
    ((attempt x).run c).2 = c := by
  obtain ⟨_, _, hrun⟩ | ⟨_, _, hrun⟩ := attempt_cases (c := c) (x := x)
  · rw [hrun]
  · rw [hrun] at h
    cases h

lemma ordered_attempt (ordered : NameOrder.Ordered Document.name c.documents) :
    NameOrder.Ordered Document.name ((attempt x).run c).2.documents := by
  obtain ⟨_, _, hrun⟩ | ⟨_, _, hrun⟩ := attempt_cases (c := c) (x := x)
  · rw [hrun]
    exact ordered
  · rw [hrun]
    exact NameOrder.ordered_put ordered _

/-- After an attempt a corpus holds the document that was put in, if it was, and all that are not
of its name. -/
lemma mem_attempt (ordered : NameOrder.Ordered Document.name c.documents) {d : Document} :
    d ∈ ((attempt x).run c).2.documents ↔
      (x = (d.name, d.content) ∧ c.base.join d.name = .ok d.address) ∨
      (d ∈ c.documents ∧ (x.1 = d.name → ((attempt x).run c).1.outcome ≠ .ok ())) := by
  obtain ⟨e, hjoin, hrun⟩ | ⟨address, hjoin, hrun⟩ := attempt_cases (c := c) (x := x)
  · rw [hrun]
    constructor
    · exact fun hd => .inr ⟨hd, fun _ hok => by cases hok⟩
    · rintro (⟨rfl, haddress⟩ | ⟨hd, -⟩)
      · rw [hjoin] at haddress
        cases haddress
      · exact hd
  · rw [hrun, NameOrder.mem_put ordered]
    constructor
    · rintro (rfl | ⟨hd, hname⟩)
      · exact .inl ⟨rfl, hjoin⟩
      · exact .inr ⟨hd, fun heq => absurd heq.symm hname⟩
    · rintro (⟨rfl, haddress⟩ | ⟨hd, hother⟩)
      · rw [hjoin] at haddress
        cases haddress
        exact .inl rfl
      · exact .inr ⟨hd, fun heq => hother heq.symm rfl⟩

lemma eq_of_mem_iff (hbase : c.base = c'.base)
    (ordered : NameOrder.Ordered Document.name c.documents)
    (ordered' : NameOrder.Ordered Document.name c'.documents)
    (h : ∀ d, d ∈ c.documents ↔ d ∈ c'.documents) : c = c' := by
  obtain ⟨base, documents⟩ := c
  obtain ⟨base', documents'⟩ := c'
  obtain rfl : base = base' := hbase
  obtain rfl : documents = documents' := ordered.ext ordered' h
  rfl

lemma attempt_comm (ordered : NameOrder.Ordered Document.name c.documents) (h : x.1 ≠ y.1) :
    ((attempt y).run ((attempt x).run c).2).2 = ((attempt x).run ((attempt y).run c).2).2 := by
  have hx := ordered_attempt (x := x) ordered
  have hy := ordered_attempt (x := y) ordered
  refine eq_of_mem_iff (by simp only [base_attempt]) (ordered_attempt hx) (ordered_attempt hy)
    fun d => ?_
  rw [mem_attempt hx, mem_attempt hy, mem_attempt ordered, mem_attempt ordered, base_attempt,
    base_attempt, fst_attempt_of_base_eq (x := y) base_attempt,
    fst_attempt_of_base_eq (x := x) base_attempt]
  -- the document put in last stays under the other attempt, whose name is not its own
  have hxd : x = (d.name, d.content) → y.1 ≠ d.name := by
    rintro rfl
    exact Ne.symm h
  have hyd : y = (d.name, d.content) → x.1 ≠ d.name := by
    rintro rfl
    exact h
  generalize ((attempt x).run c).1.outcome = outcomex
  generalize ((attempt y).run c).1.outcome = outcomey
  constructor
  · rintro (⟨hy, hok⟩ | ⟨⟨hx, hok⟩ | ⟨hd, hother⟩, hother'⟩)
    · exact .inr ⟨.inl ⟨hy, hok⟩, fun heq => absurd heq (hyd hy)⟩
    · exact .inl ⟨hx, hok⟩
    · exact .inr ⟨.inr ⟨hd, hother'⟩, hother⟩
  · rintro (⟨hx, hok⟩ | ⟨⟨hy, hok⟩ | ⟨hd, hother⟩, hother'⟩)
    · exact .inr ⟨.inl ⟨hx, hok⟩, fun heq => absurd heq (hxd hx)⟩
    · exact .inl ⟨hy, hok⟩
    · exact .inr ⟨.inr ⟨hd, hother'⟩, hother⟩

/-! ## Any number of attempts -/

lemma run_attempts_cons : (attempts (x :: documents)).run c =
    (((attempt x).run c).1 :: ((attempts documents).run ((attempt x).run c).2).1,
      ((attempts documents).run ((attempt x).run c).2).2) := by
  rw [attempts, List.mapM_cons, StateT.run_bind]
  rfl

lemma run_attempts_concat : (attempts (documents ++ [x])).run c =
    (((attempts documents).run c).1 ++ [((attempt x).run ((attempts documents).run c).2).1],
      ((attempt x).run ((attempts documents).run c).2).2) := by
  rw [attempts, List.mapM_append, List.mapM_cons, List.mapM_nil, StateT.run_bind]
  rfl

/-- Attempts with different names may be made in any order: each comes out the same, and so does
the corpus. -/
lemma attempts_perm (h : documents.Perm documents') (nodup : (documents.map Prod.fst).Nodup)
    (ordered : NameOrder.Ordered Document.name c.documents) :
    ((attempts documents).run c).1.Perm ((attempts documents').run c).1 ∧
      ((attempts documents).run c).2 = ((attempts documents').run c).2 := by
  induction h generalizing c with
  | nil => exact ⟨.refl _, rfl⟩
  | cons x _ ih =>
    obtain ⟨hlog, hcorpus⟩ := ih (List.nodup_cons.1 nodup).2 (ordered_attempt (x := x) ordered)
    rw [run_attempts_cons, run_attempts_cons]
    exact ⟨hlog.cons _, hcorpus⟩
  | swap x y l =>
    have hne : x.1 ≠ y.1 := fun heq =>
      (List.nodup_cons.1 nodup).1 (List.mem_map.2 ⟨x, List.mem_cons_self, heq⟩)
    simp only [run_attempts_cons]
    rw [attempt_comm ordered hne, fst_attempt_of_base_eq (x := x) base_attempt,
      fst_attempt_of_base_eq (x := y) base_attempt]
    exact ⟨.swap _ _ _, rfl⟩
  | trans h _ ih ih' =>
    obtain ⟨hlog, hcorpus⟩ := ih nodup ordered
    obtain ⟨hlog', hcorpus'⟩ := ih' ((h.map Prod.fst).nodup_iff.1 nodup) ordered
    exact ⟨hlog.trans hlog', hcorpus.trans hcorpus'⟩

lemma lastPut_concat {a : Attempt} :
    LastPut (log ++ [a]) name content ↔
      a = ⟨name, content, .ok ()⟩ ∨
      LastPut log name content ∧ (a.name = name → a.outcome ≠ .ok ()) := by
  constructor
  · rintro ⟨before, after, hlog, hafter⟩
    rcases List.eq_nil_or_concat after with rfl | ⟨after, b, rfl⟩
    · obtain ⟨-, hlast⟩ := List.append_inj' hlog rfl
      exact .inl (List.singleton_inj.1 hlast)
    · rw [List.concat_eq_append] at hlog hafter
      rw [← List.cons_append, ← List.append_assoc] at hlog
      obtain ⟨hinit, hlast⟩ := List.append_inj' hlog rfl
      obtain rfl := List.singleton_inj.1 hlast
      refine .inr ⟨⟨before, after, hinit, fun b hb => ?_⟩, hafter a (by simp)⟩
      exact hafter b (List.mem_append_left _ hb)
  · rintro (rfl | ⟨⟨before, after, rfl, hafter⟩, ha⟩)
    · exact ⟨log, [], rfl, fun _ h => absurd h List.not_mem_nil⟩
    · refine ⟨before, after ++ [a], by simp, fun b hb => ?_⟩
      rcases List.mem_append.1 hb with hb | hb
      · exact hafter b hb
      · obtain rfl := List.mem_singleton.1 hb
        exact ha

lemma exists_lastPut_iff :
    (∃ content, LastPut log name content) ↔ ∃ a ∈ log, a.name = name ∧ a.outcome = .ok () := by
  induction log using List.reverseRecOn with
  | nil => simp [LastPut]
  | append_singleton log a ih =>
    simp only [lastPut_concat, List.mem_append, List.mem_singleton]
    constructor
    · rintro ⟨content, rfl | ⟨hlast, -⟩⟩
      · exact ⟨_, .inr rfl, rfl, rfl⟩
      · obtain ⟨b, hb, h⟩ := ih.1 ⟨content, hlast⟩
        exact ⟨b, .inl hb, h⟩
    · rintro ⟨b, hb, hname, hok⟩
      by_cases ha : a.name = name ∧ a.outcome = .ok ()
      · obtain ⟨n, content, outcome⟩ := a
        obtain ⟨rfl, rfl⟩ := ha
        exact ⟨content, .inl rfl⟩
      · rcases hb with hb | rfl
        · obtain ⟨content, hlast⟩ := ih.2 ⟨b, hb, hname, hok⟩
          exact ⟨content, .inr ⟨hlast, fun h h' => ha ⟨h, h'⟩⟩⟩
        · exact absurd ⟨hname, hok⟩ ha

/-- What a corpus owes to the attempts that were made since it was empty. -/
structure Reflects (base : Address) (log : List Attempt) (c : Corpus) : Prop where
  base_eq : c.base = base.asDirectory
  ordered : NameOrder.Ordered Document.name c.documents
  mem_iff : ∀ d, d ∈ c.documents ↔
    LastPut log d.name d.content ∧ c.base.join d.name = .ok d.address
  outcome_iff : ∀ a ∈ log, a.outcome = .ok () ↔ ∃ address, c.base.join a.name = .ok address

namespace Reflects

lemma empty : Reflects base [] (Corpus.empty base) where
  base_eq := rfl
  ordered := .nil
  mem_iff _ := by simp [Corpus.empty, LastPut]
  outcome_iff := fun _ h => absurd h List.not_mem_nil

lemma attempt (h : Reflects base log c) (x : String × ByteArray) :
    Reflects base (log ++ [((Corpus.attempt x).run c).1]) ((Corpus.attempt x).run c).2 where
  base_eq := base_attempt.trans h.base_eq
  ordered := ordered_attempt h.ordered
  mem_iff d := by
    rw [mem_attempt h.ordered, lastPut_concat, h.mem_iff, base_attempt]
    constructor
    · rintro (⟨rfl, haddress⟩ | ⟨⟨hlast, haddress⟩, hother⟩)
      · have hok := (outcome_attempt (x := (d.name, d.content))).2 ⟨_, haddress⟩
        exact ⟨.inl (congrArg (Attempt.mk d.name d.content) hok), haddress⟩
      · exact ⟨.inr ⟨hlast, hother⟩, haddress⟩
    · rintro ⟨hnew | ⟨hlast, hother⟩, haddress⟩
      · have hx : x = (d.name, d.content) :=
          Prod.ext (congrArg Attempt.name hnew) (congrArg Attempt.content hnew)
        exact .inl ⟨hx, haddress⟩
      · exact .inr ⟨⟨hlast, haddress⟩, hother⟩
  outcome_iff a ha := by
    rw [base_attempt]
    rcases List.mem_append.1 ha with ha | ha
    · exact h.outcome_iff a ha
    · obtain rfl := List.mem_singleton.1 ha
      exact outcome_attempt

lemma attempts (base : Address) (documents : List (String × ByteArray)) :
    Reflects base ((Corpus.attempts documents).run (Corpus.empty base)).1
      ((Corpus.attempts documents).run (Corpus.empty base)).2 := by
  induction documents using List.reverseRecOn with
  | nil => exact empty
  | append_singleton documents x ih =>
    rw [run_attempts_concat]
    dsimp only
    exact ih.attempt x

/-- The document of a name is the one that the last success with the name brought. -/
lemma get?_eq_some_iff (h : Reflects base log c) {d : Document} :
    c.get? name = some d ↔
      d.name = name ∧ LastPut log name d.content ∧ c.base.join name = .ok d.address := by
  rw [get?, h.ordered.find?_eq_some_iff, h.mem_iff]
  constructor
  · rintro ⟨hd, rfl⟩
    exact ⟨rfl, hd⟩
  · rintro ⟨rfl, hd⟩
    exact ⟨hd, rfl⟩

lemma exists_address (h : Reflects base log c) (hlast : LastPut log name content) :
    ∃ address, c.base.join name = .ok address := by
  obtain ⟨before, after, rfl, -⟩ := hlast
  exact (h.outcome_iff ⟨name, content, .ok ()⟩ (by simp)).1 rfl

lemma content_get?_eq_some_iff (h : Reflects base log c) :
    (c.get? name).map Document.content = some content ↔ LastPut log name content := by
  rw [Option.map_eq_some_iff]
  constructor
  · rintro ⟨d, hd, rfl⟩
    exact (h.get?_eq_some_iff.1 hd).2.1
  · intro hlast
    obtain ⟨address, haddress⟩ := h.exists_address hlast
    exact ⟨⟨name, address, content⟩, h.get?_eq_some_iff.2 ⟨rfl, hlast, haddress⟩, rfl⟩

end Reflects

lemma attempts_log : ((attempts documents).run c).1.map (fun a => (a.name, a.content)) =
    documents := by
  induction documents generalizing c with
  | nil => rfl
  | cons x documents ih =>
    rw [run_attempts_cons, List.map_cons, ih]
    rfl

/-- **A corpus is a sorted map.**  For every base and every sequence of attempts to put documents
in, with the log of what came of them:

* the documents are in strict order of their names, each at the address of its name;
* an attempt succeeds exactly if its name makes an address beneath the base;
* there is a document of a name exactly if an attempt with the name succeeded, and its content is
  the one that the last such attempt brought;
* a further attempt that fails leaves the corpus as it is;
* further attempts with pairwise distinct names lead to the same corpus in any order, and what
  comes of each of them is the same. -/
theorem sorted_map_of_attempts (base : Address) (documents : List (String × ByteArray)) :
    let log := ((attempts documents).run (empty base)).1
    let c := ((attempts documents).run (empty base)).2
    log.map (fun a => (a.name, a.content)) = documents ∧
    c.documents.Pairwise (fun d d' => d.name < d'.name) ∧
    (∀ d ∈ c.documents, base.asDirectory.join d.name = .ok d.address) ∧
    (∀ a ∈ log, a.outcome = .ok () ↔ ∃ address, base.asDirectory.join a.name = .ok address) ∧
    (∀ name, (c.get? name).isSome ↔ ∃ a ∈ log, a.name = name ∧ a.outcome = .ok ()) ∧
    (∀ name content, (c.get? name).map Document.content = some content ↔
      ∃ before after, log = before ++ ⟨name, content, .ok ()⟩ :: after ∧
        ∀ a ∈ after, a.name = name → a.outcome ≠ .ok ()) ∧
    (∀ x e, ((attempt x).run c).1.outcome = .error e → ((attempt x).run c).2 = c) ∧
    (∀ more more' : List (String × ByteArray), more.Perm more' → (more.map Prod.fst).Nodup →
      ((attempts more).run c).2 = ((attempts more').run c).2 ∧
      ((attempts more).run c).1.Perm ((attempts more').run c).1) := by
  intro log c
  have h : Reflects base log c := .attempts base documents
  refine ⟨attempts_log, h.ordered, fun d hd => ?_, fun a ha => ?_, fun name => ?_, ?_, ?_, ?_⟩
  · exact h.base_eq ▸ ((h.mem_iff d).1 hd).2
  · exact h.base_eq ▸ h.outcome_iff a ha
  · rw [← exists_lastPut_iff, Option.isSome_iff_exists]
    constructor
    · rintro ⟨d, hd⟩
      exact ⟨d.content, (h.get?_eq_some_iff.1 hd).2.1⟩
    · rintro ⟨content, hlast⟩
      obtain ⟨d, hd, -⟩ := Option.map_eq_some_iff.1 (h.content_get?_eq_some_iff.2 hlast)
      exact ⟨d, hd⟩
  · exact fun name content => h.content_get?_eq_some_iff
  · exact fun x e he => attempt_of_error he
  · exact fun more more' hperm nodup => (attempts_perm hperm nodup h.ordered).symm

/-- A document that is put in again keeps its place and gets the new content; a name that makes no
address is refused. -/
example :
    let base : Address := { scheme := "file", host := some "", path := .segments ["schema"] }
    let run := (attempts [("b.json", "{}".toUTF8), ("//[", "{}".toUTF8), ("a.json", "{}".toUTF8),
      ("b.json", "true".toUTF8)]).run (empty base)
    run.1.map (·.outcome) =
      [.ok (), .error (.invalidBase "file:///schema///["), .ok (), .ok ()] ∧
    run.2.documents.map (·.name) = ["a.json", "b.json"] ∧
    (run.2.get? "b.json").map (·.content.toList) = some "true".toUTF8.toList := by
  refine ⟨?_, ?_, ?_⟩ <;> cbv

end Corpus

end SchemaCatalog
