import SchemaCatalog.Proofs.Check.Findings
import SchemaCatalog.Proofs.Resolution.Session

/-!
# Enumerations and their names

A check warns that an enumeration does not count if it has more values than names, or fewer
(`Check.warns_iff`).  Projection, which is where an enumeration counts or does not, leaves null out
before it compares, and takes an empty list of names for no names at all (`Node.drops_iff`).

So the warning is true of a schema exactly if the lengths tell (`Node.LengthsTell`): where there are
names, if none of the values is null or the lengths differ with null and without it; where the list
of names is empty, if all values are null (`Check.warnings_true_iff`).  Of a schema
that allows null next to two values with names the warning is false (`Check.warning_false`).
-/

namespace SchemaCatalog

open Api

namespace Node

variable {n : Node} {values : List Json} {names : List String}

/-- Whether projection drops what a schema declares: it declares values and names, one of the lists
is not empty, and its shape has neither. -/
def Drops (n : Node) (s : Shape) : Prop :=
  ∃ values names, n.declaredValues? = some values ∧ n.declaredNames? = some names ∧
    (values ≠ [] ∨ names ≠ []) ∧ s.enumValues = [] ∧ s.enumNames = []

/-- Whether the lengths of the lists that a schema declares tell if projection drops them. -/
def LengthsTell (n : Node) : Prop :=
  ∀ values names, n.declaredValues? = some values → n.declaredNames? = some names →
    (names = [] → ∀ v ∈ values, isNull v = true) ∧
    (names ≠ [] → (∀ v ∈ values, isNull v = false) ∨
      values.length ≠ names.length ∧ (values.filter (!isNull ·)).length ≠ names.length)

lemma enumeration_eq (hvalues : n.declaredValues? = some values)
    (hnames : n.declaredNames? = some names) :
    n.enumeration =
      if names ≠ [] ∧ (values.filter (!isNull ·)).length ≠ names.length then ([], [])
      else ((values.filter (!isNull ·)).map valueText, names) := by
  rw [enumeration, hvalues, hnames]
  simp only [Option.getD_some, List.length_map, Bool.and_eq_true, Bool.not_eq_true',
    List.isEmpty_eq_false_iff, bne_iff_ne, ne_comm (a := names.length)]

/-- Projection drops an enumeration if all values are null and there are no names, or if there are
not as many names as values apart from null. -/
lemma drops_iff (hvalues : n.declaredValues? = some values)
    (hnames : n.declaredNames? = some names) {name : Option String} {s : Shape}
    (hs : n.shape name = .ok s) :
    n.Drops s ↔ (names = [] ∧ values ≠ [] ∧ ∀ v ∈ values, isNull v = true) ∨
      (names ≠ [] ∧ (values.filter (!isNull ·)).length ≠ names.length) := by
  have henumeration : (s.enumValues, s.enumNames) = n.enumeration := by
    obtain ⟨_, -, _, -, _, -, _, -, _, -, rfl⟩ := shape_eq_ok_iff.1 hs
    rfl
  rw [enumeration_eq hvalues hnames] at henumeration
  have hdrops : n.Drops s ↔ (values ≠ [] ∨ names ≠ []) ∧ s.enumValues = [] ∧ s.enumNames = [] := by
    simp only [Drops, hvalues, hnames, Option.some.injEq, exists_and_left, exists_eq_left']
  rw [hdrops]
  split at henumeration
  case isTrue hdropped =>
    obtain ⟨hvalues, hnames⟩ := Prod.mk.inj henumeration
    simp [hvalues, hnames, hdropped]
  case isFalse hkept =>
    obtain ⟨hvalues, hnames⟩ := Prod.mk.inj henumeration
    have hnull : (∀ v ∈ values, isNull v = true) ↔ s.enumValues = [] := by
      simp [hvalues]
    rw [hnull, hnames]
    tauto

lemma lengthsTell_iff (hvalues : n.declaredValues? = some values)
    (hnames : n.declaredNames? = some names) {name : Option String} {s : Shape}
    (hs : n.shape name = .ok s) :
    (values.length ≠ names.length ↔ n.Drops s) ↔ n.LengthsTell := by
  have htell : n.LengthsTell ↔ (names = [] → ∀ v ∈ values, isNull v = true) ∧
      (names ≠ [] → (∀ v ∈ values, isNull v = false) ∨
        values.length ≠ names.length ∧ (values.filter (!isNull ·)).length ≠ names.length) := by
    refine ⟨fun h => h values names hvalues hnames, fun h values' names' hvalues' hnames' => ?_⟩
    rw [hvalues, Option.some.injEq] at hvalues'
    rw [hnames, Option.some.injEq] at hnames'
    rwa [← hvalues', ← hnames']
  rw [htell, drops_iff hvalues hnames hs]
  by_cases hempty : names = []
  · have hlength : values.length ≠ names.length ↔ values ≠ [] := by
      simp [hempty]
    simp only [hempty, ne_eq, not_true_eq_false, false_and, or_false, false_implies, and_true,
      true_and, forall_true_left] at hlength ⊢
    rw [hlength]
    constructor
    · intro h v hv
      exact (h.1 (List.ne_nil_of_mem hv)).2 v hv
    · exact fun h => ⟨fun hvalues => ⟨hvalues, h⟩, And.left⟩
  · have hfilter : (∀ v ∈ values, isNull v = false) ↔
        (values.filter (!isNull ·)).length = values.length := by
      simp
    simp only [hempty, ne_eq, not_false_eq_true, false_and, false_or, true_and, false_implies,
      forall_true_left, hfilter]
    omega

end Node

namespace Check

/-- Whether the judgement on a node at a path has it that the enumeration of the node does not
count. -/
def Warns (catalog : Bool) (n : Node) (path : List String) : Prop :=
  ∃ values names, (⟨path, .unmatchedNames values names⟩ : Diagnostic) ∈ judge catalog n path

lemma warns_iff {catalog : Bool} {n : Node} {path : List String} :
    Warns catalog n path ↔ ∃ values names, n.declaredValues? = some values ∧
      n.declaredNames? = some names ∧ values.length ≠ names.length := by
  have hjudge (v m : Nat) : (⟨path, .unmatchedNames v m⟩ : Diagnostic) ∈ judge catalog n path ↔
      unmatched? n = some (v, m) := by
    simp [mem_judge_iff]
  have hunmatched (v m : Nat) : unmatched? n = some (v, m) ↔ ∃ values names,
      n.declaredValues? = some values ∧ n.declaredNames? = some names ∧
        values.length ≠ names.length ∧ values.length = v ∧ names.length = m := by
    simp only [unmatched?, Option.bind_eq_bind, Option.bind_eq_some_iff, Option.ite_none_right_eq_some,
      Option.some.injEq, Prod.mk.injEq]
    tauto
  simp only [Warns, hjudge, hunmatched]
  constructor
  · rintro ⟨-, -, values, names, hvalues, hnames, hlength, -⟩
    exact ⟨values, names, hvalues, hnames, hlength⟩
  · rintro ⟨values, names, hvalues, hnames, hlength⟩
    exact ⟨_, _, values, names, hvalues, hnames, hlength, rfl, rfl⟩

lemma warns_iff_drops_iff {catalog : Bool} {n : Node} {path : List String} {name : Option String}
    {s : Shape} (hs : n.shape name = .ok s) :
    (Warns catalog n path ↔ n.Drops s) ↔ n.LengthsTell := by
  by_cases hdeclared :
      ∃ values names, n.declaredValues? = some values ∧ n.declaredNames? = some names
  · obtain ⟨values, names, hvalues, hnames⟩ := hdeclared
    have hwarns : Warns catalog n path ↔ values.length ≠ names.length := by
      simp only [warns_iff, hvalues, hnames, Option.some.injEq, exists_and_left, exists_eq_left']
    rw [hwarns]
    exact Node.lengthsTell_iff hvalues hnames hs
  · have hwarns : ¬ Warns catalog n path := by
      rw [warns_iff]
      rintro ⟨values, names, hvalues, hnames, -⟩
      exact hdeclared ⟨values, names, hvalues, hnames⟩
    have hdrops : ¬ n.Drops s := by
      rintro ⟨values, names, hvalues, hnames, -⟩
      exact hdeclared ⟨values, names, hvalues, hnames⟩
    refine iff_of_true (iff_of_false hwarns hdrops) ?_
    exact fun values names hvalues hnames => absurd ⟨values, names, hvalues, hnames⟩ hdeclared

/-- **When the warning of an enumeration is true.**  In each document of a corpus that a check
resolves, each node is judged, and the judgement warns of its enumeration exactly if its values and
its names differ in number.  If the node has a shape, to warn exactly where projection drops what
the node declares means that the lengths tell. -/
theorem warnings_true_iff {limit : Nat} {c : Corpus} {o : Options} {strict : Bool} {r : Registry}
    (coherent : r.Coherent) {f : FileResult}
    (hf : f ∈ ((corpus limit c o strict).run (.ofRegistry r)).1.results) :
    ∃ d ∈ c.documents, f.file = d.name ∧
      ((∀ e ∈ f.diagnostics, e.finding.Blocks) ∨ ∃ n, Found limit o d n f) ∧
      ∀ n, Found limit o d n f → ∀ m ∈ n.nodes, (∃ path, (m, path) ∈ n.visits) ∧ ∀ path,
        (Warns (d.fileName == o.methodsFile) m path ↔
          ∃ values names, m.declaredValues? = some values ∧ m.declaredNames? = some names ∧
            values.length ≠ names.length) ∧
        ∀ name s, m.shape name = .ok s →
          ((Warns (d.fileName == o.methodsFile) m path ↔ m.Drops s) ↔ m.LengthsTell) := by
  obtain ⟨d, hd, hname, hfound⟩ := found_of_mem_results coherent hf
  refine ⟨d, hd, hname, hfound, fun n hn m hm => ⟨(hn.visited m).1 hm, fun path => ?_⟩⟩
  exact ⟨warns_iff, fun name s hs => warns_iff_drops_iff hs⟩

end Check

/-! ## Lamps -/

/-- A schema of the states of a lamp: off, on, and a third one that has no name. -/
def Document.lamp (third : String) : Document where
  name := "lamp.json"
  address := .inMemory "lamp"
  content := ("\x7b\"enum\": [0, 1, " ++ third ++ "], \"enumNames\": [\"off\", \"on\"]\x7d").toUTF8

/-- The corpus of that schema alone. -/
def Corpus.lamp (third : String) : Corpus := ⟨.inMemory "", [.lamp third]⟩

namespace Check

/-- If the third state of a lamp is a number, the check warns of it and projection drops it. -/
theorem warnings_true_iff_lamp :
    ∃ f ∈ ((corpus 3 (.lamp "2") {} true).run (.ofRegistry {})).1.results, ∃ n path s,
      Found 3 {} (.lamp "2") n f ∧ (n, path) ∈ n.visits ∧ n.shape none = .ok s ∧
        Warns false n path ∧ n.Drops s := by
  obtain ⟨f, hresults, n, hn, hfound⟩ := exists_found_of_one 3 {} true (.inMemory "")
    (d := .lamp "2") (P := fun n => (n.shape none).isOk && n.declaredNames? == some ["off", "on"] &&
      n.declaredValues?.any fun values => values.length == 3 && values.all (!Node.isNull ·))
    (by decide +kernel)
  have hf : f ∈ ((corpus 3 (.lamp "2") {} true).run (.ofRegistry {})).1.results := by
    rw [Corpus.lamp, hresults]
    exact List.mem_singleton_self f
  simp only [Bool.and_eq_true, beq_iff_eq, Option.any_eq_true, List.all_eq_true,
    Bool.not_eq_true'] at hn
  obtain ⟨⟨hshape, hnames⟩, values, hvalues, hlength, hnull⟩ := hn
  obtain ⟨s, hs⟩ := exists_eq_ok_of_isOk hshape
  have htell : n.LengthsTell := by
    intro values' names' hvalues' hnames'
    rw [hvalues, Option.some.injEq] at hvalues'
    rw [hnames, Option.some.injEq] at hnames'
    subst hvalues' hnames'
    exact ⟨fun h => absurd h (by decide), fun _ => .inl hnull⟩
  obtain ⟨d, hd, -, -, hjudged⟩ := warnings_true_iff (Registry.coherent_source none) hf
  obtain rfl := List.mem_singleton.1 hd
  obtain ⟨⟨path, hvisit⟩, hpath⟩ := hjudged n hfound n n.self_mem_nodes
  obtain ⟨hwarns, hdrops⟩ := hpath path
  have hwarned : Warns false n path :=
    hwarns.2 ⟨values, _, hvalues, hnames, by rw [hlength]; decide⟩
  exact ⟨f, hf, n, path, s, hfound, hvisit, hs, hwarned, ((hdrops none s hs).2 htell).1 hwarned⟩

/-- If a lamp may be null, the check warns that its states do not count, but they do. -/
theorem warning_false :
    ∃ f ∈ ((corpus 3 (.lamp "null") {} true).run (.ofRegistry {})).1.results, ∃ n path s,
      Found 3 {} (.lamp "null") n f ∧ (n, path) ∈ n.visits ∧ n.shape none = .ok s ∧
        Warns false n path ∧ s.enumValues = ["0", "1"] ∧ s.enumNames = ["off", "on"] := by
  obtain ⟨f, hresults, n, hn, hfound⟩ := exists_found_of_one 3 {} true (.inMemory "")
    (d := .lamp "null") (P := fun n => n.declaredNames? == some ["off", "on"] &&
      n.declaredValues?.any (·.length == 3) && (n.shape none).toOption.any fun s =>
        s.enumValues == ["0", "1"] && s.enumNames == ["off", "on"])
    (by decide +kernel)
  simp only [Bool.and_eq_true, beq_iff_eq, Option.any_eq_true] at hn
  obtain ⟨⟨hnames, values, hvalues, hlength⟩, s, hs, hkept⟩ := hn
  obtain ⟨path, hvisit⟩ := (hfound.visited n).1 n.self_mem_nodes
  refine ⟨f, ?_, n, path, s, hfound, hvisit, toOption_eq_some.1 hs, ?_, hkept⟩
  · rw [Corpus.lamp, hresults]
    exact List.mem_singleton_self f
  · exact warns_iff.2 ⟨values, _, hvalues, hnames, by rw [hlength]; decide⟩

end Check

end SchemaCatalog
