import Mathlib.Algebra.GroupWithZero.Nat
import SchemaCatalog.Proofs.Check.Findings
import SchemaCatalog.Proofs.Corpus
import SchemaCatalog.Proofs.OrderedMap

/-!
# The report of a check agrees with itself

A report counts files and diagnostics, gives each file a status and the whole check an exit code,
each by a rule of its own over the diagnostics of the files.  The rules agree.  A file fails exactly
if it has an error or, where the check is strict, any diagnostic (`FileResult.fails_iff`), so the
exit code, which is read off the totals, is zero exactly if no file fails
(`Report.exitCode_ofResults`).

The diagnostics of a file can also be gathered in a table under its name: a first pass over the
documents makes an entry for each of them, with the fault of those that are no schemas, and a second
pass adds what is found in the others (`table`).  A corpus has distinct names, so the passes keep
the documents apart and in their order, and the table is the results (`run_table`).
-/

namespace SchemaCatalog.Check

open Resolution Resolver

variable {limit : Nat} {o : Options} {s : Resolver} {strict : Bool} {base : Address}

/-! ## Status and totals -/

namespace FileResult

variable {f : FileResult}

lemma any_severity_iff {severity : Severity} :
    f.diagnostics.any (·.severity == severity) = true ↔
      ∃ d ∈ f.diagnostics, d.severity = severity := by
  simp only [List.any_eq_true, beq_iff_eq]

lemma status_eq_error_iff : f.status = .error ↔ ∃ d ∈ f.diagnostics, d.severity = .error := by
  rw [← any_severity_iff, status]
  split
  · next h => exact iff_of_true rfl h
  · next h =>
    refine iff_of_false (fun hstatus => ?_) h
    split at hstatus <;> cases hstatus

lemma status_eq_warning_iff : f.status = .warning ↔
    (∃ d ∈ f.diagnostics, d.severity = .warning) ∧ ∀ d ∈ f.diagnostics, d.severity ≠ .error := by
  have hnone : (∀ d ∈ f.diagnostics, d.severity ≠ .error) ↔
      ¬ f.diagnostics.any (·.severity == .error) = true := by
    rw [any_severity_iff]
    push Not
    rfl
  rw [hnone, ← any_severity_iff, status]
  by_cases herror : f.diagnostics.any (·.severity == .error) = true
  · rw [if_pos herror]
    exact iff_of_false Status.noConfusion fun h => h.2 herror
  · rw [if_neg herror]
    split
    · next hwarning => exact iff_of_true rfl ⟨hwarning, herror⟩
    · next hwarning => exact iff_of_false Status.noConfusion fun h => hwarning h.1

lemma severity_cases (d : Diagnostic) : d.severity = .error ∨ d.severity = .warning := by
  cases d.severity
  · exact .inl rfl
  · exact .inr rfl

lemma status_eq_ok_iff : f.status = .ok ↔ f.diagnostics = [] := by
  constructor
  · intro h
    have herror : ¬ ∃ d ∈ f.diagnostics, d.severity = .error := by
      rw [← status_eq_error_iff, h]
      exact Status.noConfusion
    have hwarning : ¬ ∃ d ∈ f.diagnostics, d.severity = .warning := fun hexists =>
      absurd (status_eq_warning_iff.2 ⟨hexists, fun d hd hs => herror ⟨d, hd, hs⟩⟩) (by simp [h])
    rw [List.eq_nil_iff_forall_not_mem]
    intro d hd
    rcases severity_cases d with hs | hs
    · exact herror ⟨d, hd, hs⟩
    · exact hwarning ⟨d, hd, hs⟩
  · intro h
    simp [status, h]

lemma fails_iff : f.fails strict = true ↔
    ∃ d ∈ f.diagnostics, strict = true ∨ d.severity = .error := by
  cases strict with
  | false => simp [fails, status_eq_error_iff]
  | true =>
    simp [fails, status_eq_ok_iff, List.eq_nil_iff_forall_not_mem]

end FileResult

namespace Report

variable {results : List FileResult} {severity : Severity}

lemma total_eq_sum : total results severity = (results.map (·.count severity)).sum := by
  rw [total, List.countP_flatMap]
  rfl

lemma total_eq_zero_iff :
    total results severity = 0 ↔ ∀ f ∈ results, ∀ d ∈ f.diagnostics, d.severity ≠ severity := by
  rw [total, List.countP_eq_zero]
  simp only [List.mem_flatMap, beq_iff_eq]
  exact ⟨fun h f hf d hd => h d ⟨f, hf, hd⟩, fun h d ⟨f, hf, hd⟩ => h f hf d hd⟩

lemma exitCode_eq_zero_iff {r : Report} :
    r.exitCode strict = 0 ↔ r.errors = 0 ∧ (strict = true → r.warnings = 0) := by
  cases strict <;> simp [exitCode, isOk]

lemma exitCode_ofResults :
    (ofResults base strict results).exitCode strict = 0 ↔
      (ofResults base strict results).failed = 0 := by
  have hfailed : (ofResults base strict results).failed = 0 ↔
      ∀ f ∈ results, ∀ d ∈ f.diagnostics, ¬ (strict = true ∨ d.severity = .error) := by
    show results.countP (FileResult.fails strict) = 0 ↔ _
    rw [List.countP_eq_zero]
    simp only [FileResult.fails_iff, not_exists, not_and]
  have herrors : (ofResults base strict results).errors = 0 ↔ _ := total_eq_zero_iff
  have hwarnings : (ofResults base strict results).warnings = 0 ↔ _ := total_eq_zero_iff
  rw [exitCode_eq_zero_iff, hfailed, herrors, hwarnings]
  constructor
  · rintro ⟨hnoError, hnoWarning⟩ f hf d hd (hstrict | herror)
    · rcases FileResult.severity_cases d with hs | hs
      · exact hnoError f hf d hd hs
      · exact hnoWarning hstrict f hf d hd hs
    · exact hnoError f hf d hd herror
  · intro h
    exact ⟨fun f hf d hd hs => h f hf d hd (.inr hs),
      fun hstrict f hf d hd _ => h f hf d hd (.inl hstrict)⟩

end Report

/-! ## Two passes over a table -/

/-- The diagnostics of files, in the order in which the files first came. -/
abbrev Table := OrderedMap String (List Diagnostic)

/-- Add diagnostics to those of a file. -/
def Table.add (t : Table) (file : String) (found : List Diagnostic) : Table :=
  OrderedMap.insert t file ((OrderedMap.get? t file).getD [] ++ found)

/-- What is wrong with a document as far as decoding tells. -/
def decodingFaults : Except DecodeError Node → List Diagnostic
  | .error e => [⟨[], .undecodable e⟩]
  | .ok _ => []

/-- An entry for every document, with what decoding tells. -/
def firstPass (t : Table) (docs : List (Document × Except DecodeError Node)) : Table :=
  docs.foldl (fun t p => t.add p.1.name (decodingFaults p.2)) t

/-- The table with what is found in the documents that are schemas. -/
def secondPass (limit : Nat) (o : Options) (t : Table)
    (docs : List (Document × Except DecodeError Node)) : Checking Table :=
  docs.foldlM (fun t p =>
    match p.2 with
    | .error _ => pure t
    | .ok n => do return t.add p.1.name (← document limit o p.1 n)) t

/-- The diagnostics of a corpus, gathered in a table. -/
def table (limit : Nat) (c : Corpus) (o : Options) : Checking Table := do
  let docs ← c.documents.mapM decode
  secondPass limit o (firstPass [] docs) docs

namespace Table

variable {t before after : Table} {file : String} {found old : List Diagnostic}

lemma add_of_notMem (h : file ∉ OrderedMap.keys t) : t.add file found = t ++ [(file, found)] := by
  rw [add, OrderedMap.get?_eq_none_iff.2 h, OrderedMap.insert_of_notMem h]
  rfl

lemma add_append_of_notMem (h : file ∉ OrderedMap.keys before) :
    add (before ++ (file, old) :: after) file found = before ++ (file, old ++ found) :: after := by
  rw [add, OrderedMap.get?_append_of_notMem h, OrderedMap.insert_append_of_notMem h]
  rfl

end Table

variable {t : Table} {p : Document × Except DecodeError Node}
variable {docs : List (Document × Except DecodeError Node)}

/-- The entries of a first pass, in the order of the documents. -/
def entries (docs : List (Document × Except DecodeError Node)) : Table :=
  docs.map fun p => (p.1.name, decodingFaults p.2)

/-- The names of documents. -/
def files (docs : List (Document × Except DecodeError Node)) : List String :=
  docs.map fun p => p.1.name

/-- The first of documents that are new to a table is, and once it has an entry the others are. -/
lemma fresh_cons (fresh : (OrderedMap.keys t ++ files (p :: docs)).Nodup) :
    p.1.name ∉ OrderedMap.keys t ∧
      ∀ found, (OrderedMap.keys (t ++ [(p.1.name, found)]) ++ files docs).Nodup := by
  constructor
  · intro hmem
    exact List.disjoint_of_nodup_append fresh hmem List.mem_cons_self
  · intro found
    rw [OrderedMap.keys, List.map_append, List.append_assoc]
    exact fresh

lemma firstPass_eq (fresh : (OrderedMap.keys t ++ files docs).Nodup) :
    firstPass t docs = t ++ entries docs := by
  induction docs generalizing t with
  | nil => exact (List.append_nil t).symm
  | cons p docs ih =>
    obtain ⟨hnew, hrest⟩ := fresh_cons fresh
    calc firstPass t (p :: docs)
      _ = firstPass (t ++ [(p.1.name, decodingFaults p.2)]) docs := by
        rw [firstPass, List.foldl_cons, Table.add_of_notMem hnew, firstPass]
      _ = t ++ [(p.1.name, decodingFaults p.2)] ++ entries docs := ih (hrest _)
      _ = t ++ entries (p :: docs) := by rw [List.append_assoc, entries, entries]; rfl

/-- What the second pass does to the entry of a document is to turn it into its result. -/
lemma run_secondPass_cons (hnew : p.1.name ∉ OrderedMap.keys t) :
    (secondPass limit o (t ++ entries (p :: docs)) (p :: docs)).run s =
      (secondPass limit o
        (t ++ [(p.1.name, ((result limit o p).run s).1.diagnostics)] ++ entries docs) docs).run
        ((result limit o p).run s).2 := by
  obtain ⟨d, decoded⟩ := p
  rw [secondPass, List.foldlM_cons, StateT.run_bind, run_result, List.append_assoc]
  cases decoded with
  | error e => rfl
  | ok n =>
    have hadd : ∀ found, Table.add (t ++ entries ((d, .ok n) :: docs)) d.name found =
        t ++ (d.name, found) :: entries docs := fun found => Table.add_append_of_notMem hnew
    show (secondPass limit o (Table.add _ d.name ((document limit o d n).run s).1) docs).run
      ((document limit o d n).run s).2 = _
    rw [hadd]
    rfl

lemma run_secondPass (fresh : (OrderedMap.keys t ++ files docs).Nodup) :
    (secondPass limit o (t ++ entries docs) docs).run s =
      (t ++ ((docs.mapM (result limit o)).run s).1.map fun f => (f.file, f.diagnostics),
        ((docs.mapM (result limit o)).run s).2) := by
  induction docs generalizing t s with
  | nil => rfl
  | cons p docs ih =>
    obtain ⟨hnew, hrest⟩ := fresh_cons fresh
    have hfile : ((result limit o p).run s).1.file = p.1.name := by
      rw [run_result]
      cases p.2 <;> rfl
    rw [run_secondPass_cons hnew, ih (hrest _), run_mapM_cons, List.map_cons, hfile,
      List.append_assoc]
    rfl

/-- **The table of a corpus with distinct names is the results of its check.** -/
lemma run_table {c : Corpus} (nodup : (c.documents.map Document.name).Nodup) :
    ((table limit c o).run s).1 =
      ((corpus limit c o strict).run s).1.results.map fun f => (f.file, f.diagnostics) := by
  have fresh : ∀ s, (OrderedMap.keys ([] : Table) ++
      files ((c.documents.mapM decode).run s).1).Nodup := by
    intro s
    rw [← fst_mapM_decode c.documents s, List.map_map] at nodup
    exact nodup
  have hfirst : firstPass [] ((c.documents.mapM decode).run s).1 =
      [] ++ entries ((c.documents.mapM decode).run s).1 := firstPass_eq (fresh s)
  rw [table, StateT.run_bind]
  show ((secondPass limit o (firstPass [] ((c.documents.mapM decode).run s).1)
    ((c.documents.mapM decode).run s).1).run ((c.documents.mapM decode).run s).2).1 = _
  rw [hfirst, run_secondPass (fresh s)]
  rfl

/-! ## Documents and their results -/

/-- The results of a list of programs are in the places of the elements they are of. -/
lemma forall₂_mapM {α β : Type} {f : α → Checking β} {R : α → β → Prop} {l : List α}
    (h : ∀ a ∈ l, ∀ s, R a ((f a).run s).1) : List.Forall₂ R l ((l.mapM f).run s).1 := by
  induction l generalizing s with
  | nil => exact .nil
  | cons a l ih =>
    obtain ⟨ha, hl⟩ := List.forall_mem_cons.1 h
    rw [run_mapM_cons]
    exact .cons (ha s) (ih hl)

/-- What is found in a document that is a schema is never that it is none. -/
lemma finding_ne_undecodable {d : Document} {raw : Node} {x : Diagnostic}
    (hx : x ∈ ((document limit o d raw).run s).1) (e : DecodeError) :
    x.finding ≠ .undecodable e := by
  have hbroken (y : Diagnostic) (hy : y ∈ ((references d.address raw).run s).1) :
      y.finding ≠ .undecodable e := by
    obtain ⟨cause, hcause⟩ := finding_of_mem_references hy
    rw [hcause]
    exact Finding.noConfusion
  rw [run_document] at hx
  generalize (references d.address raw).run s = p at hbroken hx
  obtain ⟨_ | ⟨y, broken⟩, s₁⟩ := p
  · dsimp only at hx
    generalize outcome (Resolution.document limit d.address) s₁ = q at hx
    obtain ⟨cause | n, s₂⟩ := q
    · obtain rfl := List.mem_singleton.1 hx
      exact Finding.noConfusion
    · obtain ⟨v, -, hx⟩ := List.mem_flatMap.1 hx
      rcases mem_judge_iff.1 hx with ⟨_, _, rfl⟩ | ⟨_, _, -, rfl⟩ | ⟨-, _, _, rfl⟩ <;>
        exact Finding.noConfusion
  · exact hbroken x hx

/-- Whether a result is one of a document: it has its name, and it says that the document is no
schema, and nothing else, exactly if it is none. -/
structure ResultOf (d : Document) (f : FileResult) : Prop where
  file : f.file = d.name
  fault : ∀ e, Node.ofBytes d.content = .error e → f.diagnostics = [⟨[], .undecodable e⟩]
  schema : ∀ n, Node.ofBytes d.content = .ok n →
    ∀ x ∈ f.diagnostics, ∀ e, x.finding ≠ .undecodable e

namespace ResultOf

variable {d : Document} {f : FileResult}

lemma fault_iff (h : ResultOf d f) (e : DecodeError) :
    Node.ofBytes d.content = .error e ↔ ⟨[], .undecodable e⟩ ∈ f.diagnostics := by
  constructor
  · intro hfault
    rw [h.fault e hfault]
    exact List.mem_singleton_self _
  · intro hmem
    cases hbytes : Node.ofBytes d.content with
    | error e' =>
      rw [h.fault e' hbytes, List.mem_singleton] at hmem
      cases hmem
      rfl
    | ok n => exact absurd rfl (h.schema n hbytes _ hmem e)

/-- That a document is no schema is all that is found in it. -/
lemma diagnostics_eq (h : ResultOf d f) {x : Diagnostic} (hx : x ∈ f.diagnostics) {e : DecodeError}
    (he : x.finding = .undecodable e) : f.diagnostics = [x] := by
  cases hbytes : Node.ofBytes d.content with
  | error e' =>
    rw [h.fault e' hbytes] at hx ⊢
    rw [List.mem_singleton.1 hx]
  | ok n => exact absurd he (h.schema n hbytes x hx e)

end ResultOf

/-- Whether a document was decoded, and the reason kept if it is no schema. -/
structure Decoded (d : Document) (p : Document × Except DecodeError Node) : Prop where
  document : p.1 = d
  fault : ∀ e, Node.ofBytes d.content = .error e → p.2 = .error e
  schema : ∀ n, Node.ofBytes d.content = .ok n → ∃ m, p.2 = .ok m

lemma decoded_decode (d : Document) (s : Resolver) : Decoded d ((decode d).run s).1 := by
  rw [run_decode]
  cases hbytes : Node.ofBytes d.content with
  | error e =>
    refine ⟨rfl, fun e' he' => ?_, fun n hn => ?_⟩
    · exact congrArg Except.error (Except.error.inj (hbytes.symm.trans he'))
    · cases hbytes.symm.trans hn
  | ok n =>
    refine ⟨rfl, fun e he => ?_, fun _ _ => ⟨_, rfl⟩⟩
    cases hbytes.symm.trans he

lemma Decoded.resultOf {d : Document} {p : Document × Except DecodeError Node} (h : Decoded d p)
    (s : Resolver) : ResultOf d ((result limit o p).run s).1 := by
  obtain ⟨rfl, hfault, hschema⟩ := h
  rw [run_result]
  refine ⟨?_, fun e he => ?_, fun n hn x hx e => ?_⟩
  · cases p.2 <;> rfl
  · rw [hfault e he]
  · obtain ⟨m, hm⟩ := hschema n hn
    rw [hm] at hx
    exact finding_ne_undecodable hx e

/-- The results of a check are those of the documents of the corpus, in their places. -/
lemma forall₂_results (c : Corpus) :
    List.Forall₂ ResultOf c.documents ((corpus limit c o strict).run s).1.results := by
  have hdecoded : List.Forall₂ Decoded c.documents ((c.documents.mapM decode).run s).1 :=
    forall₂_mapM fun d _ s => decoded_decode d s
  have hresults := forall₂_mapM (l := ((c.documents.mapM decode).run s).1)
    (f := result limit o) (s := ((c.documents.mapM decode).run s).2)
    (R := fun p f => ∃ s, f = ((result limit o p).run s).1) fun _ _ s => ⟨s, rfl⟩
  refine forall₂_trans hdecoded hresults fun d _ p _ f _ hp ⟨s, hs⟩ => ?_
  rw [hs]
  exact hp.resultOf s

lemma map_file_results (c : Corpus) :
    ((corpus limit c o strict).run s).1.results.map (·.file) = c.documents.map Document.name := by
  have hnames : List.Forall₂ (· = ·) (((corpus limit c o strict).run s).1.results.map (·.file))
      (c.documents.map Document.name) := by
    rw [List.forall₂_map_left_iff, List.forall₂_map_right_iff]
    exact (forall₂_results c).flip.imp fun _ _ h => h.file
  rwa [List.forall₂_eq_eq_eq] at hnames

lemma countP_fails (results : List FileResult) :
    results.countP (FileResult.fails strict) =
      (results.filter fun f => f.diagnostics.any fun x => strict || x.severity == .error).length := by
  rw [List.countP_eq_length_filter]
  congr 1
  refine List.filter_congr fun f _ => Bool.eq_iff_iff.2 ?_
  simp [FileResult.fails_iff]

/-- **The result of a check is consistent with itself and with its exit code.**  For every corpus,
options, registry and strictness:

* the results are those of the documents, once each and in order, and their diagnostics are what
  the two passes gather in a table by name;
* the files that were checked are those that passed and those that failed, and as many as there are
  documents; those that failed have an error or, where the check is strict, any diagnostic;
* errors and warnings are the sums of the diagnostics of that severity over the files;
* the status of a file is the worst severity of its diagnostics;
* that a document is no schema is found exactly where it is none, and is all that is found there;
* the exit code is zero exactly if no file failed. -/
theorem report_consistent (limit : Nat) (base : Address) (contents : List (String × ByteArray))
    (o : Options) (strict : Bool) (r : Registry) :
    let c := ((Corpus.attempts contents).run (Corpus.empty base)).2
    let report := ((corpus limit c o strict).run (.ofRegistry r)).1
    (report.results.map (·.file) = c.documents.map Document.name ∧
      (report.results.map (·.file)).Nodup ∧
      report.results.map (fun f => (f.file, f.diagnostics)) =
        ((table limit c o).run (.ofRegistry r)).1) ∧
    (report.filesChecked = c.documents.length ∧
      report.passed + report.failed = c.documents.length ∧
      report.failed = (report.results.filter fun f =>
        f.diagnostics.any fun x => strict || x.severity == .error).length) ∧
    (report.errors =
        (report.results.map fun f => f.diagnostics.countP (·.severity == .error)).sum ∧
      report.warnings =
        (report.results.map fun f => f.diagnostics.countP (·.severity == .warning)).sum) ∧
    (∀ f ∈ report.results,
      (f.status = .error ↔ ∃ x ∈ f.diagnostics, x.severity = .error) ∧
      (f.status = .warning ↔
        (∃ x ∈ f.diagnostics, x.severity = .warning) ∧
        ∀ x ∈ f.diagnostics, x.severity ≠ .error) ∧
      (f.status = .ok ↔ f.diagnostics = [])) ∧
    (List.Forall₂ (fun d f => ∀ e, Node.ofBytes d.content = .error e ↔
        ⟨[], .undecodable e⟩ ∈ f.diagnostics) c.documents report.results ∧
      ∀ f ∈ report.results, ∀ x ∈ f.diagnostics, ∀ e, x.finding = .undecodable e →
        f.diagnostics = [x]) ∧
    (report.exitCode strict = 0 ↔ report.failed = 0) := by
  intro c report
  have hnodup : (c.documents.map Document.name).Nodup :=
    (Corpus.Reflects.attempts base contents).ordered.nodup_names
  have hresults : List.Forall₂ ResultOf c.documents report.results := forall₂_results c
  have hfiles : report.results.map (·.file) = c.documents.map Document.name :=
    map_file_results c
  have hlength : report.results.length = c.documents.length := hresults.length_eq.symm
  have hfailed : report.failed ≤ report.results.length := List.countP_le_length
  refine ⟨⟨hfiles, hfiles ▸ hnodup, (run_table hnodup).symm⟩,
    ⟨hlength, ?_, countP_fails report.results⟩, ⟨Report.total_eq_sum, Report.total_eq_sum⟩,
    fun f _ => ?_, ⟨?_, fun f hf x hx e he => ?_⟩, ?_⟩
  · show report.results.length - report.failed + report.failed = c.documents.length
    omega
  · exact ⟨FileResult.status_eq_error_iff, FileResult.status_eq_warning_iff,
      FileResult.status_eq_ok_iff⟩
  · exact hresults.imp fun _ _ h => h.fault_iff
  · obtain ⟨d, -, hd⟩ := (Matched.of_forall₂ hresults).exists_left hf
    exact hd.diagnostics_eq hx he
  · exact Report.exitCode_ofResults

end SchemaCatalog.Check
