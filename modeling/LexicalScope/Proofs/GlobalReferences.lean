import LexicalScope.Proofs.ReferenceLists
import LexicalScope.Proofs.Sessions
import LexicalScope.Proofs.Standing

/-!
References to undeclared globals. The query looks a name up in the global table and searches the
references of the variable for the identifier. This finds exactly the references that are bound to
a global without definitions: names, tables and both ends of every link agree.
-/
namespace LexicalScope

namespace ScopeGraph

/-- Some reference at `n` is bound to a global that has no definition. -/
def RefersToUndeclared {ν : Type} (g : ScopeGraph ν) (n : NodeId) : Prop :=
  ∃ r reference v variable', g.getReference? r = some reference ∧ reference.identifier = n ∧
    reference.resolved = some v ∧ g.getVariable? v = some variable' ∧
    variable'.scope = .global ∧ variable'.definitions = #[]

section Names

variable {ν μ : Type} [DecidableEq ν] [DecidableEq μ]

/-- Renaming leaves what a node refers to. -/
theorem refersToUndeclared_mapNames (f : ν → μ) (g : ScopeGraph ν) (n : NodeId) :
    (g.mapNames f).RefersToUndeclared n ↔ g.RefersToUndeclared n := by
  simp only [RefersToUndeclared, getReference?_mapNames, getVariable?_mapNames]
  constructor
  · rintro ⟨r, reference', v, variable'', hr', hn, hv, hvar', hscope, hdefinitions⟩
    obtain ⟨reference, hr, rfl⟩ := Option.map_eq_some_iff.1 hr'
    obtain ⟨variable', hvar, rfl⟩ := Option.map_eq_some_iff.1 hvar'
    exact ⟨r, reference, v, variable', hr, hn, hv, hvar, hscope, hdefinitions⟩
  · rintro ⟨r, reference, v, variable', hr, hn, hv, hvar, hscope, hdefinitions⟩
    exact ⟨r, reference.mapName f, v, variable'.mapName f, by rw [hr, Option.map_some], hn, hv,
      by rw [hvar, Option.map_some], hscope, hdefinitions⟩

end Names

section Analyzed

variable {ν : Type} [DecidableEq ν] {g : ScopeGraph ν} {t : Tree} {arguments : ν}
  (hg : g.Analyzed t arguments) {r : ReferenceId} {reference : Reference ν} {v : VariableId}
  {variable' : Variable ν}
include hg

/-- The answer to the query for a name. -/
theorem Analyzed.isGlobalReference_iff {name : ν} {n : NodeId} :
    g.isGlobalReference name n = true ↔
      ∃ r reference v variable', g.getReference? r = some reference ∧ reference.name = name ∧
        reference.identifier = n ∧ reference.resolved = some v ∧
        g.getVariable? v = some variable' ∧ variable'.scope = .global ∧
        variable'.definitions = #[] := by
  have hdeclared (variable' : Variable ν) :
      (!variable'.isDeclared) = true ↔ variable'.definitions = #[] := by
    rw [Variable.isDeclared, Bool.not_not, Array.isEmpty_iff]
  unfold isGlobalReference
  simp only [Option.any_eq_true, Option.bind_eq_some_iff, Bool.and_eq_true, hdeclared,
    Array.any_eq_true', decide_eq_true_eq]
  constructor
  · rintro ⟨variable', ⟨v, hname, hvar⟩, hdefinitions, r, hmem, reference, hr, hn⟩
    obtain ⟨reference', hr', hv⟩ := (hg.mem_references_iff hvar).1 hmem
    obtain rfl : reference = reference' := Option.some.inj (hr.symm.trans hr')
    obtain ⟨variable'', hvar', hscope, hkey⟩ := hg.inTable hname
    obtain rfl : variable' = variable'' := Option.some.inj (hvar.symm.trans hvar')
    have htable := (hg.inTable?_of_resolved hr hv hvar).2
    exact ⟨r, reference, v, variable', hr,
      (hg.inTable htable).name_unique (hg.inTable hname), hn, hv, hvar, hscope, hdefinitions⟩
  · rintro ⟨r, reference, v, variable', hr, rfl, hn, hv, hvar, hscope, hdefinitions⟩
    have htable := (hg.inTable?_of_resolved hr hv hvar).2
    rw [hscope] at htable
    exact ⟨variable', ⟨v, htable, hvar⟩, hdefinitions, r,
      (hg.mem_references_iff hvar).2 ⟨reference, hr, hv⟩, reference, hr, hn⟩

end Analyzed

end ScopeGraph

section Analyze

variable {names names' : NameTable} {t : Tree} {o : LanguageOptions} {envs : Environments}
  {g : ScopeGraph Name}

/-- The name that an identifier spells finds all references at it. -/
theorem any_isGlobalReference_iff (h : analyze names t o envs = (names', .ok g)) (n : NodeId) :
    (t.identifierName? n).any (fun name => (names'.get? name).any (g.isGlobalReference · n)) =
      true ↔ g.RefersToUndeclared n := by
  have hg := analyzed_of_analyze h
  simp only [Option.any_eq_true, hg.isGlobalReference_iff]
  constructor
  · rintro ⟨-, -, -, -, r, reference, v, variable', hr, -, hrest⟩
    exact ⟨r, reference, v, variable', hr, hrest⟩
  · rintro ⟨r, reference, v, variable', hr, rfl, hrest⟩
    obtain ⟨w, -, occurrence, hstems⟩ := exists_visit_of_reference h hr
    have hname : t.identifierName? reference.identifier = some occurrence.name := by
      rw [hstems.identifier, Tree.identifierName?, hstems.kind]
      rfl
    have hhandle : names'.get? occurrence.name = some reference.name := by
      have hcontains : names'.contains occurrence.name := Array.contains_iff_mem.2 hstems.known
      rw [NameTable.get?, if_pos hcontains, hstems.name]
    exact ⟨_, hname, _, hhandle, r, reference, v, variable', hr, rfl, rfl, hrest⟩

end Analyze

namespace Session

/-- In the graph that a load reports, names are texts. -/
theorem Load.isGlobalReference_report {l : Load} {g : ScopeGraph String}
    (hreport : l.report = .ok g) (n : NodeId) :
    (l.file.tree.identifierName? n).any (g.isGlobalReference · n) = true ↔
      g.RefersToUndeclared n := by
  obtain ⟨names, names', g', hanalyze, -⟩ := Load.exists_analysis_of_report hreport
  obtain ⟨texts, htexts, htag⟩ := Load.report_of_analyze hanalyze
  obtain rfl : g = texts.mapNames id := Except.ok.inj (hreport.symm.trans htexts)
  have hhandle (name : String) : (texts.mapNames id).isGlobalReference name n =
      (names'.get? name).any (g'.isGlobalReference · n) :=
    (Holds.isGlobalReference_handle htag name n).symm
  simp only [hhandle]
  rw [any_isGlobalReference_iff hanalyze, ScopeGraph.refersToUndeclared_mapNames,
    ← ScopeGraph.refersToUndeclared_mapNames names'.tag, htag,
    ScopeGraph.refersToUndeclared_mapNames]

end Session

/-- A session says of a node of its file that it refers to an undeclared global exactly if a
reference there is bound to one. So it denies this of names that are unresolved or bound in an
inner scope, be it to a declaration or to the `arguments` of a function, and of names that the
source declares as globals. -/
theorem isGlobalReference_run {s : Session} (hs : s.active = none) {actions : List Session.Action}
    (htables : ∀ l, .load l ∈ actions → l.file.table.index < s.names.tables.size)
    {l : Session.Load} (hl : Session.lastLoad actions = some l) {g : ScopeGraph String}
    (hreport : l.report = .ok g) {n : NodeId} (hn : l.file.tree.contains n) :
    ∃ answer, ((s.run actions).ask (.isGlobalReference n)).1 = .ok answer ∧
      (answer = true ↔ g.RefersToUndeclared n) ∧
      ((∀ r reference, g.getReference? r = some reference → reference.identifier = n →
        ∀ v variable', reference.resolved = some v → g.getVariable? v = some variable' →
          variable'.scope ≠ .global) → answer = false) ∧
      ∀ name v variable', l.file.tree.identifierName? n = some name →
        g.globalVariable? name = some v → g.getVariable? v = some variable' →
        variable'.definitions ≠ #[] → answer = false := by
  have hanswer := (Session.reflects_run hs htables).ask_fst hl (.isGlobalReference n)
  have hiff := Session.Load.isGlobalReference_report hreport n
  refine ⟨_, ?_, hiff, fun hinner => ?_, fun name v variable' hname hv hvar hdeclared => ?_⟩
  · rw [hanswer, Session.Load.answer, hreport]
    show Session.Request.answerAt l.file.tree n _ = _
    rw [Session.Request.answerAt, if_pos hn]
  · rw [Bool.eq_false_iff, ne_eq, hiff]
    rintro ⟨r, reference, v, variable', hr, hn, hv, hvar, hscope, -⟩
    exact hinner r reference hr hn v variable' hv hvar hscope
  · rw [hname, Option.any_some, ScopeGraph.isGlobalReference, hv, Option.bind_some, hvar,
      Option.any_some, Variable.isDeclared, Bool.not_not, Array.isEmpty_eq_false_iff.2 hdeclared,
      Bool.false_and]

/-- The configured `b` is an undeclared global; the implicit `a` is none, as it is unresolved. -/
theorem isGlobalReference_assignedTwice : ∃ t, ∃ l : Session.Load,
    Build.tree assignedTwice = .ok t ∧
    l = ⟨⟨t, ⟨0⟩⟩, ({} : LanguageOptions).withGlobal "b" .writable, {}⟩ ∧
    ((({ names := ⟨#[{}]⟩ } : Session).run [.load l]).ask (.isGlobalReference ⟨8⟩)).1 = .ok true ∧
    ((({ names := ⟨#[{}]⟩ } : Session).run [.load l]).ask (.isGlobalReference ⟨9⟩)).1 =
      .ok false := by
  obtain ⟨t, g, ht, hreport, hb, ha, hglobal, hunresolved⟩ := Session.Load.exists_report
    assignedTwice (({} : LanguageOptions).withGlobal "b" .writable) {} (fun t g =>
      t.contains ⟨8⟩ = true ∧ t.contains ⟨9⟩ = true ∧
      (g.getReference? ⟨3⟩).any (fun r => r.identifier = ⟨8⟩ &&
        r.resolved.any fun v => (g.getVariable? v).any fun x =>
          x.scope = .global && x.definitions.isEmpty) = true ∧
      ∀ r ∈ g.references.toList, r.identifier = ⟨9⟩ → r.resolved = none)
    (by decide +kernel)
  let l : Session.Load := ⟨⟨t, ⟨0⟩⟩, ({} : LanguageOptions).withGlobal "b" .writable, {}⟩
  let s : Session := { names := ⟨#[{}]⟩ }
  have htables := Session.table_lt_of_mem_load (l := l) Nat.zero_lt_one
  have hlast : Session.lastLoad [.load l] = some l := rfl
  refine ⟨t, l, ht, rfl, ?_, ?_⟩
  · obtain ⟨answer, hanswer, hiff, -⟩ := isGlobalReference_run (s := s) rfl htables hlast hreport hb
    simp only [Option.any_eq_true, Bool.and_eq_true, decide_eq_true_eq,
      Array.isEmpty_iff] at hglobal
    obtain ⟨reference, hr, hn, v, hv, variable', hvar, hscope, hdefinitions⟩ := hglobal
    rw [hanswer, hiff.2 ⟨_, reference, v, variable', hr, hn, hv, hvar, hscope, hdefinitions⟩]
  · obtain ⟨answer, hanswer, -, hinner, -⟩ := isGlobalReference_run (s := s) rfl htables hlast
      hreport ha
    rw [hanswer, hinner]
    intro r reference hr hn v variable' hv
    rw [hunresolved reference (Array.mem_toList_iff.2 (Array.mem_of_getElem? hr)) hn] at hv
    cases hv

end LexicalScope
