import LexicalScope.Proofs.LexicalResolution
import LexicalScope.Proofs.Sessions
import LexicalScope.Proofs.Standing

/-!
Looking a name up by its text. The look-up knows the finished tables only, and nothing of the
places of names. Where neither a `with` body nor a parameter list comes between, it finds what
the references of the file are bound to; other texts that enter the name table later do not
matter. What it finds belongs to a scope on the way up and is called by the text.
-/
namespace LexicalScope

namespace NameTable

variable {names : NameTable}

/-- A text has the handle that resolves to it. -/
theorem get?_eq_some_iff {text : String} {n : Name} :
    names.get? text = some n ↔ names.resolve? n = some text := by
  unfold get?
  constructor
  · intro h
    split at h
    · next hcontains =>
      obtain rfl := Option.some.inj h
      exact resolve?_handle (by simpa [contains] using hcontains)
    · cases h
  · intro h
    have hmem : text ∈ names.texts := Array.mem_of_getElem? h
    rw [if_pos (by simpa [contains] using hmem), names.eq_of_resolve? (resolve?_handle hmem) h]

end NameTable

namespace ScopeGraph

/-- On the way up from a reference, no `with` body has its name, and no parameter list hides a
variable of that name from it. -/
structure Unobstructed (g : ScopeGraph Name) (t : Tree) (r : Reference Name) : Prop where
  withBody : ∀ s ∈ g.chain r.origin, ∀ scope, g.getScope? s = some scope →
    scope.kind = .withBody → scope.table.get? r.name = none
  visible : ∀ s ∈ g.chain r.origin, ∀ scope v variable', g.getScope? s = some scope →
    scope.table.get? r.name = some v → g.getVariable? v = some variable' →
    ¬scope.Hides t r variable'

/-- Each scope on the way then offers what its table has. -/
theorem Unobstructed.offer?_eq {g : ScopeGraph Name} {t : Tree} {r : ReferenceId}
    {reference : Reference Name} (h : g.Unobstructed t reference) (hg : g.WellFormed)
    (hr : g.getReference? r = some reference) {s : ScopeId} (hs : s ∈ g.chain reference.origin) :
    g.offer? t r s = g.inTable? s reference.name := by
  obtain ⟨scope, hscope⟩ := getScope?_of_lt (hg.size_of_mem_chain (hg.origin_lt hr) hs)
  have htable : g.inTable? s reference.name = scope.table.get? reference.name := by
    rw [inTable?, hscope, Option.bind_some]
  cases hv : scope.table.get? reference.name with
  | none =>
    rw [htable, hv, offer?_eq_none_iff hg hr]
    rintro v ⟨scope', -, hscope', -, -, hv', -⟩
    obtain rfl : scope = scope' := Option.some.inj (hscope.symm.trans hscope')
    rw [hv] at hv'
    cases hv'
  | some v =>
    obtain ⟨variable', hvar, -⟩ := hg.inTable (htable.trans hv)
    rw [htable, hv, offer?_eq_some_iff hg hr]
    refine ⟨scope, variable', hscope, hvar, ?_, hv, h.visible s hs scope v variable' hscope hv hvar⟩
    intro hkind
    rw [h.withBody s hs scope hscope hkind] at hv
    cases hv

/-- What a name stands for in a scope is a variable of that name in a scope on the way up. -/
theorem WellFormed.owns_of_findVariable? {ν : Type} [DecidableEq ν] {g : ScopeGraph ν}
    (hg : g.WellFormed) {s : ScopeId} {name : ν} {v : VariableId}
    (h : g.findVariable? s name = some v) : ∃ x ∈ g.chain s, g.Owns x name v := by
  obtain ⟨x, hx, hv⟩ := List.exists_of_findSome?_eq_some h
  exact ⟨x, hx, hg.inTable hv⟩

end ScopeGraph

section Analyze

variable {names names' : NameTable} {t : Tree} {o : LanguageOptions} {envs : Environments}
  {g : ScopeGraph Name}

/-- The name of a reference keeps its text while the table grows. -/
theorem exists_resolve?_of_reference (h : analyze names t o envs = (names', .ok g))
    {r : ReferenceId} {reference : Reference Name} (hr : g.getReference? r = some reference) :
    ∃ text, ∀ later, (names'.addAll later).resolve? reference.name = some text := by
  obtain ⟨v, -, occurrence, hstems⟩ := exists_visit_of_reference h hr
  refine ⟨occurrence.name, NameTable.resolve?_addAll ?_⟩
  rw [← hstems.name]
  exact NameTable.resolve?_handle hstems.known

/-- Looking up the text of an unobstructed reference from its scope finds what the reference is
bound to, or nothing if it is not bound. From any scope and for any text, only variables of that
name in scopes around are found. -/
theorem findText_of_analyze (h : analyze names t o envs = (names', .ok g)) (later : List String) :
    (∀ r reference, g.getReference? r = some reference → g.Unobstructed t reference →
      ∃ text, (names'.addAll later).resolve? reference.name = some text ∧
        g.findText? (names'.addAll later) reference.origin text = reference.resolved) ∧
    (∀ s text v, g.findText? (names'.addAll later) s text = some v →
      ∃ variable', g.getVariable? v = some variable' ∧ variable'.scope ∈ g.chain s ∧
        (names'.addAll later).resolve? variable'.name = some text) := by
  have hg := analyzed_of_analyze h
  constructor
  · intro r reference hr hunobstructed
    obtain ⟨text, htext⟩ := exists_resolve?_of_reference h hr
    refine ⟨text, htext later, ?_⟩
    rw [ScopeGraph.findText?, NameTable.get?_eq_some_iff.2 (htext later), Option.bind_some,
      hg.resolved_eq_findSome? hr]
    exact (ScopeGraph.findSome?_congr fun s hs =>
      hunobstructed.offer?_eq hg.toWellFormed hr hs).symm
  · intro s text v hfound
    obtain ⟨n, hn, hv⟩ := Option.bind_eq_some_iff.1 hfound
    obtain ⟨x, hx, variable', hvar, rfl, rfl⟩ := hg.owns_of_findVariable? hv
    exact ⟨variable', hvar, hx, NameTable.get?_eq_some_iff.1 hn⟩

end Analyze

/-- `function f(p) { with (p) { x } }` -/
def globalInWith : Build NodeId := do
  let p ← .identifier "p"
  let object ← .identifier "p"
  let x ← .alloc (.expressionStatement (← .identifier "x") none)
  let statement ← .alloc (.withStatement object (← .block [x]))
  .alloc (.program [← .functionDeclaration (some "f") [p] [statement]] .script)

/-- With `x` configured, the reference is bound late, and the look-up goes the same way through the
`with` body and the function. -/
theorem findText_globalInWith : ∃ t names g reference variable',
    Build.tree globalInWith = .ok t ∧
    analyze {} t (({} : LanguageOptions).withGlobal "x" .writable) {} = (names, .ok g) ∧
    g.getReference? ⟨1⟩ = some reference ∧ g.Unobstructed t reference ∧
    g.chain reference.origin = [⟨3⟩, ⟨2⟩, ⟨1⟩, ⟨0⟩] ∧
    g.findText? (names.addAll ["y"]) reference.origin "x" = some ⟨3⟩ ∧
    reference.resolved = some ⟨3⟩ ∧ g.getVariable? ⟨3⟩ = some variable' ∧
    variable'.scope ∈ g.chain reference.origin ∧
    (names.addAll ["y"]).resolve? variable'.name = some "x" := by
  obtain ⟨t, names, g, ht, h, hx⟩ := exists_analysis globalInWith
    (({} : LanguageOptions).withGlobal "x" .writable) {} (fun _ names g =>
      (g.getReference? ⟨1⟩).any (fun r => decide (g.chain r.origin = [⟨3⟩, ⟨2⟩, ⟨1⟩, ⟨0⟩] ∧
        r.resolved = some ⟨3⟩ ∧ (names.addAll ["y"]).resolve? r.name = some "x") &&
        (g.chain r.origin).all fun s => (g.getScope? s).any fun scope =>
          scope.kind = .global ∨ scope.table.get? r.name = none) = true)
    (by decide +kernel)
  simp only [Option.any_eq_true, Bool.and_eq_true, decide_eq_true_eq, List.all_eq_true] at hx
  obtain ⟨reference, hr, ⟨hchain, hresolved, hname⟩, htables⟩ := hx
  have hglobal : ∀ s ∈ g.chain reference.origin, ∀ scope, g.getScope? s = some scope →
      scope.kind = .global ∨ scope.table.get? reference.name = none := by
    intro s hs scope hscope
    obtain ⟨scope', hscope', htable⟩ := htables s hs
    obtain rfl : scope = scope' := Option.some.inj (hscope.symm.trans hscope')
    exact htable
  have hunobstructed : g.Unobstructed t reference := {
    withBody := fun s hs scope hscope hkind =>
      (hglobal s hs scope hscope).resolve_left (by simp [hkind])
    visible := by
      rintro s hs scope v variable' hscope hv - ⟨hkind, -⟩
      rcases hglobal s hs scope hscope with hkind' | hnone
      · exact nomatch hkind.symm.trans hkind'
      · exact nomatch hv.symm.trans hnone }
  obtain ⟨hagrees, hfound⟩ := findText_of_analyze h ["y"]
  obtain ⟨text, htext, hlookup⟩ := hagrees _ reference hr hunobstructed
  obtain rfl : text = "x" := Option.some.inj (htext.symm.trans hname)
  rw [hresolved] at hlookup
  obtain ⟨variable', hvar, hscope, hcalled⟩ := hfound _ _ _ hlookup
  exact ⟨t, names, g, reference, variable', ht, h, hr, hunobstructed, hchain, hlookup, hresolved,
    hvar, hscope, hcalled⟩

end LexicalScope
