import LexicalScope.Proofs.LexicalResolution

/-!
The implicit `arguments` of functions. It has no definition that could stand outside of the body,
so from the parameter list it is as hidden as the declarations in the body are.
-/
namespace LexicalScope

variable {ν : Type}

/-- A variable without definitions is hidden outside of the body of its function. -/
theorem Scope.hides_iff_of_undeclared {scope : Scope ν} {t : Tree} {reference : Reference ν}
    {variable' : Variable ν} (hkind : scope.kind = .function)
    (hundeclared : variable'.definitions = #[]) :
    ¬scope.Hides t reference variable' ↔ ∀ kind body, t.kind? scope.block = some kind →
      kind.functionBody? = some body → t.isWithin body reference.identifier = true := by
  simp only [Scope.Hides, hkind, hundeclared, true_and, Array.not_mem_empty, false_imp_iff,
    implies_true, and_true, not_exists, not_and, Bool.not_eq_false]

namespace ScopeGraph

variable [DecidableEq ν]

/-- A scope that has the name admits the reference unless it is a `with` body or hides the variable.
-/
theorem admits_iff_of_inTable? {g : ScopeGraph ν} {t : Tree} {reference : Reference ν}
    {s : ScopeId} {v : VariableId} {scope : Scope ν} {variable' : Variable ν}
    (hs : g.getScope? s = some scope) (hv : g.inTable? s reference.name = some v)
    (hvar : g.getVariable? v = some variable') :
    g.Admits t reference s v ↔ scope.kind ≠ .withBody ∧ ¬scope.Hides t reference variable' := by
  have htable : scope.table.get? reference.name = some v := by rwa [inTable?, hs] at hv
  constructor
  · rintro ⟨scope', variable'', hs', hvar', hwith, -, hhides⟩
    obtain rfl : scope = scope' := Option.some.inj (hs.symm.trans hs')
    obtain rfl : variable' = variable'' := Option.some.inj (hvar.symm.trans hvar')
    exact ⟨hwith, hhides⟩
  · rintro ⟨hwith, hhides⟩
    exact ⟨scope, variable', hs, hvar, hwith, htable, hhides⟩

theorem offer?_eq_none_of_inTable? {g : ScopeGraph ν} (t : Tree) {r : ReferenceId}
    {reference : Reference ν} (hr : g.getReference? r = some reference) {s : ScopeId}
    (hs : g.inTable? s reference.name = none) : g.offer? t r s = none := by
  simp [offer?, resolution?, hr, hs]

/-- The way of a reference ends at a scope that no scope before it takes the name from, if it
ends at a variable of this scope at all. -/
theorem Analyzed.resolved_eq_some_iff_admits {g : ScopeGraph ν} {t : Tree} {arguments : ν}
    (hg : g.Analyzed t arguments) {r : ReferenceId} {reference : Reference ν}
    (hr : g.getReference? r = some reference) {below above : List ScopeId} {s : ScopeId}
    (hchain : g.chain reference.origin = below ++ s :: above)
    (hbelow : ∀ x ∈ below, g.inTable? x reference.name = none) {v : VariableId}
    (hv : g.inTable? s reference.name = some v) :
    reference.resolved = some v ↔ g.Admits t reference s v := by
  have hnone : below.findSome? (g.offer? t r) = none :=
    List.findSome?_eq_none_iff.2 fun x hx => offer?_eq_none_of_inTable? t hr (hbelow x hx)
  rw [hg.resolved_eq_findSome? hr, ← offer?_eq_some_iff hg.toWellFormed hr, hchain,
    List.findSome?_append, hnone, Option.none_or, List.findSome?_cons]
  cases hoffer : g.offer? t r s with
  | some w => rfl
  | none =>
    refine iff_of_false ?_ (Option.some_ne_none v ∘ Eq.symm)
    intro habove
    obtain ⟨x, hx, hoffer'⟩ := List.exists_of_findSome?_eq_some habove
    obtain ⟨_, howns⟩ := hg.owns_of_offer? hoffer'
    have hnodup := hg.nodup_chain (hg.origin_lt hr)
    rw [hchain] at hnodup
    apply (List.nodup_cons.1 (List.nodup_append.1 hnodup).2.1).1
    exact (hg.inTable hv).scope_unique howns ▸ hx

end ScopeGraph

/-- A function has an `arguments` of its own. If the source does not declare it, then exactly the
references in the body of the function are bound to it, as far as they come up to the function. -/
theorem resolved_arguments_iff_within_body {names names' : NameTable} {t : Tree}
    {o : LanguageOptions} {envs : Environments} {g : ScopeGraph Name}
    (h : analyze names t o envs = (names', .ok g)) {r : ReferenceId} {reference : Reference Name}
    (hr : g.getReference? r = some reference)
    (hname : reference.name = names'.handle "arguments") {below above : List ScopeId}
    {s : ScopeId} {scope : Scope Name} (hchain : g.chain reference.origin = below ++ s :: above)
    (hs : g.getScope? s = some scope) (hkind : scope.kind = .function)
    (harrow : t.isArrow scope.block = false)
    (hbelow : ∀ x ∈ below, g.inTable? x reference.name = none) :
    ∃ v variable', g.inTable? s reference.name = some v ∧ g.getVariable? v = some variable' ∧
      (variable'.definitions = #[] → (reference.resolved = some v ↔
        ∀ kind body, t.kind? scope.block = some kind → kind.functionBody? = some body →
          t.isWithin body reference.identifier = true)) := by
  have hg := analyzed_of_analyze h
  obtain ⟨v, hv⟩ := Option.isSome_iff_exists.1 (hg.bindsArguments s scope hs hkind harrow)
  rw [← hname] at hv
  obtain ⟨variable', hvar, -⟩ := hg.inTable hv
  refine ⟨v, variable', hv, hvar, ?_⟩
  intro hundeclared
  have hwith : scope.kind ≠ .withBody := by simp [hkind]
  rw [hg.resolved_eq_some_iff_admits hr hchain hbelow hv,
    ScopeGraph.admits_iff_of_inTable? hs hv hvar,
    ← Scope.hides_iff_of_undeclared hkind hundeclared]
  exact and_iff_right hwith

/-- `function f(a = arguments) { arguments }` -/
def argumentsTwice : Build NodeId := do
  let a ← .identifier "a"
  let outside ← .identifier "arguments"
  let param ← .alloc (.assignmentPattern a outside)
  let inside ← .identifier "arguments"
  let statement ← .alloc (.expressionStatement inside none)
  let f ← .functionDeclaration (some "f") [param] [statement]
  .alloc (.program [f] .script)

set_option synthInstance.maxSize 512 in
/-- In the body, `arguments` is that of the function. -/
theorem arguments_of_body : ∃ t names g reference v, Build.tree argumentsTwice = .ok t ∧
    analyze {} t {} {} = (names, .ok g) ∧ g.getReference? ⟨2⟩ = some reference ∧
    g.inTable? ⟨1⟩ (names.handle "arguments") = some v ∧ reference.resolved = some v := by
  obtain ⟨t, names, g, ht, h, hreference, hchain, hscope, hundeclared, hwithin⟩ :=
    exists_analysis argumentsTwice {} {} (fun t names g =>
      (g.getReference? ⟨2⟩).map (fun r => (r.name, r.origin, r.identifier)) =
        some (names.handle "arguments", ⟨1⟩, ⟨3⟩) ∧
      g.chain ⟨1⟩ = [⟨1⟩, .global] ∧
      (g.getScope? ⟨1⟩).map (fun s => (s.kind, t.isArrow s.block,
        (t.kind? s.block).bind NodeKind.functionBody?)) = some (.function, false, some ⟨6⟩) ∧
      ((g.inTable? ⟨1⟩ (names.handle "arguments")).bind g.getVariable?).map (·.definitions) =
        some #[] ∧
      t.isWithin ⟨6⟩ ⟨3⟩ = true) (by decide +kernel)
  obtain ⟨reference, hr, heq⟩ := Option.map_eq_some_iff.1 hreference
  obtain ⟨scope, hs, hfunction⟩ := Option.map_eq_some_iff.1 hscope
  simp only [Prod.mk.injEq] at heq hfunction
  obtain ⟨hname, horigin, hidentifier⟩ := heq
  obtain ⟨hkind, harrow, hbody⟩ := hfunction
  have hway : g.chain reference.origin = [] ++ ⟨1⟩ :: [.global] := by
    rw [horigin]
    exact hchain
  obtain ⟨v, variable', hv, hvar, hiff⟩ :=
    resolved_arguments_iff_within_body h hr hname hway hs hkind harrow (by simp)
  rw [hname] at hv
  rw [hv, Option.bind_some, hvar, Option.map_some, Option.some.injEq] at hundeclared
  refine ⟨t, names, g, reference, v, ht, h, hr, hv, (hiff hundeclared).2 ?_⟩
  intro kind body hblock hbody'
  rw [hblock, Option.bind_some, hbody', Option.some.injEq] at hbody
  rw [hbody, hidentifier]
  exact hwithin

set_option synthInstance.maxSize 512 in
/-- In the default of a parameter, `arguments` is not that of the function. -/
theorem arguments_of_default : ∃ t names g, Build.tree argumentsTwice = .ok t ∧
    analyze {} t {} {} = (names, .ok g) ∧
    (g.getReference? ⟨1⟩).map (fun r => (r.name, r.origin, r.resolved)) =
      some (names.handle "arguments", ⟨1⟩, none) ∧
    g.chain ⟨1⟩ = [⟨1⟩, .global] ∧
    (g.getScope? ⟨1⟩).map (fun s => (s.kind, t.isArrow s.block)) = some (.function, false) ∧
    ((g.inTable? ⟨1⟩ (names.handle "arguments")).bind g.getVariable?).map (·.definitions) =
      some #[] :=
  exists_analysis argumentsTwice {} {} _ (by decide +kernel)

end LexicalScope
