import LexicalScope.Proofs.Analyzed

/-!
Lexical resolution. Whatever way a reference took to its variable, at the closing of a scope, at
the closing of the global scope or when the globals were configured, it is bound to the variable
of the first scope on its way up that admits it.
-/
namespace LexicalScope

variable {ν : Type}

/-- From outside of the body of a function, variables declared only in there are hidden. -/
def Scope.Hides (scope : Scope ν) (t : Tree) (reference : Reference ν) (variable' : Variable ν) :
    Prop :=
  scope.kind = .function ∧ ∃ kind body, t.kind? scope.block = some kind ∧
    kind.functionBody? = some body ∧ t.isWithin body reference.identifier = false ∧
    ∀ d ∈ variable'.definitions, t.isWithin body d.name = true

namespace ScopeGraph

variable [DecidableEq ν]

/-- Scope `s` admits a reference as an occurrence of its variable `v`. -/
def Admits (g : ScopeGraph ν) (t : Tree) (reference : Reference ν) (s : ScopeId)
    (v : VariableId) : Prop :=
  ∃ scope variable', g.getScope? s = some scope ∧ g.getVariable? v = some variable' ∧
    scope.kind ≠ .withBody ∧ scope.table.get? reference.name = some v ∧
    ¬scope.Hides t reference variable'

section Admits

variable {g : ScopeGraph ν} {t : Tree} {reference : Reference ν} {s : ScopeId} {v : VariableId}

omit [DecidableEq ν] in
/-- A variable of the table is visible unless the scope hides it. -/
theorem isVisible_iff {scope : Scope ν} {variable' : Variable ν} (hs : g.getScope? s = some scope)
    (hv : g.getVariable? v = some variable') :
    g.isVisible t s reference v = true ↔ ¬scope.Hides t reference variable' := by
  simp only [isVisible, functionBody?_eq g t hs, hv, Option.any_some]
  by_cases hkind : scope.kind = .function
  · cases hblock : t.kind? scope.block with
    | none => simp [Scope.Hides, hkind, hblock]
    | some kind =>
      cases hbody : kind.functionBody? with
      | none => simp [Scope.Hides, hkind, hblock, hbody]
      | some body =>
        have hall : (variable'.definitions.all fun d => t.isWithin body d.name) = true ↔
            ∀ d ∈ variable'.definitions, t.isWithin body d.name = true := by
          rw [← Array.all_toList]
          simp only [List.all_eq_true, Array.mem_toList_iff]
        have hhides : scope.Hides t reference variable' ↔
            t.isWithin body reference.identifier = false ∧
              ∀ d ∈ variable'.definitions, t.isWithin body d.name = true := by
          simp [Scope.Hides, hkind, hblock, hbody]
        rw [hhides, ← hall, if_pos hkind, Option.bind_some, hbody]
        show (t.isWithin body reference.identifier ||
          !variable'.definitions.all fun d => t.isWithin body d.name) = true ↔ _
        generalize (variable'.definitions.all fun d => t.isWithin body d.name) = inside
        cases t.isWithin body reference.identifier <;> simp
  · simp [Scope.Hides, hkind]

/-- A scope offers what it admits. -/
theorem offer?_eq_some_iff (hg : g.WellFormed) {r : ReferenceId}
    (hr : g.getReference? r = some reference) :
    g.offer? t r s = some v ↔ g.Admits t reference s v := by
  cases hs : g.getScope? s with
  | none => simp [offer?, resolution?, inTable?, hs, hr, Admits]
  | some scope =>
    have htable : g.inTable? s reference.name = scope.table.get? reference.name := by
      rw [inTable?, hs]
      rfl
    constructor
    · intro hoffer
      have hwith : scope.kind ≠ .withBody := by
        intro hkind
        simp [offer?, hs, hkind] at hoffer
      obtain ⟨reference', href, hv, hvisible⟩ :=
        inTable?_of_resolution? (resolution?_of_offer? hoffer)
      obtain rfl : reference = reference' := Option.some.inj (hr.symm.trans href)
      obtain ⟨variable', hvar, -⟩ := hg.inTable hv
      exact ⟨scope, variable', hs, hvar, hwith, htable ▸ hv, (isVisible_iff hs hvar).1 hvisible⟩
    · rintro ⟨scope', variable', hs', hvar, hwith, hv, hhides⟩
      obtain rfl : scope = scope' := Option.some.inj (hs.symm.trans hs')
      have hvisible := (isVisible_iff hs hvar).2 hhides
      simp [offer?, resolution?, hs, hwith, hr, htable, hv, hvisible]

/-- A scope that admits nothing offers nothing. -/
theorem offer?_eq_none_iff (hg : g.WellFormed) {r : ReferenceId}
    (hr : g.getReference? r = some reference) :
    g.offer? t r s = none ↔ ∀ v, ¬g.Admits t reference s v := by
  rw [Option.eq_none_iff_forall_ne_some]
  exact forall_congr' fun v => not_congr (offer?_eq_some_iff hg hr)

end Admits

/-- A reference is bound to the first offer on its way. -/
theorem Analyzed.resolved_eq_findSome? {g : ScopeGraph ν} {t : Tree} {arguments : ν}
    (hg : g.Analyzed t arguments) {r : ReferenceId} {reference : Reference ν}
    (hr : g.getReference? r = some reference) :
    reference.resolved = (g.chain reference.origin).findSome? (g.offer? t r) := by
  have hresolved := hg.settled.resolved r
  rwa [climbed_nil, resolvedOf, wayOf, hr, Option.bind_some, Option.elim_some] at hresolved

section Resolved

variable {g : ScopeGraph ν} {t : Tree} {arguments : ν} (hg : g.Analyzed t arguments)
  {r : ReferenceId} {reference : Reference ν} {v : VariableId} {variable' : Variable ν}
  (hr : g.getReference? r = some reference) (hv : reference.resolved = some v)
include hg hr hv

/-- A variable stands in the table of its scope under the name of each of its references. -/
theorem Analyzed.exists_variable_of_resolved :
    ∃ variable', g.getVariable? v = some variable' ∧ variable'.scope ∈ g.chain reference.origin ∧
      g.inTable? variable'.scope reference.name = some v := by
  rw [hg.resolved_eq_findSome? hr] at hv
  obtain ⟨x, hx, hoffer⟩ := List.exists_of_findSome?_eq_some hv
  obtain ⟨reference', hr', htable, -⟩ := inTable?_of_resolution? (resolution?_of_offer? hoffer)
  obtain rfl : reference = reference' := Option.some.inj (hr.symm.trans hr')
  obtain ⟨variable', hvar, rfl, -⟩ := hg.inTable htable
  exact ⟨variable', hvar, hx, htable⟩

/-- The scope of a bound variable is on the way and has it under the name of the reference. -/
theorem Analyzed.inTable?_of_resolved (hvar : g.getVariable? v = some variable') :
    variable'.scope ∈ g.chain reference.origin ∧
      g.inTable? variable'.scope reference.name = some v := by
  obtain ⟨variable'', hvar', hfound⟩ := hg.exists_variable_of_resolved hr hv
  obtain rfl : variable' = variable'' := Option.some.inj (hvar.symm.trans hvar')
  exact hfound

end Resolved

omit [DecidableEq ν] in
/-- A chain goes all the way up. -/
theorem Rooted.getLast?_chain {g : ScopeGraph ν} (hg : g.Rooted) {s : ScopeId}
    (hs : s.index < g.scopes.size) : (g.chain s).getLast? = some .global := by
  obtain ⟨below, hchain⟩ := hg.exists_chain_eq_append_global hs
  rw [hchain, List.getLast?_concat]

end ScopeGraph

/-- A reference is bound to the variable of the first scope on its way up that admits it. It is
unresolved if there is none. -/
theorem resolved_iff_first_admitting {names names' : NameTable} {t : Tree} {o : LanguageOptions}
    {envs : Environments} {g : ScopeGraph Name} (h : analyze names t o envs = (names', .ok g))
    {r : ReferenceId} {reference : Reference Name} (hr : g.getReference? r = some reference) :
    g.IsChain reference.origin (g.chain reference.origin) ∧
    (g.chain reference.origin).getLast? = some .global ∧
    (∀ v, reference.resolved = some v ↔ ∃ below s above,
      g.chain reference.origin = below ++ s :: above ∧ g.Admits t reference s v ∧
        ∀ x ∈ below, ∀ w, ¬g.Admits t reference x w) ∧
    (reference.resolved = none ↔
      ∀ x ∈ g.chain reference.origin, ∀ w, ¬g.Admits t reference x w) := by
  have hg := analyzed_of_analyze h
  have horigin := hg.origin_lt hr
  have hresolved := hg.resolved_eq_findSome? hr
  refine ⟨hg.isChain_chain horigin, hg.getLast?_chain horigin, ?_, ?_⟩
  · intro v
    rw [hresolved, List.findSome?_eq_some_iff]
    refine exists_congr fun below => exists_congr fun s => exists_congr fun above =>
      and_congr_right fun _ => and_congr (ScopeGraph.offer?_eq_some_iff hg.toWellFormed hr) ?_
    exact forall₂_congr fun x _ => ScopeGraph.offer?_eq_none_iff hg.toWellFormed hr
  · rw [hresolved, List.findSome?_eq_none_iff]
    exact forall₂_congr fun x _ => ScopeGraph.offer?_eq_none_iff hg.toWellFormed hr

/-- `function f(a = b) { var b }` -/
def hiddenDefault : Build NodeId := do
  let a ← .identifier "a"
  let b ← .identifier "b"
  let param ← .alloc (.assignmentPattern a b)
  let inner ← .declare .varDecl "b" none
  let f ← .functionDeclaration (some "f") [param] [inner]
  .alloc (.program [f] .script)

/-- The default of a parameter does not see the body. -/
theorem unresolved_hiddenDefault : ∃ t names g reference, Build.tree hiddenDefault = .ok t ∧
    analyze {} t {} {} = (names, .ok g) ∧ g.getReference? ⟨1⟩ = some reference ∧
    ∀ x ∈ g.chain reference.origin, ∀ w, ¬g.Admits t reference x w := by
  obtain ⟨t, names, g, ht, h, hreference⟩ := exists_analysis hiddenDefault {} {}
    (fun _ _ g => (g.getReference? ⟨1⟩).map (·.resolved) = some none) (by decide +kernel)
  obtain ⟨reference, hr, hnone⟩ := Option.map_eq_some_iff.1 hreference
  exact ⟨t, names, g, reference, ht, h, hr, (resolved_iff_first_admitting h hr).2.2.2.1 hnone⟩

end LexicalScope
