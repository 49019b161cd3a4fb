import LexicalScope.Proofs.LexicalResolution

/-!
The lists of references. Scopes list the references made in them and those that came through
them, and variables list what is bound to them. No list misses a reference or has one twice.
-/
namespace LexicalScope

variable {ν : Type}

/-- The references with a property, in the order in which they were made. -/
structure Enumerates (ids : Array ReferenceId) (p : ReferenceId → Prop) : Prop where
  ascending : Ascending ids.toList
  mem_iff : ∀ r, r ∈ ids ↔ p r

namespace ScopeGraph

/-- On a chain, a scope lies inside exactly the scopes before it. -/
theorem Rooted.mem_chain_iff_of_split {g : ScopeGraph ν} (hg : g.Rooted) {o s x : ScopeId}
    (ho : o.index < g.scopes.size) {below above : List ScopeId}
    (hchain : g.chain o = below ++ s :: above) (hx : x ∈ g.chain o) :
    s ∈ g.chain x ↔ x ∈ below ++ [s] := by
  have hs : s.index < g.scopes.size := by
    apply hg.size_of_mem_chain ho
    rw [hchain]
    simp
  have habove := hg.chain_suffix ho hchain
  constructor
  · intro hsx
    by_contra hnot
    have hmem : x ∈ above := by
      rw [hchain, List.append_cons, List.mem_append] at hx
      exact hx.resolve_left hnot
    have hle := hg.index_le_of_mem_chain (hg.size_of_mem_chain ho hx) hsx
    have hge : x.index ≤ s.index := by
      apply hg.index_le_of_mem_chain hs
      rw [habove]
      exact List.mem_cons_of_mem _ hmem
    have hnodup := hg.nodup_chain hs
    rw [habove, List.nodup_cons] at hnodup
    have heq : x = s := congrArg ScopeId.mk (Nat.le_antisymm hge hle)
    exact hnodup.1 (heq ▸ hmem)
  · intro hmem
    rcases List.mem_append.1 hmem with hmem | hmem
    · obtain ⟨before, between, rfl⟩ := List.append_of_mem hmem
      rw [List.append_assoc, List.cons_append] at hchain
      rw [hg.chain_suffix ho hchain]
      simp
    · rw [List.mem_singleton.1 hmem]
      exact hg.mem_chain_self hs

variable [DecidableEq ν] {g : ScopeGraph ν} {t : Tree} {arguments : ν}
  (hg : g.Analyzed t arguments)
include hg

namespace Analyzed

/-- A reference has come through a scope if no scope up to there had a variable for it. -/
theorem findSome?_eq_none_iff {r : ReferenceId} {reference : Reference ν}
    (hr : g.getReference? r = some reference) {s : ScopeId} {below above : List ScopeId}
    (hchain : g.chain reference.origin = below ++ s :: above) :
    (below ++ [s]).findSome? (g.offer? t r) = none ↔
      ∀ v variable', reference.resolved = some v → g.getVariable? v = some variable' →
        variable'.scope ∉ below ++ [s] := by
  have hresolved := hg.resolved_eq_findSome? hr
  have hnodup := hg.nodup_chain (hg.origin_lt hr)
  rw [hchain, List.append_cons, List.findSome?_append] at hresolved
  rw [hchain, List.append_cons] at hnodup
  constructor
  · intro hnone v variable' hv hvar hmem
    rw [hnone, Option.none_or, hv] at hresolved
    obtain ⟨x, hx, hoffer⟩ := List.exists_of_findSome?_eq_some hresolved.symm
    obtain ⟨_, variable'', hvar', hscope, -⟩ := hg.owns_of_offer? hoffer
    obtain rfl : variable' = variable'' := Option.some.inj (hvar.symm.trans hvar')
    exact (List.nodup_append.1 hnodup).2.2 _ hmem _ hx hscope
  · intro hall
    rw [Option.eq_none_iff_forall_ne_some]
    intro v hv
    obtain ⟨x, hx, hoffer⟩ := List.exists_of_findSome?_eq_some hv
    obtain ⟨_, variable', hvar, rfl, -⟩ := hg.owns_of_offer? hoffer
    rw [hv, Option.some_or] at hresolved
    exact hall v variable' hresolved hvar hx

/-- The references that came through a scope. -/
theorem mem_throughOf_iff (s : ScopeId) (r : ReferenceId) :
    r ∈ g.throughOf s ↔ ∃ reference below above, g.getReference? r = some reference ∧
      g.chain reference.origin = below ++ s :: above ∧
      ∀ v variable', reference.resolved = some v → g.getVariable? v = some variable' →
        variable'.scope ∉ below ++ [s] := by
  rw [hg.settled.through s List.not_mem_nil]
  unfold wayOf
  cases hr : g.getReference? r with
  | none => simp
  | some reference =>
    have horigin := hg.origin_lt hr
    have hsplit {below above : List ScopeId}
        (hchain : g.chain reference.origin = below ++ s :: above) :
        (∀ x ∈ g.chain reference.origin, s ∈ g.chain x → g.offer? t r x = none) ↔
          ∀ v variable', reference.resolved = some v → g.getVariable? v = some variable' →
            variable'.scope ∉ below ++ [s] := by
      rw [← hg.findSome?_eq_none_iff hr hchain, List.findSome?_eq_none_iff]
      constructor
      · intro h x hx
        have hmem : x ∈ g.chain reference.origin := by
          rw [hchain, List.append_cons]
          exact List.mem_append_left _ hx
        exact h x hmem ((hg.mem_chain_iff_of_split horigin hchain hmem).2 hx)
      · intro h x hx hsx
        exact h x ((hg.mem_chain_iff_of_split horigin hchain hx).1 hsx)
    constructor
    · rintro ⟨hs, hall⟩
      obtain ⟨below, above, hchain⟩ := List.append_of_mem hs
      exact ⟨reference, below, above, rfl, hchain, (hsplit hchain).1 hall⟩
    · rintro ⟨_, below, above, ⟨⟩, hchain, hall⟩
      refine ⟨?_, (hsplit hchain).2 hall⟩
      rw [Option.elim_some, hchain]
      simp

/-- A variable lists the references that are bound to it. -/
theorem mem_references_iff {v : VariableId} {variable' : Variable ν}
    (hvar : g.getVariable? v = some variable') {r : ReferenceId} : r ∈ variable'.references ↔
      ∃ reference, g.getReference? r = some reference ∧ reference.resolved = some v := by
  have hlist : g.linksOf v = variable'.references.toList := by
    rw [linksOf, hvar]
    rfl
  rw [← Array.mem_toList_iff, ← hlist, hg.settled.links]
  exact Option.bind_eq_some_iff

/-- The unresolved references. -/
theorem mem_throughOf_global_iff (r : ReferenceId) :
    r ∈ g.throughOf .global ↔ ∃ reference, g.getReference? r = some reference ∧
      reference.resolved = none := by
  rw [hg.settled.through .global List.not_mem_nil]
  unfold wayOf
  cases hr : g.getReference? r with
  | none => simp
  | some reference =>
    have horigin := hg.origin_lt hr
    have hglobal {x : ScopeId} (hx : x.index < g.scopes.size) : ScopeId.global ∈ g.chain x :=
      List.mem_of_getLast? (hg.getLast?_chain hx)
    simp only [Option.elim_some, Option.some.injEq, exists_eq_left',
      hg.resolved_eq_findSome? hr, List.findSome?_eq_none_iff]
    constructor
    · rintro ⟨-, hall⟩ x hx
      exact hall x hx (hglobal (hg.size_of_mem_chain horigin hx))
    · intro hall
      exact ⟨hglobal horigin, fun x hx _ => hall x hx⟩

end Analyzed

end ScopeGraph

/-- Every list of references holds exactly those that belong there, in the order in which they
were made. What no scope on the way up has a variable for ends in the global scope, and nothing
waits any more. -/
theorem references_listed {names names' : NameTable} {t : Tree} {o : LanguageOptions}
    {envs : Environments} {g : ScopeGraph Name} (h : analyze names t o envs = (names', .ok g)) :
    (∀ s scope, g.getScope? s = some scope →
      Enumerates scope.references fun r => ∃ reference, g.getReference? r = some reference ∧
        reference.origin = s) ∧
    (∀ v variable', g.getVariable? v = some variable' →
      Enumerates variable'.references fun r => ∃ reference, g.getReference? r = some reference ∧
        reference.resolved = some v) ∧
    (∀ s scope, g.getScope? s = some scope →
      Enumerates scope.through fun r => ∃ reference below above,
        g.getReference? r = some reference ∧ g.chain reference.origin = below ++ s :: above ∧
        ∀ v variable', reference.resolved = some v → g.getVariable? v = some variable' →
          variable'.scope ∉ below ++ [s]) ∧
    (∀ scope, g.getScope? .global = some scope →
      Enumerates scope.through fun r => ∃ reference, g.getReference? r = some reference ∧
        reference.resolved = none) ∧
    ∀ s scope, g.getScope? s = some scope → scope.pending = #[] := by
  have hg := analyzed_of_analyze h
  have hthrough {s : ScopeId} {scope : Scope Name} (hs : g.getScope? s = some scope) :
      g.throughOf s = scope.through.toList := by
    rw [ScopeGraph.throughOf, ScopeGraph.listOf, hs]
    rfl
  refine ⟨?_, ?_, ?_, ?_, ?_⟩
  · intro s scope hs
    have hlist : g.referencesOf s = scope.references.toList := by
      rw [ScopeGraph.referencesOf, ScopeGraph.listOf, hs]
      rfl
    refine ⟨hlist ▸ hg.listed_ascending s, ?_⟩
    intro r
    rw [← Array.mem_toList_iff, ← hlist, hg.listed]
    exact Option.map_eq_some_iff
  · intro v variable' hv
    have hlist : g.linksOf v = variable'.references.toList := by
      rw [ScopeGraph.linksOf, hv]
      rfl
    refine ⟨hlist ▸ hg.settled.links_ascending v, ?_⟩
    intro r
    rw [← Array.mem_toList_iff, ← hlist, hg.settled.links]
    exact Option.bind_eq_some_iff
  · intro s scope hs
    refine ⟨hthrough hs ▸ hg.settled.through_ascending s, ?_⟩
    intro r
    rw [← Array.mem_toList_iff, ← hthrough hs, hg.mem_throughOf_iff]
  · intro scope hs
    refine ⟨hthrough hs ▸ hg.settled.through_ascending .global, ?_⟩
    intro r
    rw [← Array.mem_toList_iff, ← hthrough hs, hg.mem_throughOf_global_iff]
  · intro s scope hs
    have hpending := hg.settled.pending_closed s List.not_mem_nil
    rw [ScopeGraph.pendingOf, ScopeGraph.listOf, hs] at hpending
    exact Array.toList_eq_nil_iff.1 hpending

/-- The reference that the body hides ends in the global scope. -/
theorem through_hiddenDefault : ∃ t names g scope, Build.tree hiddenDefault = .ok t ∧
    analyze {} t {} {} = (names, .ok g) ∧ g.getScope? .global = some scope ∧
    scope.through = #[⟨1⟩] ∧
    Enumerates scope.through fun r => ∃ reference, g.getReference? r = some reference ∧
      reference.resolved = none := by
  obtain ⟨t, names, g, ht, h, hscope⟩ := exists_analysis hiddenDefault {} {}
    (fun _ _ g => (g.getScope? .global).map (·.through) = some #[⟨1⟩]) (by decide +kernel)
  obtain ⟨scope, hs, hthrough⟩ := Option.map_eq_some_iff.1 hscope
  exact ⟨t, names, g, scope, ht, h, hs, hthrough, (references_listed h).2.2.2.1 scope hs⟩

end LexicalScope
