import LexicalScope.Proofs.Frame

/-!
Graphs that a walk builds. Scopes form one tree below the global scope, a table only holds
variables of its own scope and name, and every reference stands in a scope. Opening scopes,
declaring names and recording references keep all of this, and binding references does not
matter.
-/
namespace LexicalScope.ScopeGraph

variable {ν : Type}

section Open

variable (g : ScopeGraph ν) (kind : ScopeKind) (block : NodeId) (strict : Bool)

theorem getScope?_nextScope : g.getScope? g.nextScope = none :=
  Array.getElem?_eq_none (Nat.le_refl _)

theorem ne_nextScope_of_lt {g : ScopeGraph ν} {s : ScopeId} (hs : s.index < g.scopes.size) :
    s ≠ g.nextScope := by
  rintro rfl
  exact Nat.lt_irrefl _ hs

theorem lt_or_eq_nextScope {g : ScopeGraph ν} {s : ScopeId} {n : Nat} (hn : n = g.scopes.size + 1)
    (hs : s.index < n) : s.index < g.scopes.size ∨ s = g.nextScope := by
  obtain ⟨i⟩ := s
  simp only [nextScope, ScopeId.mk.injEq]
  change i < n at hs
  omega

theorem upper?_openScope (upper : Option ScopeId) (x : ScopeId) :
    (g.openScope kind block strict upper).upper? x =
      if x = g.nextScope then upper else g.upper? x := by
  rw [upper?, getScope?_openScope, upper?]
  split
  · rfl
  · split <;> cases g.getScope? x <;> rfl

/-- A new scope holds `var` declarations itself, or leaves them to the variable scope around it. -/
theorem variableScope_openScope (upper : Option ScopeId) (x : ScopeId) :
    (g.openScope kind block strict upper).variableScope x =
      if x = g.nextScope then
        if kind.holdsVars then g.nextScope else upper.elim g.nextScope g.variableScope
      else g.variableScope x := by
  rw [variableScope, getScope?_openScope, variableScope]
  split
  · rfl
  · split <;> cases g.getScope? x <;> rfl

theorem inTable?_openScope [DecidableEq ν] (upper : Option ScopeId) (x : ScopeId) (name : ν) :
    (g.openScope kind block strict upper).inTable? x name = g.inTable? x name := by
  rw [inTable?, getScope?_openScope, inTable?]
  split
  · next hx =>
    rw [hx, getScope?_nextScope]
    rfl
  · split <;> cases g.getScope? x <;> rfl

/-- A new scope has a larger number than the scope around it. -/
theorem Rooted.openScope {g : ScopeGraph ν} (hg : g.Rooted) {u : ScopeId}
    (hu : u.index < g.scopes.size) : (g.openScope kind block strict (some u)).Rooted where
  upper_lt := by
    intro s v hv
    rw [upper?_openScope] at hv
    split at hv
    · next hs =>
      obtain rfl := Option.some.inj hv
      exact hs ▸ hu
    · exact hg.upper_lt hv
  isGlobal := by
    intro s hs hnone
    rw [upper?_openScope] at hnone
    split at hnone
    · cases hnone
    · next hne =>
      have hlt := (lt_or_eq_nextScope (size_scopes_openScope ..) hs).resolve_right hne
      exact hg.isGlobal hlt hnone

theorem Rooted.chain_openScope {g : ScopeGraph ν} (hg : g.Rooted) {u s : ScopeId}
    (hu : u.index < g.scopes.size) (hs : s.index < g.scopes.size) :
    (g.openScope kind block strict (some u)).chain s = g.chain s :=
  hg.chain_congr (hg.openScope kind block strict hu) (by rw [size_scopes_openScope]; omega)
    (fun _ hx => by rw [upper?_openScope, if_neg (ne_nextScope_of_lt hx)]) hs

theorem Rooted.chain_nextScope {g : ScopeGraph ν} (hg : g.Rooted) {u : ScopeId}
    (hu : u.index < g.scopes.size) :
    (g.openScope kind block strict (some u)).chain g.nextScope = g.nextScope :: g.chain u := by
  have hnext : (g.openScope kind block strict (some u)).upper? g.nextScope = some u := by
    rw [upper?_openScope, if_pos rfl]
  rw [(hg.openScope kind block strict hu).chain_inner ?_ hnext, hg.chain_openScope _ _ _ hu hu]
  rw [size_scopes_openScope]
  exact Nat.lt_succ_self _

end Open

variable [DecidableEq ν]

/-- The variable `v` has this name and scope. -/
def Owns (g : ScopeGraph ν) (s : ScopeId) (name : ν) (v : VariableId) : Prop :=
  ∃ variable', g.getVariable? v = some variable' ∧ variable'.scope = s ∧ variable'.name = name

structure WellFormed (g : ScopeGraph ν) : Prop extends Rooted g where
  kind_global : ∀ {s : ScopeId} {scope : Scope ν}, g.getScope? s = some scope →
    (scope.kind = .global ↔ s = .global)
  variableScope_mem : ∀ {s : ScopeId}, s.index < g.scopes.size → g.variableScope s ∈ g.chain s
  inTable : ∀ {s : ScopeId} {name : ν} {v : VariableId}, g.inTable? s name = some v →
    g.Owns s name v
  origin_lt : ∀ {r : ReferenceId} {reference : Reference ν}, g.getReference? r = some reference →
    reference.origin.index < g.scopes.size

omit [DecidableEq ν] in
theorem Owns.scope_unique {g : ScopeGraph ν} {s s' : ScopeId} {name name' : ν} {v : VariableId}
    (h : g.Owns s name v) (h' : g.Owns s' name' v) : s = s' := by
  obtain ⟨variable', hv, rfl, -⟩ := h
  obtain ⟨variable'', hv', rfl, -⟩ := h'
  obtain rfl : variable' = variable'' := Option.some.inj (hv.symm.trans hv')
  rfl

omit [DecidableEq ν] in
theorem Owns.congr {g g' : ScopeGraph ν} {s : ScopeId} {name : ν} {v : VariableId}
    (h : g.Owns s name v)
    (hv : (g'.getVariable? v).map Variable.unlinked = (g.getVariable? v).map Variable.unlinked) :
    g'.Owns s name v := by
  obtain ⟨variable', hvar, hscope, hname⟩ := h
  rw [hvar, Option.map_some, Option.map_eq_some_iff] at hv
  obtain ⟨variable'', hvar', heq⟩ := hv
  exact ⟨variable'', hvar', (congrArg Variable.scope heq).trans hscope,
    (congrArg Variable.name heq).trans hname⟩

namespace WellFormed

variable {g g' : ScopeGraph ν}

/-- A graph stays well-formed if its tables lead to their own variables and references stay in
place. -/
theorem of_positions (hg : g.WellFormed) (h : g.SamePositions g')
    (hin : ∀ s name v, g'.inTable? s name = some v → g'.Owns s name v)
    (horigin : ∀ r reference, g'.getReference? r = some reference →
      reference.origin.index < g.scopes.size) : g'.WellFormed := {
  h.rooted hg.toRooted with
  kind_global := by
    intro s scope hs
    obtain ⟨scope', hscope, hposition⟩ := h.exists_getScope? hs
    have hkind : scope'.kind = scope.kind := congrArg (·.1) hposition
    rw [← hkind]
    exact hg.kind_global hscope
  variableScope_mem := by
    intro s hs
    rw [h.variableScope, h.chain]
    exact hg.variableScope_mem ((h.lt_size_iff s).1 hs)
  inTable := hin _ _ _
  origin_lt := by
    intro r reference hr
    exact (h.lt_size_iff _).2 (horigin r reference hr) }

/-- Tables that are not touched stay in order. -/
theorem frame (hg : g.WellFormed) {touched : List ScopeId} (h : Frame touched g g')
    (hin : ∀ s ∈ touched, ∀ name v, g'.inTable? s name = some v → g'.Owns s name v) :
    g'.WellFormed := by
  apply hg.of_positions h.positions
  · intro s name v hv
    by_cases hs : s ∈ touched
    · exact hin s hs name v hv
    · rw [h.inTable?_eq s hs] at hv
      exact (hg.inTable hv).congr (h.variable_eq s hs name v hv)
  · intro r reference hr
    obtain ⟨reference', hr', heq⟩ := h.exists_getReference? hr
    have horigin : reference'.origin = reference.origin := (congrArg Reference.origin heq :)
    rw [← horigin]
    exact hg.origin_lt hr'

/-- Binding references does not matter. -/
theorem links (hg : g.WellFormed) (h : Frame [] g g') : g'.WellFormed :=
  hg.frame h fun _ hs => nomatch hs

theorem openScope (hg : g.WellFormed) {kind : ScopeKind} (hkind : kind ≠ .global)
    {u : ScopeId} (hu : u.index < g.scopes.size) (block : NodeId) (strict : Bool) :
    (g.openScope kind block strict (some u)).WellFormed := {
  hg.toRooted.openScope kind block strict hu with
  kind_global := by
    intro s scope hs
    rw [getScope?_openScope] at hs
    split at hs
    · next heq =>
      obtain rfl := Option.some.inj hs
      have hne : s ≠ .global := by
        rintro rfl
        have h0 : 0 = g.scopes.size := congrArg ScopeId.index heq
        omega
      simp [opening, hkind, hne]
    · split at hs
      · obtain ⟨scope', hscope, rfl⟩ := Option.map_eq_some_iff.1 hs
        have hglobal := hg.kind_global hscope
        exact hglobal
      · exact hg.kind_global hs
  variableScope_mem := by
    intro s hs
    rw [variableScope_openScope]
    rcases lt_or_eq_nextScope (size_scopes_openScope ..) hs with hlt | rfl
    · rw [if_neg (ne_nextScope_of_lt hlt), hg.toRooted.chain_openScope _ _ _ hu hlt]
      exact hg.variableScope_mem hlt
    · rw [if_pos rfl, hg.toRooted.chain_nextScope _ _ _ hu]
      split
      · exact List.mem_cons_self ..
      · exact List.mem_cons_of_mem _ (hg.variableScope_mem hu)
  inTable := by
    intro s name v hv
    rw [inTable?_openScope] at hv
    rw [Owns, getVariable?_openScope]
    exact hg.inTable hv
  origin_lt := by
    intro r reference hr
    rw [getReference?_openScope] at hr
    rw [size_scopes_openScope]
    exact Nat.lt_succ_of_lt (hg.origin_lt hr) }

/-- A name is bound to a variable of its own scope. -/
theorem owns_bind (hg : g.WellFormed) (s : ScopeId) (name : ν) :
    (g.bind s name).1.Owns s name (g.bind s name).2 := by
  cases hv : g.inTable? s name with
  | some v =>
    have hbind : g.bind s name = (g, v) := by simp [bind, hv]
    rw [hbind]
    exact hg.inTable hv
  | none =>
    refine ⟨{ id := g.nextVariable, name, scope := s }, ?_, rfl, rfl⟩
    rw [getVariable?_bind, bind_snd, hv, Option.getD_none, if_pos ⟨rfl, rfl⟩]

omit [DecidableEq ν] in
theorem Owns.ne_nextVariable {s : ScopeId} {name : ν} {v : VariableId} (h : g.Owns s name v) :
    v ≠ g.nextVariable := by
  obtain ⟨variable', hv, -, -⟩ := h
  rintro rfl
  rw [getVariable?_nextVariable] at hv
  cases hv

theorem Owns.getVariable?_bind {x : ScopeId} {m : ν} {v : VariableId} (h : g.Owns x m v)
    (s : ScopeId) (name : ν) : (g.bind s name).1.getVariable? v = g.getVariable? v := by
  rw [ScopeGraph.getVariable?_bind, if_neg fun hv => Owns.ne_nextVariable h hv.1]

section Revise

variable {s : ScopeId} {name : ν} {f : Variable ν → Variable ν} (hg : g.WellFormed)
  (h : Revises g g' s name f)
include hg h

/-- Variables of other scopes stay as they are. -/
theorem getVariable?_of_revises {x : ScopeId} (hx : x ≠ s) {m : ν} {v : VariableId}
    (hv : g.Owns x m v) : g'.getVariable? v = g.getVariable? v := by
  have hbound := Owns.getVariable?_bind hv s name
  have hne : v ≠ (g.bind s name).2 := by
    rintro heq
    have howns : (g.bind s name).1.Owns x m v := by rwa [Owns, hbound]
    exact hx (howns.scope_unique (heq ▸ hg.owns_bind s name))
  rw [h.getVariable?_eq, if_neg hne, hbound]

theorem frame_of_revises : Frame [s] g g' where
  positions := h.samePositions
  referencesOf_eq := h.listOf_eq fun _ _ => rfl
  reference_eq r := by rw [h.getReference?_eq]
  tableOf_eq x hx := by
    rw [tableOf, h.getScope?_eq, getScope?_bind, if_neg fun hs => hx (List.mem_singleton.2 hs.1),
      tableOf]
  variable_eq x hx m v hv := by
    rw [hg.getVariable?_of_revises h (fun hs => hx (List.mem_singleton.2 hs)) (hg.inTable hv)]

/-- A revision keeps the name and the scope of its variable. -/
theorem of_revises (hs : s.index < g.scopes.size) (hscope : ∀ v, (f v).scope = v.scope)
    (hname : ∀ v, (f v).name = v.name) : g'.WellFormed := by
  apply hg.frame (hg.frame_of_revises h)
  intro x hx m v hv
  obtain rfl := List.mem_singleton.1 hx
  have hrevised (v : VariableId) (hv : (g.bind x name).1.Owns x m v) : g'.Owns x m v := by
    obtain ⟨variable', hvar, rfl, rfl⟩ := hv
    rw [Owns, h.getVariable?_eq, hvar]
    split
    · exact ⟨f variable', rfl, hscope variable', hname variable'⟩
    · exact ⟨variable', rfl, rfl, rfl⟩
  rw [h.inTable?_eq hs] at hv
  split at hv
  · next heq =>
    obtain rfl := Option.some.inj hv
    obtain ⟨-, rfl⟩ := heq
    exact hrevised _ (hg.owns_bind x m)
  · have howns := hg.inTable hv
    exact hrevised v (by rwa [Owns, Owns.getVariable?_bind howns])

end Revise

theorem declare (hg : g.WellFormed) {s : ScopeId} (hs : s.index < g.scopes.size) (name : ν)
    (d : Option Definition) : (g.declare s name d).WellFormed :=
  hg.of_revises (revises_declare g s name d) hs (fun _ => by cases d <;> rfl)
    fun _ => by cases d <;> rfl

/-- A reference may be added to any scope that exists. -/
theorem addReference (hg : g.WellFormed) {reference : Reference ν}
    (hr : reference.origin.index < g.scopes.size) : (g.addReference reference).WellFormed := by
  apply hg.of_positions (samePositions_addReference g reference)
  · intro s name v hv
    rw [inTable?_addReference] at hv
    exact hg.inTable hv
  · intro x reference' hx
    rw [getReference?_addReference] at hx
    split at hx
    · obtain rfl := Option.some.inj hx
      exact hr
    · exact hg.origin_lt hx

end WellFormed

section Root

variable (block : NodeId) (strict : Bool)

def root : ScopeGraph ν :=
  openScope {} .global block strict none

omit [DecidableEq ν]

theorem getScope?_root (s : ScopeId) :
    (root block strict : ScopeGraph ν).getScope? s =
      if s = .global then some (opening {} .global block strict none) else none :=
  getScope?_openScope {} .global block strict none s

theorem eq_global_of_lt_root {s : ScopeId}
    (hs : s.index < (root block strict : ScopeGraph ν).scopes.size) : s = .global := by
  obtain ⟨i⟩ := s
  change i < 1 at hs
  rw [ScopeId.global, ScopeId.mk.injEq]
  omega

theorem upper?_root (s : ScopeId) : (root block strict : ScopeGraph ν).upper? s = none := by
  rw [upper?, getScope?_root]
  split <;> rfl

theorem rooted_root : (root block strict : ScopeGraph ν).Rooted where
  upper_lt hu := by simp [upper?_root] at hu
  isGlobal hs _ := eq_global_of_lt_root block strict hs

variable [DecidableEq ν]

theorem wellFormed_root : (root block strict : ScopeGraph ν).WellFormed := {
  rooted_root block strict with
  kind_global := by
    intro s scope hs
    rw [getScope?_root] at hs
    split at hs
    · obtain rfl := Option.some.inj hs
      simpa [opening]
    · cases hs
  variableScope_mem := by
    intro s hs
    obtain rfl := eq_global_of_lt_root block strict hs
    exact (rooted_root block strict).mem_chain_self hs
  inTable := by
    intro s name v hv
    rw [inTable?, getScope?_root] at hv
    split at hv
    · cases hv
    · cases hv
  origin_lt := fun hr => nomatch hr }

end Root

end LexicalScope.ScopeGraph
