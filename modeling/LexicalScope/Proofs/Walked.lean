import LexicalScope.Proofs.Opening

/-!
What a walk leaves in a graph besides its scopes: every scope lists its references, the variables
of all tables are as the source declares them, and a function that is not an arrow function has
its `arguments`.
-/
namespace LexicalScope

variable {ν : Type}

/-- No configuration has touched the variable. -/
structure Variable.IsUnconfigured (v : Variable ν) : Prop where
  writable : v.writable = none
  used : v.used = false
  exported : v.exported = false
  explicitGlobal : v.explicitGlobal = false
  explicitGlobalComments : v.explicitGlobalComments = []
  implicitGlobalSetting : v.implicitGlobalSetting = none

theorem Variable.isUnconfigured_unlinked (v : Variable ν) :
    v.unlinked.IsUnconfigured ↔ v.IsUnconfigured :=
  ⟨fun h => ⟨h.1, h.2, h.3, h.4, h.5, h.6⟩, fun h => ⟨h.1, h.2, h.3, h.4, h.5, h.6⟩⟩

theorem Variable.isUnconfigured_define {v : Variable ν} (h : v.IsUnconfigured) (d : Definition) :
    (v.define d).IsUnconfigured :=
  ⟨h.1, h.2, h.3, h.4, h.5, h.6⟩

theorem Variable.isDeclared_unlinked (v : Variable ν) : v.unlinked.isDeclared = v.isDeclared := rfl

theorem Variable.isDeclared_define (v : Variable ν) (d : Definition) : (v.define d).isDeclared := by
  simp [isDeclared, define]

def Tree.isArrow (t : Tree) (n : NodeId) : Bool :=
  (t.kind? n).any fun
    | .arrowFunctionExpression _ => true
    | _ => false

namespace ScopeGraph

def originOf (g : ScopeGraph ν) (r : ReferenceId) : Option ScopeId :=
  (g.getReference? r).map (·.origin)

def blockOf (g : ScopeGraph ν) (s : ScopeId) : Option NodeId :=
  (g.getScope? s).map (·.block)

variable [DecidableEq ν]

structure Walked (g : ScopeGraph ν) (t : Tree) : Prop extends WellFormed g where
  block_global : g.blockOf .global = some t.root
  listed : ∀ s r, r ∈ g.referencesOf s ↔ g.originOf r = some s
  listed_ascending : ∀ s, Ascending (g.referencesOf s)
  unconfigured : ∀ {s : ScopeId} {name : ν} {v : VariableId} {variable' : Variable ν},
    g.inTable? s name = some v → g.getVariable? v = some variable' → variable'.IsUnconfigured
  /-- Every name in the global table has a declaration in the source. -/
  declared : ∀ {name : ν} {v : VariableId} {variable' : Variable ν},
    g.inTable? .global name = some v → g.getVariable? v = some variable' → variable'.isDeclared
  implicit : g.implicit = {}

/-- If scope `s` is that of a function other than an arrow function, it has an `arguments`. -/
def BindsArguments (g : ScopeGraph ν) (t : Tree) (arguments : ν) (s : ScopeId) : Prop :=
  ∀ scope, g.getScope? s = some scope → scope.kind = .function → t.isArrow scope.block = false →
    (g.inTable? s arguments).isSome

theorem BindsArguments.mono {g g' : ScopeGraph ν} {t : Tree} {arguments : ν} {s : ScopeId}
    (h : g.BindsArguments t arguments s)
    (hposition : (g'.getScope? s).map Scope.position = (g.getScope? s).map Scope.position)
    (htable : (g.inTable? s arguments).isSome → (g'.inTable? s arguments).isSome) :
    g'.BindsArguments t arguments s := by
  intro scope' hs hkind harrow
  rw [hs, Option.map_some, eq_comm, Option.map_eq_some_iff] at hposition
  obtain ⟨scope, hscope, heq⟩ := hposition
  simp only [Scope.position, Prod.mk.injEq] at heq
  exact htable (h scope hscope (heq.1.trans hkind) (heq.2.2.2 ▸ harrow))

namespace BindsArguments

variable {g g' : ScopeGraph ν} {t : Tree} {arguments : ν}

theorem frame (h : ∀ s, g.BindsArguments t arguments s) (hframe : Frame [] g g') (s : ScopeId) :
    g'.BindsArguments t arguments s :=
  (h s).mono (hframe.positions s) fun hsome => by
    rwa [hframe.inTable?_eq s List.not_mem_nil]

theorem addReference (h : ∀ s, g.BindsArguments t arguments s) (reference : Reference ν)
    (s : ScopeId) : (g.addReference reference).BindsArguments t arguments s :=
  (h s).mono (samePositions_addReference g reference s) fun hsome => by
    rwa [inTable?_addReference]

theorem openScope_of_ne {s : ScopeId} (h : g.BindsArguments t arguments s) (kind : ScopeKind)
    (block : NodeId) (strict : Bool) (upper : Option ScopeId) (hs : s ≠ g.nextScope) :
    (g.openScope kind block strict upper).BindsArguments t arguments s :=
  h.mono (position_openScope kind block strict upper hs) fun hsome => by
    rwa [inTable?_openScope]

theorem openScope (h : ∀ s, g.BindsArguments t arguments s) {kind : ScopeKind} {block : NodeId}
    (hkind : kind = .function → t.isArrow block) (strict : Bool) (upper : Option ScopeId)
    (s : ScopeId) : (g.openScope kind block strict upper).BindsArguments t arguments s := by
  by_cases hs : s = g.nextScope
  · intro scope hscope hfunction harrow
    rw [getScope?_openScope, if_pos hs] at hscope
    obtain rfl := Option.some.inj hscope
    change t.isArrow block = false at harrow
    rw [hkind hfunction] at harrow
    cases harrow
  · exact (h s).openScope_of_ne kind block strict upper hs

theorem declare {s : ScopeId} (h : g.BindsArguments t arguments s) {x : ScopeId}
    (hx : x.index < g.scopes.size) (name : ν) (d : Option Definition) :
    (g.declare x name d).BindsArguments t arguments s :=
  h.mono ((revises_declare g x name d).samePositions s) fun hsome => by
    rw [(revises_declare g x name d).inTable?_eq hx]
    split
    · rfl
    · exact hsome

end BindsArguments

omit [DecidableEq ν] in
theorem SamePositions.blockOf {g g' : ScopeGraph ν} (h : g.SamePositions g') (s : ScopeId) :
    g'.blockOf s = g.blockOf s := by
  have hblock := congrArg (Option.map (·.2.2.2)) (h s)
  simp only [Option.map_map] at hblock
  exact hblock

namespace Walked

variable {g g' : ScopeGraph ν} {t : Tree}

/-- Binding references does not matter. -/
theorem links (hg : g.Walked t) (h : Frame [] g g') (himplicit : g'.implicit = g.implicit) :
    g'.Walked t := by
  have hvariable {s : ScopeId} {name : ν} {v : VariableId} {variable' : Variable ν}
      (hv : g'.inTable? s name = some v) (hvar : g'.getVariable? v = some variable') :
      g.inTable? s name = some v ∧
        ∃ variable'', g.getVariable? v = some variable'' ∧
          variable''.unlinked = variable'.unlinked := by
    rw [h.inTable?_eq s List.not_mem_nil] at hv
    have hmap := h.variable_eq s List.not_mem_nil name v hv
    rw [hvar, Option.map_some, eq_comm, Option.map_eq_some_iff] at hmap
    exact ⟨hv, hmap⟩
  exact {
    hg.toWellFormed.links h with
    block_global := by
      rw [h.positions.blockOf]
      exact hg.block_global
    listed := by
      intro s r
      have horigin := congrArg (Option.map (·.origin)) (h.reference_eq r)
      simp only [Option.map_map] at horigin
      rw [h.referencesOf_eq, hg.listed]
      exact Eq.congr_left horigin.symm
    listed_ascending := by
      intro s
      rw [h.referencesOf_eq]
      exact hg.listed_ascending s
    unconfigured := by
      intro s name v variable' hv hvar
      obtain ⟨hv, variable'', hvar', heq⟩ := hvariable hv hvar
      have hplain := (Variable.isUnconfigured_unlinked _).2 (hg.unconfigured hv hvar')
      rw [heq] at hplain
      exact (Variable.isUnconfigured_unlinked _).1 hplain
    declared := by
      intro name v variable' hv hvar
      obtain ⟨hv, variable'', hvar', heq⟩ := hvariable hv hvar
      have hdeclared := hg.declared hv hvar'
      rw [← Variable.isDeclared_unlinked, heq] at hdeclared
      exact hdeclared
    implicit := himplicit.trans hg.implicit }

theorem openScope (hg : g.Walked t) {kind : ScopeKind} (hkind : kind ≠ .global) {u : ScopeId}
    (hu : u.index < g.scopes.size) (block : NodeId) (strict : Bool) :
    (g.openScope kind block strict (some u)).Walked t := {
  hg.toWellFormed.openScope hkind hu block strict with
  block_global := by
    have hne : ScopeId.global ≠ g.nextScope := ne_nextScope_of_lt (Nat.zero_lt_of_lt hu)
    have hblock := congrArg (Option.map (·.2.2.2))
      (position_openScope kind block strict (some u) hne)
    simp only [Option.map_map] at hblock
    exact hblock.trans hg.block_global
  listed := by
    intro s r
    rw [referencesOf, listOf_openScope (some u) (by exact fun _ _ => rfl) rfl s]
    simp only [originOf, getReference?_openScope]
    exact hg.listed s r
  listed_ascending := by
    intro s
    rw [referencesOf, listOf_openScope (some u) (by exact fun _ _ => rfl) rfl s]
    exact hg.listed_ascending s
  unconfigured := by
    intro s name v variable' hv hvar
    rw [inTable?_openScope] at hv
    rw [getVariable?_openScope] at hvar
    exact hg.unconfigured hv hvar
  declared := by
    intro name v variable' hv hvar
    rw [inTable?_openScope] at hv
    rw [getVariable?_openScope] at hvar
    exact hg.declared hv hvar
  implicit := hg.implicit }

omit [DecidableEq ν] in
theorem referencesOf_addReference {reference : Reference ν}
    (ho : reference.origin.index < g.scopes.size) (s : ScopeId) :
    (g.addReference reference).referencesOf s =
      g.referencesOf s ++ if s = reference.origin then [g.nextReference] else [] :=
  listOf_push (isSome_getScope?_iff.2 ho) (by exact fun _ => rfl) s

theorem index_lt_of_mem_referencesOf (hg : g.Walked t) {s : ScopeId} {r : ReferenceId}
    (hr : r ∈ g.referencesOf s) : r.index < g.nextReference.index := by
  obtain ⟨reference, href, -⟩ := Option.map_eq_some_iff.1 ((hg.listed s r).1 hr)
  exact index_lt_of_getReference? href

/-- The new reference is listed in the scope where it stands. -/
theorem listed_addReference (hg : g.Walked t) {reference : Reference ν}
    (ho : reference.origin.index < g.scopes.size) (s : ScopeId) (r : ReferenceId) :
    r ∈ (g.addReference reference).referencesOf s ↔
      (g.addReference reference).originOf r = some s := by
  rw [referencesOf_addReference ho, List.mem_append, originOf, getReference?_addReference]
  by_cases hr : r = g.nextReference
  · have hnot : g.nextReference ∉ g.referencesOf s := fun hmem =>
      Nat.lt_irrefl _ (hg.index_lt_of_mem_referencesOf hmem)
    rw [hr, if_pos rfl, Option.map_some, Option.some.injEq]
    by_cases hs : s = reference.origin
    · simp [hs]
    · simp [hs, hnot, Ne.symm hs]
  · have hother : r ∉ if s = reference.origin then [g.nextReference] else [] := by
      split <;> simp [hr]
    rw [if_neg hr, or_iff_left hother]
    exact hg.listed s r

theorem listed_ascending_addReference (hg : g.Walked t) {reference : Reference ν}
    (ho : reference.origin.index < g.scopes.size) (s : ScopeId) :
    Ascending ((g.addReference reference).referencesOf s) := by
  rw [referencesOf_addReference ho]
  refine List.pairwise_append.2 ⟨hg.listed_ascending s, ?_, fun r hr r' hr' => ?_⟩
  · split
    · exact List.pairwise_singleton _ _
    · exact List.Pairwise.nil
  · split at hr'
    · rw [List.mem_singleton.1 hr']
      exact hg.index_lt_of_mem_referencesOf hr
    · cases hr'

/-- A reference adds to no table. -/
theorem addReference (hg : g.Walked t) {reference : Reference ν}
    (ho : reference.origin.index < g.scopes.size) : (g.addReference reference).Walked t := {
  hg.toWellFormed.addReference ho with
  block_global := by
    rw [(samePositions_addReference g reference).blockOf]
    exact hg.block_global
  listed := hg.listed_addReference ho
  listed_ascending := hg.listed_ascending_addReference ho
  unconfigured := by
    intro s name v variable' hv hvar
    rw [inTable?_addReference] at hv
    exact hg.unconfigured hv hvar
  declared := by
    intro name v variable' hv hvar
    rw [inTable?_addReference] at hv
    exact hg.declared hv hvar
  implicit := hg.implicit }

/-- A walk makes variables that nothing has configured. -/
theorem unconfigured_bind (hg : g.Walked t) (s : ScopeId) (name : ν) {variable' : Variable ν}
    (hvar : (g.bind s name).1.getVariable? (g.bind s name).2 = some variable') :
    variable'.IsUnconfigured := by
  cases hv : g.inTable? s name with
  | some v =>
    have hbind : g.bind s name = (g, v) := by simp [bind, hv]
    rw [hbind] at hvar
    exact hg.unconfigured hv hvar
  | none =>
    rw [getVariable?_bind, bind_snd, hv, Option.getD_none, if_pos ⟨rfl, rfl⟩] at hvar
    obtain rfl := Option.some.inj hvar
    exact ⟨rfl, rfl, rfl, rfl, rfl, rfl⟩

/-- After a declaration a table leads to the variable of the declaration or to an old one. -/
theorem variable_of_declare (hg : g.Walked t) {s : ScopeId} (hs : s.index < g.scopes.size)
    {name : ν} {d : Option Definition} {x : ScopeId} {m : ν} {v : VariableId}
    {variable' : Variable ν} (hv : (g.declare s name d).inTable? x m = some v)
    (hvar : (g.declare s name d).getVariable? v = some variable') :
    v = (g.bind s name).2 ∧ (∃ bound, (g.bind s name).1.getVariable? v = some bound ∧
      variable' = d.elim bound bound.define) ∨
      g.inTable? x m = some v ∧ g.getVariable? v = some variable' := by
  rw [getVariable?_declare] at hvar
  split at hvar
  · next heq =>
    obtain ⟨bound, hbound, rfl⟩ := Option.map_eq_some_iff.1 hvar
    exact .inl ⟨heq, bound, hbound, rfl⟩
  · next hne =>
    rw [(revises_declare g s name d).inTable?_eq hs] at hv
    split at hv
    · exact absurd (Option.some.inj hv).symm hne
    · rw [WellFormed.Owns.getVariable?_bind (hg.inTable hv)] at hvar
      exact .inr ⟨hv, hvar⟩

theorem unconfigured_declare (hg : g.Walked t) {s : ScopeId} (hs : s.index < g.scopes.size)
    {name : ν} {d : Option Definition} {x : ScopeId} {m : ν} {v : VariableId}
    {variable' : Variable ν} (hv : (g.declare s name d).inTable? x m = some v)
    (hvar : (g.declare s name d).getVariable? v = some variable') :
    variable'.IsUnconfigured := by
  obtain ⟨rfl, bound, hbound, rfl⟩ | ⟨hv, hvar⟩ := hg.variable_of_declare hs hv hvar
  · have hplain := hg.unconfigured_bind s name hbound
    cases d with
    | none => exact hplain
    | some d => exact Variable.isUnconfigured_define hplain d
  · exact hg.unconfigured hv hvar

/-- A variable that is bound without a definition stands in another table than the global one. -/
theorem declared_declare (hg : g.Walked t) {s : ScopeId} (hs : s.index < g.scopes.size) {name : ν}
    {d : Option Definition} (hd : s = .global → d.isSome) {m : ν} {v : VariableId}
    {variable' : Variable ν} (hv : (g.declare s name d).inTable? .global m = some v)
    (hvar : (g.declare s name d).getVariable? v = some variable') : variable'.isDeclared := by
  obtain ⟨rfl, bound, hbound, rfl⟩ | ⟨hv, hvar⟩ := hg.variable_of_declare hs hv hvar
  · cases d with
    | some d => exact Variable.isDeclared_define bound d
    | none =>
      have hs' : ScopeId.global ≠ s := by
        intro heq
        have hsome : (none : Option Definition).isSome := hd heq.symm
        cases hsome
      rw [(revises_declare g s name none).inTable?_eq hs, if_neg fun h => hs' h.1] at hv
      have howns : (g.bind s name).1.Owns .global m (g.bind s name).2 := by
        rw [Owns, WellFormed.Owns.getVariable?_bind (hg.inTable hv)]
        exact hg.inTable hv
      exact absurd (howns.scope_unique (hg.owns_bind s name)) hs'
  · exact hg.declared hv hvar

/-- A name in the global table comes with a definition. -/
theorem declare (hg : g.Walked t) {s : ScopeId} (hs : s.index < g.scopes.size) (name : ν)
    (d : Option Definition) (hd : s = .global → d.isSome) : (g.declare s name d).Walked t := by
  have hframe := hg.frame_of_revises (revises_declare g s name d)
  exact {
    hg.toWellFormed.declare hs name d with
    block_global := by
      rw [hframe.positions.blockOf]
      exact hg.block_global
    listed := by
      intro x r
      rw [hframe.referencesOf_eq, hg.listed, originOf, originOf, getReference?_declare]
    listed_ascending := by
      intro x
      rw [hframe.referencesOf_eq]
      exact hg.listed_ascending x
    unconfigured := hg.unconfigured_declare hs
    declared := hg.declared_declare hs hd
    implicit := by
      have hbind : (g.bind s name).1.implicit = g.implicit := by
        unfold bind
        split <;> rfl
      refine Eq.trans ?_ hg.implicit
      cases d <;> exact hbind }

/-- A walk begins with a global scope that has no names. -/
theorem root (strict : Bool) : (ScopeGraph.root t.root strict : ScopeGraph ν).Walked t := {
  wellFormed_root t.root strict with
  block_global := by
    rw [blockOf, getScope?_root, if_pos rfl]
    rfl
  listed := by
    intro s r
    rw [referencesOf, listOf, getScope?_root]
    split
    · constructor
      · intro hr
        simp [opening] at hr
      · intro hr
        cases hr
    · constructor
      · intro hr
        simp at hr
      · intro hr
        cases hr
  listed_ascending := by
    intro s
    rw [referencesOf, listOf, getScope?_root]
    split <;> exact List.Pairwise.nil
  unconfigured := by
    intro s name v variable' hv hvar
    cases hvar
  declared := by
    intro name v variable' hv hvar
    cases hvar
  implicit := rfl }

end Walked

end ScopeGraph

end LexicalScope
