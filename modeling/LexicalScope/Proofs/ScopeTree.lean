import LexicalScope.Proofs.Analyzed
import LexicalScope.Proofs.Stable
import Mathlib.Data.List.Find

/-!
The tree of scopes. Scopes are numbered in the order in which a walk opens them, so the numbers
are a pre-order of the tree: as long as a scope is open, all scopes opened after it lie inside
it, and once it is closed, none does. Children and anchored scopes are listed in this order too.
-/
namespace LexicalScope.ScopeGraph

variable {ν : Type}

def scopeIds (g : ScopeGraph ν) : List ScopeId :=
  (List.range g.scopes.size).map ScopeId.mk

theorem mem_scopeIds_iff {g : ScopeGraph ν} {s : ScopeId} :
    s ∈ g.scopeIds ↔ s.index < g.scopes.size := by
  constructor
  · intro hs
    obtain ⟨i, hi, rfl⟩ := List.mem_map.1 hs
    exact List.mem_range.1 hi
  · intro hs
    exact List.mem_map.2 ⟨s.index, List.mem_range.2 hs, rfl⟩

theorem pairwise_scopeIds (g : ScopeGraph ν) : g.scopeIds.Pairwise (·.index < ·.index) :=
  List.pairwise_map.2 List.pairwise_lt_range

def holdsVars (g : ScopeGraph ν) (s : ScopeId) : Bool :=
  (g.getScope? s).any (·.kind.holdsVars)

/-- The scopes form one tree, numbered in pre-order from the global scope on. -/
structure ScopeTree (g : ScopeGraph ν) : Prop where
  global_lt : ScopeId.global.index < g.scopes.size
  id_eq : ∀ {s scope}, g.getScope? s = some scope → scope.id = s
  kind_eq_global_iff : ∀ {s scope}, g.getScope? s = some scope →
    (scope.kind = .global ↔ s = .global)
  upper_eq_none_iff : ∀ {s scope}, g.getScope? s = some scope →
    (scope.upper = none ↔ s = .global)
  upper_lt : ∀ {s scope u}, g.getScope? s = some scope → scope.upper = some u →
    u.index < s.index
  chain_eq : ∀ {s scope}, g.getScope? s = some scope →
    g.chain s = s :: scope.upper.elim [] g.chain
  children_eq : ∀ {s scope}, g.getScope? s = some scope →
    scope.children.toList = g.scopeIds.filter (g.upper? · = some s)
  descendants : ∀ {s}, s.index < g.scopes.size → ∃ n, ∀ x : ScopeId, x.index < g.scopes.size →
    (s ∈ g.chain x ↔ s.index ≤ x.index ∧ x.index < n)
  variableScope_eq : ∀ {s scope}, g.getScope? s = some scope →
    (g.chain s).find? g.holdsVars = some scope.variableScope
  scopesOf_eq : ∀ n, g.scopesOf n = g.scopeIds.filter (g.blockOf · = some n)

/-- What a walk keeps of the tree of scopes. The scopes in `opened` are still open. -/
structure Nested (g : ScopeGraph ν) (opened : List ScopeId) : Prop where
  id_eq : ∀ {s scope}, g.getScope? s = some scope → scope.id = s
  children_eq : ∀ {s scope}, g.getScope? s = some scope →
    scope.children.toList = g.scopeIds.filter (g.upper? · = some s)
  descendants : ∀ {s}, s.index < g.scopes.size → ∃ n, ∀ x : ScopeId, x.index < g.scopes.size →
    (s ∈ g.chain x ↔ s.index ≤ x.index ∧ x.index < n)
  inside_open : ∀ {s}, s ∈ opened → ∀ x : ScopeId, x.index < g.scopes.size →
    s.index ≤ x.index → s ∈ g.chain x
  variableScope_eq : ∀ {s}, s.index < g.scopes.size →
    (g.chain s).find? g.holdsVars = some (g.variableScope s)
  scopesOf_eq : ∀ n, g.scopesOf n = g.scopeIds.filter (g.blockOf · = some n)

theorem SamePositions.holdsVars {g g' : ScopeGraph ν} (h : g.SamePositions g') (s : ScopeId) :
    g'.holdsVars s = g.holdsVars s := by
  have hkind := congrArg (Option.any (·.1.holdsVars)) (h s)
  simp only [Option.any_map] at hkind
  exact hkind

theorem SamePositions.scopeIds {g g' : ScopeGraph ν} (h : g.SamePositions g') :
    g'.scopeIds = g.scopeIds := by
  rw [ScopeGraph.scopeIds, h.size_scopes, ScopeGraph.scopeIds]

namespace Nested

variable {g g' : ScopeGraph ν} {opened : List ScopeId}

theorem congr (h : g.Nested opened) (hsame : g.SameTree g') : g'.Nested opened := by
  have hpositions := hsame.samePositions
  exact {
    id_eq := by
      intro s scope hs
      obtain ⟨scope', hs', heq⟩ := hsame.exists_getScope? hs
      have hid : scope'.id = scope.id := congrArg (·.1) heq
      rw [← hid, h.id_eq hs']
    children_eq := by
      intro s scope hs
      obtain ⟨scope', hs', heq⟩ := hsame.exists_getScope? hs
      have hchildren : scope'.children = scope.children := congrArg (·.2.2.1) heq
      rw [← hchildren, h.children_eq hs', hpositions.scopeIds]
      exact List.filter_congr fun x _ => by rw [hpositions.upper?]
    descendants := by
      intro s hs
      obtain ⟨n, hn⟩ := h.descendants ((hpositions.lt_size_iff s).1 hs)
      refine ⟨n, fun x hx => ?_⟩
      rw [hpositions.chain]
      exact hn x ((hpositions.lt_size_iff x).1 hx)
    inside_open := by
      intro s hs x hx hle
      rw [hpositions.chain]
      exact h.inside_open hs x ((hpositions.lt_size_iff x).1 hx) hle
    variableScope_eq := by
      intro s hs
      rw [hpositions.chain, hpositions.variableScope, funext hpositions.holdsVars]
      exact h.variableScope_eq ((hpositions.lt_size_iff s).1 hs)
    scopesOf_eq := by
      intro n
      rw [scopesOf, hsame.anchors_eq, ← scopesOf, h.scopesOf_eq, hpositions.scopeIds]
      exact List.filter_congr fun x _ => by rw [hpositions.blockOf] }

theorem close {s : ScopeId} {outer : List ScopeId} (h : g.Nested (s :: outer))
    (hsame : g.SameTree g') : g'.Nested outer := by
  have hnested := h.congr hsame
  exact { hnested with inside_open := fun hs => hnested.inside_open (List.mem_cons_of_mem _ hs) }

section Open

variable {u : ScopeId} {kind : ScopeKind} {block : NodeId} {strict : Bool}

theorem scopeIds_openScope (upper : Option ScopeId) :
    (g.openScope kind block strict upper).scopeIds = g.scopeIds ++ [g.nextScope] := by
  rw [scopeIds, size_scopes_openScope, List.range_succ, List.map_append, scopeIds]
  rfl

theorem holdsVars_nextScope (upper : Option ScopeId) :
    (g.openScope kind block strict upper).holdsVars g.nextScope = kind.holdsVars := by
  rw [holdsVars, getScope?_openScope, if_pos rfl]
  rfl

theorem holdsVars_openScope (upper : Option ScopeId) {x : ScopeId} (hx : x ≠ g.nextScope) :
    (g.openScope kind block strict upper).holdsVars x = g.holdsVars x := by
  have hkind := congrArg (Option.any (·.1.holdsVars))
    (position_openScope kind block strict upper hx)
  simp only [Option.any_map] at hkind
  exact hkind

theorem blockOf_nextScope (upper : Option ScopeId) :
    (g.openScope kind block strict upper).blockOf g.nextScope = some block := by
  rw [blockOf, getScope?_openScope, if_pos rfl]
  rfl

theorem blockOf_openScope (upper : Option ScopeId) {x : ScopeId} (hx : x ≠ g.nextScope) :
    (g.openScope kind block strict upper).blockOf x = g.blockOf x := by
  have hblock := congrArg (Option.map (·.2.2.2))
    (position_openScope kind block strict upper hx)
  simp only [Option.map_map] at hblock
  exact hblock

theorem ne_nextScope_of_mem_scopeIds {x : ScopeId} (hx : x ∈ g.scopeIds) : x ≠ g.nextScope :=
  ne_nextScope_of_lt (mem_scopeIds_iff.1 hx)

/-- The ids of the scopes inside `s`, after a scope was opened inside `u`. -/
theorem filter_upper?_openScope (u s : ScopeId) :
    (g.openScope kind block strict (some u)).scopeIds.filter
        ((g.openScope kind block strict (some u)).upper? · = some s) =
      g.scopeIds.filter (g.upper? · = some s) ++ if u = s then [g.nextScope] else [] := by
  rw [scopeIds_openScope, List.filter_append]
  congr 1
  · apply List.filter_congr
    intro x hx
    rw [upper?_openScope, if_neg (ne_nextScope_of_mem_scopeIds hx)]
  · rw [List.filter_singleton, upper?_openScope, if_pos rfl]
    by_cases hus : u = s <;> simp [hus]

/-- No scope lies inside one that is not there yet. -/
theorem filter_upper?_nextScope (hg : g.Rooted) :
    g.scopeIds.filter (g.upper? · = some g.nextScope) = [] := by
  rw [List.filter_eq_nil_iff]
  intro x hx hupper
  have hlt := hg.upper_lt (of_decide_eq_true hupper)
  have hsize := mem_scopeIds_iff.1 hx
  simp only [nextScope] at hlt
  omega

section Fields

variable (h : g.Nested opened)
include h

theorem scopesOf_openScope (upper : Option ScopeId) (n : NodeId) :
    (g.openScope kind block strict upper).scopesOf n =
      (g.openScope kind block strict upper).scopeIds.filter
        ((g.openScope kind block strict upper).blockOf · = some n) := by
  have hanchors : (g.openScope kind block strict upper).anchors =
      g.anchors.insert block g.nextScope := rfl
  have hfresh : g.nextScope ∉ g.anchors.valuesAt block := by
    intro hmem
    rw [← scopesOf, h.scopesOf_eq] at hmem
    exact ne_nextScope_of_mem_scopeIds (List.mem_of_mem_filter hmem) rfl
  have hold : g.scopeIds.filter
      ((g.openScope kind block strict upper).blockOf · = some n) = g.scopesOf n := by
    rw [h.scopesOf_eq]
    apply List.filter_congr
    intro x hx
    rw [blockOf_openScope _ (ne_nextScope_of_mem_scopeIds hx)]
  rw [scopesOf, hanchors, MultiMap.valuesAt_insert, scopeIds_openScope, List.filter_append,
    hold, List.filter_singleton, blockOf_nextScope]
  by_cases hn : n = block
  · simp [hn, hfresh, scopesOf]
  · simp [hn, Ne.symm hn, scopesOf]

variable (hg : g.Rooted) (hu : u.index < g.scopes.size)
include hg hu

/-- A new scope is the last child of the scope around it. -/
theorem children_openScope {s : ScopeId} {scope : Scope ν}
    (hs : (g.openScope kind block strict (some u)).getScope? s = some scope) :
    scope.children.toList = (g.openScope kind block strict (some u)).scopeIds.filter
      ((g.openScope kind block strict (some u)).upper? · = some s) := by
  rw [filter_upper?_openScope]
  rw [getScope?_openScope] at hs
  split at hs
  · next heq =>
    obtain rfl := Option.some.inj hs
    rw [heq, filter_upper?_nextScope hg, if_neg (ne_nextScope_of_lt hu)]
    rfl
  · simp only [Option.some.injEq] at hs
    split at hs
    · next heq =>
      obtain ⟨scope', hs', rfl⟩ := Option.map_eq_some_iff.1 hs
      rw [if_pos heq, ← h.children_eq hs', Array.toList_push]
    · next hus => rw [if_neg hus, List.append_nil, h.children_eq hs]

/-- The variable scope of a new scope is itself or that of the scope around it. -/
theorem find?_holdsVars_openScope {s : ScopeId}
    (hs : s.index < (g.openScope kind block strict (some u)).scopes.size) :
    ((g.openScope kind block strict (some u)).chain s).find?
        (g.openScope kind block strict (some u)).holdsVars =
      some ((g.openScope kind block strict (some u)).variableScope s) := by
  have hold {x : ScopeId} (hx : x.index < g.scopes.size) :
      (g.chain x).find? (g.openScope kind block strict (some u)).holdsVars =
        some (g.variableScope x) := by
    rw [← h.variableScope_eq hx]
    apply List.find?_congr
    intro y hy
    exact holdsVars_openScope _ (ne_nextScope_of_lt (hg.size_of_mem_chain hx hy))
  rw [variableScope_openScope]
  rcases lt_or_eq_nextScope (size_scopes_openScope ..) hs with hs | rfl
  · rw [if_neg (ne_nextScope_of_lt hs), hg.chain_openScope kind block strict hu hs, hold hs]
  · rw [if_pos rfl, hg.chain_nextScope kind block strict hu, List.find?_cons, holdsVars_nextScope]
    cases kind.holdsVars with
    | true => rfl
    | false => exact hold hu

variable (hopened : opened = g.chain u)
include hopened

/-- All scopes opened after one that is still open lie inside it. -/
theorem mem_chain_openScope {s : ScopeId} (hs : s ∈ g.nextScope :: opened) (x : ScopeId)
    (hx : x.index < (g.openScope kind block strict (some u)).scopes.size)
    (hle : s.index ≤ x.index) : s ∈ (g.openScope kind block strict (some u)).chain x := by
  rcases lt_or_eq_nextScope (size_scopes_openScope ..) hx with hx | rfl
  · rcases List.mem_cons.1 hs with rfl | hs
    · exact absurd hle (Nat.not_le.2 hx)
    · rw [hg.chain_openScope kind block strict hu hx]
      exact h.inside_open hs x hx hle
  · rw [hg.chain_nextScope kind block strict hu, ← hopened]
    exact hs

/-- Descendants stay numbered without a gap, as a new scope comes last and inside open scopes only.
-/
theorem descendants_openScope {s : ScopeId}
    (hs : s.index < (g.openScope kind block strict (some u)).scopes.size) :
    ∃ n, ∀ x : ScopeId, x.index < (g.openScope kind block strict (some u)).scopes.size →
      (s ∈ (g.openScope kind block strict (some u)).chain x ↔ s.index ≤ x.index ∧ x.index < n) := by
  by_cases hmem : s ∈ g.nextScope :: opened
  · refine ⟨g.scopes.size + 1, fun x hx => ⟨fun hsx => ⟨?_, ?_⟩, fun hle => ?_⟩⟩
    · exact (hg.openScope kind block strict hu).index_le_of_mem_chain hx hsx
    · rwa [size_scopes_openScope] at hx
    · exact h.mem_chain_openScope hg hu hopened hmem x hx hle.1
  · have hlt : s.index < g.scopes.size :=
      (lt_or_eq_nextScope (size_scopes_openScope ..) hs).resolve_right fun heq =>
        hmem (heq ▸ List.mem_cons_self ..)
    obtain ⟨n, hn⟩ := h.descendants hlt
    refine ⟨min n g.scopes.size, fun x hx => ?_⟩
    rcases lt_or_eq_nextScope (size_scopes_openScope ..) hx with hx | rfl
    · rw [hg.chain_openScope kind block strict hu hx, hn x hx]
      omega
    · rw [hg.chain_nextScope kind block strict hu, ← hopened]
      refine iff_of_false hmem fun hle => ?_
      have hlt := hle.2
      simp only [nextScope] at hlt
      omega

theorem openScope : (g.openScope kind block strict (some u)).Nested (g.nextScope :: opened) where
  id_eq {s scope} hs := by
    rw [getScope?_openScope] at hs
    split at hs
    · next heq =>
      obtain rfl := Option.some.inj hs
      exact heq.symm
    · split at hs
      · obtain ⟨scope', hs', rfl⟩ := Option.map_eq_some_iff.1 hs
        have hid := h.id_eq hs'
        exact hid
      · exact h.id_eq hs
  children_eq hs := h.children_openScope hg hu hs
  descendants hs := h.descendants_openScope hg hu hopened hs
  inside_open hs := h.mem_chain_openScope hg hu hopened hs
  variableScope_eq hs := h.find?_holdsVars_openScope hg hu hs
  scopesOf_eq n := h.scopesOf_openScope (some u) n

end Fields

end Open

/-- A global scope is a tree. -/
theorem root (block : NodeId) (strict : Bool) :
    (ScopeGraph.root block strict : ScopeGraph ν).Nested [.global] := by
  have hrooted : (ScopeGraph.root block strict : ScopeGraph ν).Rooted := rooted_root block strict
  have hsize : (ScopeGraph.root block strict : ScopeGraph ν).scopes.size = 1 := rfl
  have hglobal {s : ScopeId}
      (hs : s.index < (ScopeGraph.root block strict : ScopeGraph ν).scopes.size) : s = .global :=
    eq_global_of_lt_root block strict hs
  have hupper := upper?_root (ν := ν) block strict
  have hself {s : ScopeId}
      (hs : s.index < (ScopeGraph.root block strict : ScopeGraph ν).scopes.size) :
      (ScopeGraph.root block strict : ScopeGraph ν).chain s = [s] :=
    hrooted.chain_outermost hs (hupper s)
  exact {
    id_eq := by
      intro s scope hs
      rw [getScope?_root] at hs
      split at hs
      · next heq =>
        obtain rfl := Option.some.inj hs
        exact heq.symm
      · cases hs
    children_eq := by
      intro s scope hs
      rw [getScope?_root] at hs
      split at hs
      · obtain rfl := Option.some.inj hs
        simp [hupper, opening]
      · cases hs
    descendants := by
      intro s hs
      refine ⟨1, fun x hx => ?_⟩
      rw [hself hx, hglobal hs, hglobal hx]
      simp [ScopeId.global]
    inside_open := by
      intro s hs x hx _
      rw [hself hx, hglobal hx]
      exact hs
    variableScope_eq := by
      intro s hs
      rw [hself hs, hglobal hs]
      rfl
    scopesOf_eq := by
      intro n
      have hempty (n : NodeId) : ({} : MultiMap NodeId ScopeId).valuesAt n = [] := rfl
      have hanchors : (ScopeGraph.root block strict : ScopeGraph ν).anchors =
          ({} : MultiMap NodeId ScopeId).insert block .global := rfl
      have hids : (ScopeGraph.root block strict : ScopeGraph ν).scopeIds = [.global] := rfl
      have hblock : (ScopeGraph.root block strict : ScopeGraph ν).blockOf .global = some block :=
        rfl
      rw [scopesOf, hanchors, MultiMap.valuesAt_insert, hempty, hempty, hids,
        List.filter_singleton, hblock]
      by_cases hn : n = block
      · simp [hn]
      · simp [hn, Ne.symm hn] }

end Nested

variable [DecidableEq ν]

/-- Every step of a walk keeps the tree of scopes. -/
theorem walkInvariant_nested (t : Tree) :
    WalkInvariant t fun (_ : List (Located ν)) c => c.graph.Nested c.opened where
  enter {_ c _ kind} h hnested _ block strict := by
    have hgraph : (c.enter kind block strict).graph =
        c.graph.openScope kind block strict (some c.current) := by
      rw [Cursor.enter, h.head?_opened]
    rw [hgraph]
    exact hnested.openScope h.walked.toRooted h.lt_size h.opened_eq
  close _ hnested _ := hnested.close (.closeScope t _ _)
  declare _ hnested place name d := hnested.congr (.declare _ _ name d)
  refer _ hnested _ := hnested.congr (.addReference _ _)
  this _ hnested := hnested.congr (.modifyScope (by exact fun _ => rfl) _)
  misplacedImport _ hnested _ := hnested

/-- With all scopes closed, nested scopes form a tree. -/
theorem ScopeTree.of_nested {g : ScopeGraph ν} {opened : List ScopeId} (h : g.Nested opened)
    (hg : g.WellFormed) (hs : ScopeId.global.index < g.scopes.size) : g.ScopeTree := by
  have hupper {s : ScopeId} {scope : Scope ν} (hs : g.getScope? s = some scope) :
      g.upper? s = scope.upper := by
    rw [upper?, hs, Option.bind_some]
  exact {
    global_lt := hs
    id_eq := h.id_eq
    kind_eq_global_iff := hg.kind_global
    upper_eq_none_iff := by
      intro s scope hscope
      rw [← hupper hscope]
      constructor
      · exact hg.isGlobal (lt_of_getScope? hscope)
      · rintro rfl
        exact upper?_global hg.toRooted
    upper_lt := by
      intro s scope u hscope hu
      exact hg.upper_lt (hupper hscope ▸ hu)
    chain_eq := by
      intro s scope hscope
      rw [hg.chain_eq (lt_of_getScope? hscope), hupper hscope]
    children_eq := h.children_eq
    descendants := h.descendants
    variableScope_eq := by
      intro s scope hscope
      rw [h.variableScope_eq (lt_of_getScope? hscope), variableScope, hscope, Option.elim_some]
    scopesOf_eq := h.scopesOf_eq }

end ScopeGraph

section Analyze

variable {names names' : NameTable} {t : Tree} {o : LanguageOptions} {envs : Environments}
  {g : ScopeGraph Name}

theorem nested_of_analyze (h : analyze names t o envs = (names', .ok g)) :
    g.Nested [.global] ∧ ScopeId.global.index < g.scopes.size := by
  obtain ⟨-, source, -, hwalking, -, hnested, rfl⟩ :=
    (ScopeGraph.walkInvariant_nested t).of_analyze (ScopeGraph.Nested.root t.root) h
  have hsame := ScopeGraph.SameTree.conclude t source
    ((GlobalSettings.ofFile o envs t.comments).mapNames names'.handle)
  exact ⟨hnested.congr hsame, (hsame.samePositions.lt_size_iff _).2 hwalking.lt_size⟩

/-- The scopes of an analysed file form one tree, numbered in pre-order. -/
theorem scopeTree_of_analyze (h : analyze names t o envs = (names', .ok g)) : g.ScopeTree := by
  obtain ⟨hnested, hglobal⟩ := nested_of_analyze h
  exact .of_nested hnested (analyzed_of_analyze h).toWellFormed hglobal

/-- `(function f() {})`, wrapped in a function -/
def wrappedExpression : Build NodeId := do
  let f ← .functionExpression (some "f") [] []
  let statement ← .alloc (.expressionStatement f none)
  .alloc (.program [statement] .commonjs)

/-- Two scopes are anchored at the program and two at the function in it. -/
theorem scopeTree_wrappedExpression : ∃ t names g, Build.tree wrappedExpression = .ok t ∧
    analyze {} t {} {} = (names, .ok g) ∧ g.scopeIds = [⟨0⟩, ⟨1⟩, ⟨2⟩, ⟨3⟩] ∧
    g.scopesOf t.root = [⟨0⟩, ⟨1⟩] ∧ g.ScopeTree := by
  obtain ⟨t, names, g, ht, h, hscopes⟩ := exists_analysis wrappedExpression {} {}
    (fun t _ g => g.scopeIds = [⟨0⟩, ⟨1⟩, ⟨2⟩, ⟨3⟩] ∧ g.scopesOf t.root = [⟨0⟩, ⟨1⟩])
    (by decide +kernel)
  exact ⟨t, names, g, ht, h, hscopes.1, hscopes.2, scopeTree_of_analyze h⟩

end Analyze

end LexicalScope
