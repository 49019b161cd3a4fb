import LexicalScope.Proofs.Owners
import LexicalScope.Proofs.RoleTrace
import LexicalScope.Proofs.ScopeTree
import LexicalScope.Proofs.Visits

/-!
Where scopes come from. Every scope stems from one step of the walk, and every step that opens one
from a visited node. So a scope is told from all others by the blocks of it and of the scopes
around it, and the scopes anchored at a node are those that its visit opens.
-/
namespace LexicalScope

variable {ν : Type}

/-- A scope from outside: its kind, and the blocks of it and of the scopes around it, innermost
first. -/
structure Region where
  kind : ScopeKind
  blocks : List NodeId

def Located.region? : Located ν → Option Region
  | ⟨blocks, .enter kind block _⟩ => some ⟨kind, block :: blocks⟩
  | _ => none

def Located.regions (trace : List (Located ν)) : List Region :=
  trace.filterMap region?

theorem Located.regions_append (trace trace' : List (Located ν)) :
    regions (trace ++ trace') = regions trace ++ regions trace' :=
  List.filterMap_append

theorem Located.region?_mapName {μ : Type} (f : ν → μ) (l : Located ν) :
    (l.mapName f).region? = l.region? := by
  obtain ⟨blocks, step⟩ := l
  cases step <;> rfl

theorem Located.regions_mapName {μ : Type} (f : ν → μ) (trace : List (Located ν)) :
    regions (trace.map (.mapName f)) = regions trace := by
  rw [regions, List.filterMap_map]
  congr 1
  funext l
  exact l.region?_mapName f

namespace ScopeGraph

def kindOf? (g : ScopeGraph ν) (s : ScopeId) : Option ScopeKind :=
  (g.getScope? s).map (·.kind)

/-- The blocks of a scope and of the scopes around it, innermost first. -/
def blocksOf (g : ScopeGraph ν) (s : ScopeId) : List NodeId :=
  (g.chain s).filterMap g.blockOf

def region? (g : ScopeGraph ν) (s : ScopeId) : Option Region :=
  (g.kindOf? s).map (⟨·, g.blocksOf s⟩)

section Positions

variable {g g' : ScopeGraph ν} (h : g.SamePositions g')
include h

theorem SamePositions.kindOf? (s : ScopeId) : g'.kindOf? s = g.kindOf? s := by
  have hkind := congrArg (Option.map (·.1)) (h s)
  simp only [Option.map_map] at hkind
  exact hkind

theorem SamePositions.blocksOf (s : ScopeId) : g'.blocksOf s = g.blocksOf s := by
  rw [ScopeGraph.blocksOf, h.chain, funext h.blockOf, ScopeGraph.blocksOf]

theorem SamePositions.region? (s : ScopeId) : g'.region? s = g.region? s := by
  rw [ScopeGraph.region?, h.kindOf?, h.blocksOf, ← ScopeGraph.region?]

theorem SamePositions.map_region? : g'.scopeIds.map g'.region? = g.scopeIds.map g.region? := by
  rw [h.scopeIds, funext h.region?]

end Positions

section Open

variable {g : ScopeGraph ν} {u : ScopeId} (kind : ScopeKind) (block : NodeId) (strict : Bool)

theorem kindOf?_nextScope (upper : Option ScopeId) :
    (g.openScope kind block strict upper).kindOf? g.nextScope = some kind := by
  rw [kindOf?, getScope?_openScope, if_pos rfl]
  rfl

theorem kindOf?_openScope (upper : Option ScopeId) {x : ScopeId} (hx : x ≠ g.nextScope) :
    (g.openScope kind block strict upper).kindOf? x = g.kindOf? x := by
  have hkind := congrArg (Option.map (·.1)) (position_openScope kind block strict upper hx)
  simp only [Option.map_map] at hkind
  exact hkind

/-- The blocks around a scope stay what they are when another one opens. -/
theorem filterMap_blockOf_openScope (hg : g.Rooted) (upper : Option ScopeId) {s : ScopeId}
    (hs : s.index < g.scopes.size) :
    (g.chain s).filterMap (g.openScope kind block strict upper).blockOf = g.blocksOf s := by
  apply List.filterMap_congr
  intro x hx
  exact Nested.blockOf_openScope _ (ne_nextScope_of_lt (hg.size_of_mem_chain hs hx))

/-- A new scope leaves the regions of the others. -/
theorem region?_openScope (hg : g.Rooted) (hu : u.index < g.scopes.size) {s : ScopeId}
    (hs : s.index < g.scopes.size) :
    (g.openScope kind block strict (some u)).region? s = g.region? s := by
  rw [region?, kindOf?_openScope _ _ _ _ (ne_nextScope_of_lt hs), blocksOf,
    hg.chain_openScope _ _ _ hu hs, filterMap_blockOf_openScope kind block strict hg _ hs, region?]

/-- The region of a new scope has its block before those of the scope around it. -/
theorem region?_nextScope (hg : g.Rooted) (hu : u.index < g.scopes.size) :
    (g.openScope kind block strict (some u)).region? g.nextScope =
      some ⟨kind, block :: g.blocksOf u⟩ := by
  rw [region?, kindOf?_nextScope, blocksOf, hg.chain_nextScope _ _ _ hu,
    List.filterMap_cons_some (Nested.blockOf_nextScope _),
    filterMap_blockOf_openScope kind block strict hg _ hu]
  rfl

end Open

variable [DecidableEq ν]

/-- The blocks of the current scope are those that the walk has open. -/
theorem Walking.blocksOf_current {t : Tree} {c : Cursor ν} {blocks : List NodeId}
    (h : Walking t c blocks) : c.graph.blocksOf c.current = blocks := by
  have hblocks := congrArg (List.filterMap id) h.blocks_eq
  simp only [List.filterMap_map, Function.comp_def, id, List.filterMap_some] at hblocks
  rw [blocksOf, ← h.opened_eq]
  exact hblocks

/-- The scopes record the opening steps of a walk. -/
theorem walkInvariant_regions (t : Tree) :
    WalkInvariant t fun (trace : List (Located ν)) c =>
      c.graph.scopeIds.map c.graph.region? = (Located.regions trace).map some where
  enter {trace c blocks kind} h hc _ block strict := by
    have hg := h.walked.toRooted
    have hold : c.graph.scopeIds.map
        (c.graph.openScope kind block strict (some c.current)).region? =
          c.graph.scopeIds.map c.graph.region? := by
      apply List.map_congr_left
      intro s hs
      exact region?_openScope kind block strict hg h.lt_size (mem_scopeIds_iff.1 hs)
    rw [Cursor.enter, h.head?_opened, Nested.scopeIds_openScope, List.map_append, hold, hc,
      List.map_singleton, region?_nextScope kind block strict hg h.lt_size,
      Walking.blocksOf_current h, Located.regions_append, List.map_append]
    rfl
  close _ hc _ := by
    rw [(SameTree.closeScope t _ _).samePositions.map_region?, hc]
  declare {trace c blocks} h hc place name d := by
    rw [(SameTree.declare _ _ name d).samePositions.map_region?, hc, Located.regions_append]
    exact congrArg _ (List.append_nil _).symm
  refer {trace c blocks} _ hc o := by
    rw [(SameTree.addReference _ _).samePositions.map_region?, hc, Located.regions_append]
    exact congrArg _ (List.append_nil _).symm
  this {trace c blocks} _ hc := by
    have hsame : c.graph.SameTree (c.graph.modifyScope (c.graph.variableScope c.current)
        fun s => { s with thisFound := true }) := .modifyScope (by exact fun _ => rfl) _
    rw [hsame.samePositions.map_region?, hc, Located.regions_append]
    exact congrArg _ (List.append_nil _).symm
  misplacedImport _ hc _ := by
    rw [hc, Located.regions_append]
    exact congrArg _ (List.append_nil _).symm

end ScopeGraph

/-- The regions of scopes of these kinds, each opened at `n` inside the one before. -/
def regionsFrom (n : NodeId) : List NodeId → List ScopeKind → List Region
  | _, [] => []
  | blocks, kind :: kinds => ⟨kind, n :: blocks⟩ :: regionsFrom n (n :: blocks) kinds

section RegionsFrom

variable {n : NodeId} {blocks : List NodeId} {kinds : List ScopeKind} {r : Region}

/-- Each scope opened at a node has the blocks of those opened there before. -/
theorem mem_regionsFrom_iff : r ∈ regionsFrom n blocks kinds ↔
    ∃ outer inner, kinds = outer ++ r.kind :: inner ∧
      r.blocks = List.replicate (outer.length + 1) n ++ blocks := by
  induction kinds generalizing blocks with
  | nil => simp [regionsFrom]
  | cons kind kinds ih =>
    rw [regionsFrom, List.mem_cons, ih]
    constructor
    · rintro (rfl | ⟨outer, inner, rfl, hblocks⟩)
      · exact ⟨[], kinds, rfl, rfl⟩
      · refine ⟨kind :: outer, inner, rfl, ?_⟩
        rw [hblocks, List.length_cons, List.replicate_succ' (n := outer.length + 1),
          List.append_assoc]
        rfl
    · rintro ⟨outer, inner, heq, hblocks⟩
      cases outer with
      | nil =>
        obtain ⟨rfl, rfl⟩ := List.cons.inj heq
        exact .inl (by rw [Region.mk.injEq]; exact ⟨rfl, hblocks⟩)
      | cons kind' outer =>
        obtain ⟨rfl, rfl⟩ := List.cons.inj heq
        refine .inr ⟨outer, inner, rfl, ?_⟩
        rw [hblocks, List.length_cons, List.replicate_succ' (n := outer.length + 1),
          List.append_assoc]
        rfl

theorem head?_blocks_of_mem (h : r ∈ regionsFrom n blocks kinds) : r.blocks.head? = some n := by
  obtain ⟨outer, inner, -, hblocks⟩ := mem_regionsFrom_iff.1 h
  rw [hblocks]
  rfl

/-- All of them lie around what stands inside the innermost one. -/
theorem suffix_of_mem_regionsFrom (h : r ∈ regionsFrom n blocks kinds) :
    r.blocks <:+ List.replicate kinds.length n ++ blocks := by
  obtain ⟨outer, inner, rfl, hblocks⟩ := mem_regionsFrom_iff.1 h
  refine ⟨List.replicate inner.length n, ?_⟩
  rw [hblocks, ← List.append_assoc, List.replicate_append_replicate, List.length_append,
    List.length_cons]
  congr 2
  omega

theorem innermost_mem_regionsFrom {kind : ScopeKind} (h : kinds.getLast? = some kind) :
    ⟨kind, List.replicate kinds.length n ++ blocks⟩ ∈ regionsFrom n blocks kinds := by
  obtain ⟨outer, rfl⟩ := List.getLast?_eq_some_iff.1 h
  exact mem_regionsFrom_iff.2 ⟨outer, [], rfl, by rw [List.length_append]; rfl⟩

/-- Scopes opened one inside the other have different blocks. -/
theorem nodup_regionsFrom (n : NodeId) (blocks : List NodeId) (kinds : List ScopeKind) :
    ((regionsFrom n blocks kinds).map (·.blocks)).Nodup := by
  induction kinds generalizing blocks with
  | nil => exact List.nodup_nil
  | cons kind kinds ih =>
    rw [regionsFrom, List.map_cons, List.nodup_cons]
    refine ⟨fun hmem => ?_, ih _⟩
    obtain ⟨r, hr, heq⟩ := List.mem_map.1 hmem
    obtain ⟨outer, inner, -, hblocks⟩ := mem_regionsFrom_iff.1 hr
    have hlength := congrArg List.length (heq.symm.trans hblocks)
    simp only [List.length_cons, List.length_append, List.length_replicate] at hlength
    omega

theorem map_kind_regionsFrom (n : NodeId) (blocks : List NodeId) (kinds : List ScopeKind) :
    (regionsFrom n blocks kinds).map (·.kind) = kinds := by
  induction kinds generalizing blocks with
  | nil => rfl
  | cons kind kinds ih => rw [regionsFrom, List.map_cons, ih]

/-- If they are of different kinds, the kind tells which one it is. -/
theorem eq_of_mem_regionsFrom (hkinds : kinds.Nodup) {r' : Region}
    (h : r ∈ regionsFrom n blocks kinds) (h' : r' ∈ regionsFrom n blocks kinds)
    (hkind : r.kind = r'.kind) : r = r' :=
  List.inj_on_of_nodup_map ((map_kind_regionsFrom n blocks kinds).symm ▸ hkinds) h h' hkind

theorem regionsFrom_append (kinds' : List ScopeKind) :
    regionsFrom n blocks (kinds ++ kinds') = regionsFrom n blocks kinds ++
      regionsFrom n (List.replicate kinds.length n ++ blocks) kinds' := by
  induction kinds generalizing blocks with
  | nil => rfl
  | cons kind kinds ih =>
    rw [List.cons_append, regionsFrom, regionsFrom, ih, List.length_cons, List.replicate_succ',
      List.append_assoc]
    rfl

/-- The steps of a node open their scopes one inside the other. -/
theorem Step.OpensAt.regions_trace {steps : List (Step ν)} (h : OpensAt n steps kinds)
    (blocks : List NodeId) :
    Located.regions (trace blocks steps) = regionsFrom n blocks kinds := by
  obtain ⟨hstays, rfl⟩ := h
  induction steps generalizing blocks with
  | nil => rfl
  | cons step steps ih =>
    have hstep := hstays step (List.mem_cons_self ..)
    rw [trace, Located.regions_append, ih _ fun x hx => hstays x (List.mem_cons_of_mem _ hx)]
    cases step with
    | enter kind block strict =>
      obtain rfl : block = n := hstep
      rfl
    | leave => exact hstep.elim
    | _ => rfl

end RegionsFrom

namespace Tree

variable {t : Tree} {o : LanguageOptions} {v w : Visit}

def openedAt (t : Tree) (v : Visit) : List ScopeKind :=
  (t.kind? v.node).elim [] (t.openedScopes · v.role)

/-- A node opens at most one scope of each kind. -/
theorem nodup_openedAt (t : Tree) (v : Visit) : (t.openedAt v).Nodup := by
  unfold openedAt
  cases t.kind? v.node with
  | none => exact List.nodup_nil
  | some kind => exact t.nodup_openedScopes kind v.role

/-- The scope of a function name is never the innermost one of its node. -/
theorem getLast?_openedAt_ne (t : Tree) (v : Visit) :
    (t.openedAt v).getLast? ≠ some .functionName := by
  unfold openedAt
  cases t.kind? v.node with
  | none => exact fun h => nomatch h
  | some kind => exact t.getLast?_openedScopes_ne kind v.role

def regionsAt (t : Tree) (v : Visit) : List Region :=
  Located.regions (t.marks v)

/-- No child is in the role of the program. -/
theorem role_ne_program (hw : w ∈ t.inner v) : w.role ≠ .program o := by
  intro hrole
  have hslot := slot_of_mem_inner hw
  obtain ⟨kind, hkind, -⟩ := mem_childrenOf_iff.1 (node_mem_childrenOf hw)
  rw [layout_of_kind? hkind, hrole] at hslot
  cases stems_of_slot hslot with
  | plain _ _ hprogram => exact absurd rfl (hprogram o)
  | owned howner => cases howner

/-- Only the root is in the role of the program. -/
theorem eq_rootVisit (hv : v ∈ t.visits (t.rootVisit o)) {o' : LanguageOptions}
    (hrole : v.role = .program o') : v = t.rootVisit o := by
  rcases mem_visits_cases hv with rfl | ⟨u, -, hu⟩
  · rfl
  · exact absurd hrole (role_ne_program hu)

section Opened

variable {kind : NodeKind} (hkind : t.kind? v.node = some kind)
include hkind

theorem openedAt_eq : t.openedAt v = firstScopes v.role ++ t.ownScopes kind v.role := by
  rw [openedAt, hkind]
  rfl

theorem opensAt_first_visit :
    Step.OpensAt v.node (t.layout v.role v.node).first (firstScopes v.role) := by
  rw [layout_of_kind? hkind]
  exact t.opensAt_first v.node kind v.role

theorem outside_eq :
    t.outside v = List.replicate (firstScopes v.role).length v.node ++ v.blocks :=
  (opensAt_first_visit hkind).foldl_blocksAfter v.blocks

variable (hv : v ∈ t.visits (t.rootVisit o))
include hv

theorem opensAt_own_visit :
    Step.OpensAt v.node (t.layout v.role v.node).own (t.ownScopes kind v.role) := by
  rw [layout_of_kind? hkind]
  refine t.opensAt_own v.node fun o' hrole => ?_
  rw [eq_rootVisit hv hrole]
  rfl

theorem inside_eq_outside :
    t.inside v = List.replicate (t.ownScopes kind v.role).length v.node ++ t.outside v :=
  (opensAt_own_visit hkind hv).foldl_blocksAfter (t.outside v)

theorem inside_eq : t.inside v = List.replicate (t.openedAt v).length v.node ++ v.blocks := by
  rw [inside_eq_outside hkind hv, outside_eq hkind, openedAt_eq hkind, ← List.append_assoc,
    List.replicate_append_replicate, List.length_append, Nat.add_comm]

end Opened

/-- Every visited node is a node of the tree. -/
theorem exists_kind?_of_mem_visits (hv : v ∈ t.visits (t.rootVisit o)) :
    ∃ kind, t.kind? v.node = some kind :=
  t.exists_kind?_of_lt
    (Nat.lt_of_le_of_lt (index_le_of_below (below_of_mem_visits hv)) t.root_lt)

/-- The regions of a visited node come from the blocks open around it. -/
theorem regionsAt_eq (hv : v ∈ t.visits (t.rootVisit o)) :
    t.regionsAt v = regionsFrom v.node v.blocks (t.openedAt v) := by
  obtain ⟨kind, hkind⟩ := exists_kind?_of_mem_visits hv
  rw [regionsAt, marks, Located.regions_append, (opensAt_first_visit hkind).regions_trace,
    (opensAt_own_visit hkind hv).regions_trace, outside_eq hkind, openedAt_eq hkind,
    regionsFrom_append]

/-- The innermost of the scopes that a node opens is the one around its late children. -/
theorem innermost_mem_regionsAt (hv : v ∈ t.visits (t.rootVisit o)) {kind : ScopeKind}
    (hkind : (t.openedAt v).getLast? = some kind) : ⟨kind, t.inside v⟩ ∈ t.regionsAt v := by
  obtain ⟨nodeKind, hnode⟩ := exists_kind?_of_mem_visits hv
  rw [regionsAt_eq hv, inside_eq hnode hv]
  exact innermost_mem_regionsFrom hkind

/-- No two scopes have the same blocks around them. -/
theorem nodup_regions (hplaces : t.UniquePlaces) (o : LanguageOptions) :
    (((t.visits (t.rootVisit o)).flatMap t.regionsAt).map (·.blocks)).Nodup := by
  rw [List.map_flatMap]
  refine List.nodup_flatMap.2 ⟨fun v hv => ?_, ?_⟩
  · rw [regionsAt_eq hv]
    exact nodup_regionsFrom ..
  · refine (List.pairwise_map.1 (nodup_visits hplaces (t.rootVisit o))).imp_of_mem
      fun {v w} hv hw hne => ?_
    refine List.disjoint_left.2 fun blocks hblocks hblocks' => ?_
    obtain ⟨r, hr, rfl⟩ := List.mem_map.1 hblocks
    obtain ⟨r', hr', heq⟩ := List.mem_map.1 hblocks'
    rw [regionsAt_eq hv] at hr
    rw [regionsAt_eq hw] at hr'
    have hhead := head?_blocks_of_mem hr'
    rw [heq, head?_blocks_of_mem hr] at hhead
    exact hne (Option.some.inj hhead)

end Tree

/-- Scopes and visited nodes belong together: a visited node has the scopes that it opens, and
each scope is told from the others by the blocks around it. -/
structure ScopeGraph.Charted [DecidableEq ν] (g : ScopeGraph ν) (t : Tree) (o : LanguageOptions) :
    Prop extends WellFormed g where
  nested : g.Nested [.global]
  exists_scope : ∀ {v}, v ∈ t.visits (t.rootVisit o) → ∀ {r}, r ∈ t.regionsAt v →
    ∃ s, g.region? s = some r
  exists_visit : ∀ {s r}, g.region? s = some r → ∃ v ∈ t.visits (t.rootVisit o), r ∈ t.regionsAt v
  unique : ∀ {s s' r r'}, g.region? s = some r → g.region? s' = some r' → r.blocks = r'.blocks →
    s = s'

section Analyze

variable {names names' : NameTable} {t : Tree} {o : LanguageOptions} {envs : Environments}
  {g : ScopeGraph Name}

/-- The scopes of an analysed file are those that its outline opens, in this order. -/
theorem map_region?_of_analyze (h : analyze names t o envs = (names', .ok g)) :
    ∃ outline, t.outline? o = some outline ∧
      g.scopeIds.map g.region? = (Located.regions (Step.trace [] outline)).map some := by
  obtain ⟨outline, source, houtline, -, -, hsource, rfl⟩ :=
    (ScopeGraph.walkInvariant_regions (ν := Name) t).of_analyze (fun _ => rfl) h
  have hsame := ScopeGraph.SameTree.conclude t source
    ((GlobalSettings.ofFile o envs t.comments).mapNames names'.handle)
  refine ⟨outline, houtline, ?_⟩
  rw [hsame.samePositions.map_region?, hsource, Located.regions_mapName]

/-- The scopes of an analysed file are those that its visited nodes open. -/
theorem perm_regions (h : analyze names t o envs = (names', .ok g)) :
    (g.scopeIds.map g.region?).Perm
      (((t.visits (t.rootVisit o)).flatMap t.regionsAt).map some) := by
  obtain ⟨outline, houtline, hregions⟩ := map_region?_of_analyze h
  rw [hregions]
  refine (((perm_trace_outline houtline).filterMap _).map _).trans (.of_eq ?_)
  rw [Tree.marksFrom, List.filterMap_flatMap]
  rfl

/-- The scopes of a result are those that the visited nodes open, in the order of the walk. -/
theorem charted_of_analyze (h : analyze names t o envs = (names', .ok g))
    (hplaces : t.UniquePlaces) : g.Charted t o := by
  have hperm := perm_regions h
  have hscope {s : ScopeId} {r : Region} (hr : g.region? s = some r) : s ∈ g.scopeIds := by
    rw [ScopeGraph.region?, ScopeGraph.kindOf?] at hr
    rw [ScopeGraph.mem_scopeIds_iff, ← ScopeGraph.isSome_getScope?_iff]
    cases hs : g.getScope? s with
    | none =>
      rw [hs] at hr
      cases hr
    | some scope => rfl
  refine ⟨(analyzed_of_analyze h).toWellFormed, (nested_of_analyze h).1, fun {v} hv {r} hr => ?_,
    fun {s r} hr => ?_, fun {s s' r r'} hr hr' hblocks => ?_⟩
  · have hmem : some r ∈ g.scopeIds.map g.region? :=
      hperm.mem_iff.2 (List.mem_map_of_mem (List.mem_flatMap.2 ⟨v, hv, hr⟩))
    obtain ⟨s, -, hs⟩ := List.mem_map.1 hmem
    exact ⟨s, hs⟩
  · have hmem := hperm.mem_iff.1 (List.mem_map_of_mem (hscope hr))
    obtain ⟨r', hr', heq⟩ := List.mem_map.1 hmem
    obtain rfl := Option.some.inj (heq.trans hr)
    exact List.mem_flatMap.1 hr'
  · have hnodup : (g.scopeIds.map fun s => (g.region? s).map (·.blocks)).Nodup := by
      have hblocks := hperm.map (Option.map (·.blocks))
      rw [List.map_map, List.map_map] at hblocks
      refine hblocks.nodup_iff.2 ?_
      have hsome := (Tree.nodup_regions hplaces o).map fun _ _ => Option.some.inj
      rwa [List.map_map] at hsome
    exact List.inj_on_of_nodup_map hnodup (hscope hr) (hscope hr')
      (by rw [hr, hr', Option.map_some, Option.map_some, hblocks])

end Analyze

end LexicalScope
