import LexicalScope.Proofs.Declared
import LexicalScope.Proofs.ScopeLookup
import LexicalScope.Proofs.StepOrigins

/-!
Which scopes have a `this`. The walk marks the variable scope of the scope that is innermost where
it comes to a `this` expression, and nothing later takes a mark away or adds one. The query for a
`this` finds that scope too, or one inside of it with the same variable scope, so the marked scopes
are the variable scopes of what the query finds.
-/
namespace LexicalScope

variable {ν : Type}

namespace ScopeGraph

/-- Whether a `this` belongs to the scope `s`. -/
def hasThis (g : ScopeGraph ν) (s : ScopeId) : Bool :=
  (g.getScope? s).any (·.thisFound)

/-- Both graphs have the same tree of scopes with the same marks. -/
structure SameMarks (g g' : ScopeGraph ν) : Prop extends SameTree g g' where
  hasThis_eq : ∀ s, g'.hasThis s = g.hasThis s

namespace SameMarks

variable {g g' g'' : ScopeGraph ν}

theorem refl (g : ScopeGraph ν) : g.SameMarks g :=
  ⟨.refl g, fun _ => rfl⟩

theorem trans (h : g.SameMarks g') (h' : g'.SameMarks g'') : g.SameMarks g'' :=
  ⟨h.toSameTree.trans h'.toSameTree, fun s => (h'.hasThis_eq s).trans (h.hasThis_eq s)⟩

theorem modifyScope {f : Scope ν → Scope ν} (hf : ∀ s, (f s).treeNode = s.treeNode)
    (hthis : ∀ s, (f s).thisFound = s.thisFound) (s : ScopeId) :
    g.SameMarks (g.modifyScope s f) := by
  refine ⟨.modifyScope hf s, fun x => ?_⟩
  rw [hasThis, getScope?_modifyScope, hasThis]
  split
  · cases g.getScope? x <;> simp [hthis]
  · rfl

theorem addReference (g : ScopeGraph ν) (r : Reference ν) : g.SameMarks (g.addReference r) := by
  refine ⟨.addReference g r, fun x => ?_⟩
  rw [hasThis, getScope?_addReference, hasThis]
  split
  · cases g.getScope? x <;> rfl
  · rfl

variable [DecidableEq ν]

theorem bind (g : ScopeGraph ν) (s : ScopeId) (name : ν) : g.SameMarks (g.bind s name).1 := by
  refine ⟨.bind g s name, fun x => ?_⟩
  rw [hasThis, getScope?_bind, hasThis]
  split
  · cases g.getScope? x <;> rfl
  · rfl

theorem declare (g : ScopeGraph ν) (s : ScopeId) (name : ν) (d : Option Definition) :
    g.SameMarks (g.declare s name d) := by
  refine ⟨.declare g s name d, fun x => ?_⟩
  rw [hasThis, getScope?_declare]
  exact (bind g s name).hasThis_eq x

/-- The closing of scopes and the settings leave the marks. -/
theorem stable (g₀ : ScopeGraph ν) : Stable g₀.SameMarks where
  modifyScope hf _ hentries h :=
    h.trans (.modifyScope hf (fun s => congrArg (·.2) (hentries s)) _)
  modifyReference hf h := ⟨(SameTree.stable g₀).modifyReference hf h.toSameTree, h.hasThis_eq⟩
  modifyVariable hf h := ⟨(SameTree.stable g₀).modifyVariable hf h.toSameTree, h.hasThis_eq⟩
  bindGlobal h := h.trans (.bind _ _ _)
  declareImplicit {g _ _ _ d} _ _ _ _ h := by
    refine h.trans ⟨.declareImplicit _ _ _, fun s => ?_⟩
    rw [hasThis, getScope?_declareImplicit, hasThis]
  setImplicit hsub hkept h :=
    ⟨(SameTree.stable g₀).setImplicit hsub hkept h.toSameTree, h.hasThis_eq⟩

end SameMarks

/-- Every mark stems from a `this` in the trace, and every `this` has left its mark. -/
structure MarkedBy (g : ScopeGraph ν) (trace : List (Located ν)) : Prop where
  stems : ∀ s, g.hasThis s → ∃ blocks, ⟨blocks, .this⟩ ∈ trace ∧
    g.Reaches blocks .variableScope s
  found : ∀ blocks, ⟨blocks, .this⟩ ∈ trace → ∃ s, g.Reaches blocks .variableScope s ∧ g.hasThis s

namespace MarkedBy

variable {g g' : ScopeGraph ν} {trace : List (Located ν)}

theorem congr (h : g.MarkedBy trace) (hsame : g.SameMarks g') : g'.MarkedBy trace where
  stems s hs := by
    rw [hsame.hasThis_eq] at hs
    obtain ⟨blocks, hmem, hreaches⟩ := h.stems s hs
    exact ⟨blocks, hmem, hsame.samePositions.reaches hreaches⟩
  found blocks hmem := by
    obtain ⟨s, hreaches, hs⟩ := h.found blocks hmem
    exact ⟨s, hsame.samePositions.reaches hreaches, (hsame.hasThis_eq s).trans hs⟩

/-- The global scope opens without a mark. -/
theorem root (block : NodeId) (strict : Bool) :
    (({} : Cursor ν).enter .global block strict).graph.MarkedBy
      [⟨[], .enter .global block strict⟩] where
  stems s hs := by
    have hthis : ((ScopeGraph.root block strict : ScopeGraph ν).getScope? s).any (·.thisFound) := hs
    rw [getScope?_root] at hthis
    split at hthis <;> cases hthis
  found blocks hmem := nomatch List.mem_singleton.1 hmem

/-- Other steps leave no mark. -/
theorem concat (h : g.MarkedBy trace) {l : Located ν} (hl : l.step ≠ .this) :
    g.MarkedBy (trace ++ [l]) where
  stems s hs := by
    obtain ⟨blocks, hmem, hreaches⟩ := h.stems s hs
    exact ⟨blocks, List.mem_append_left _ hmem, hreaches⟩
  found blocks hmem := by
    rcases List.mem_append.1 hmem with hmem | hmem
    · exact h.found blocks hmem
    · exact absurd (congrArg Located.step (List.mem_singleton.1 hmem)).symm hl

theorem openScope (h : g.MarkedBy trace) (hg : g.Rooted) {u : ScopeId}
    (hu : u.index < g.scopes.size) (kind : ScopeKind) (block : NodeId) (strict : Bool) :
    (g.openScope kind block strict (some u)).MarkedBy trace := by
  have hthis (s : ScopeId) :
      (g.openScope kind block strict (some u)).hasThis s = g.hasThis s := by
    rw [hasThis, getScope?_openScope, hasThis]
    split
    · next hs => rw [hs, getScope?_nextScope]; rfl
    · split
      · cases g.getScope? s <;> rfl
      · rfl
  constructor
  · intro s hs
    rw [hthis] at hs
    obtain ⟨blocks, hmem, hreaches⟩ := h.stems s hs
    exact ⟨blocks, hmem, hreaches.openScope hg hu kind block strict⟩
  · intro blocks hmem
    obtain ⟨s, hreaches, hs⟩ := h.found blocks hmem
    exact ⟨s, hreaches.openScope hg hu kind block strict, (hthis s).trans hs⟩

/-- A `this` marks the scope that it reaches. -/
theorem this (h : g.MarkedBy trace) {blocks : List NodeId} {s : ScopeId}
    (hs : s.index < g.scopes.size) (hreaches : g.Reaches blocks .variableScope s) :
    (g.modifyScope s fun s => { s with thisFound := true }).MarkedBy
      (trace ++ [⟨blocks, .this⟩]) := by
  have hsame : g.SameTree (g.modifyScope s fun s => { s with thisFound := true }) :=
    .modifyScope (by exact fun _ => rfl) s
  have hpositions := hsame.samePositions
  have hthis (x : ScopeId) : (g.modifyScope s fun s => { s with thisFound := true }).hasThis x =
      (decide (x = s) || g.hasThis x) := by
    rw [hasThis, getScope?_modifyScope, hasThis]
    by_cases hx : x = s
    · obtain ⟨scope, hscope⟩ := getScope?_of_lt hs
      simp [hx, hscope]
    · simp [hx]
  constructor
  · intro x hx
    rw [hthis, Bool.or_eq_true, decide_eq_true_eq] at hx
    rcases hx with rfl | hx
    · exact ⟨blocks, List.mem_append_right _ (List.mem_singleton_self _),
        hpositions.reaches hreaches⟩
    · obtain ⟨blocks', hmem, hreaches'⟩ := h.stems x hx
      exact ⟨blocks', List.mem_append_left _ hmem, hpositions.reaches hreaches'⟩
  · intro blocks' hmem
    rcases List.mem_append.1 hmem with hmem | hmem
    · obtain ⟨x, hreaches', hx⟩ := h.found blocks' hmem
      exact ⟨x, hpositions.reaches hreaches', by rw [hthis, hx, Bool.or_true]⟩
    · obtain ⟨rfl, -⟩ := Located.mk.inj (List.mem_singleton.1 hmem)
      exact ⟨s, hpositions.reaches hreaches, by rw [hthis, decide_eq_true rfl, Bool.true_or]⟩

end MarkedBy

variable [DecidableEq ν]

/-- Every step of a walk keeps its marks in the trace. -/
theorem walkInvariant_markedBy (t : Tree) :
    WalkInvariant t fun (trace : List (Located ν)) c => c.graph.MarkedBy trace where
  enter {trace c blocks kind} h hc _ block strict := by
    rw [Cursor.enter, h.head?_opened]
    exact (hc.openScope h.walked.toRooted h.lt_size kind block strict).concat (by simp)
  close _ hc _ := hc.congr ((SameMarks.stable _).closeScope t _ (.refl _))
  declare {trace c blocks} _ hc place name d := (hc.congr (.declare _ _ name d)).concat (by simp)
  refer {trace c blocks} _ hc o := (hc.congr (.addReference _ _)).concat (by simp)
  this {trace c blocks} h hc :=
    hc.this (h.size_of_mem_opened (h.place_mem_opened .variableScope))
      (Walking.reaches h .variableScope)
  misplacedImport _ hc _ := hc.concat (by simp)

end ScopeGraph

namespace Tree

variable {t : Tree} {o : LanguageOptions} {v : Visit}

/-- A `this` takes no step but the one that marks its scope. -/
theorem own_of_thisExpression (hkind : t.kind? v.node = some .thisExpression) :
    ∀ step ∈ (t.layout v.role v.node).own, step = .this := by
  rw [layout_of_kind? hkind]
  cases v.role with
  | visited | fieldValue | functionBody | loopHead => exact List.forall_mem_singleton.2 rfl
  | updated writeExpr =>
    have hname : t.identifierName? v.node = none := by rw [identifierName?, hkind]; rfl
    simp [layoutOfKind, updateAt, hname]
  | program | skipped | target | declarator => exact List.forall_mem_nil _

/-- Only a `this` expression is a `this` of the walk. -/
theorem this_of_mem_marks (hv : v ∈ t.visits (t.rootVisit o)) {blocks : List NodeId}
    (h : ⟨blocks, .this⟩ ∈ t.marks v) :
    t.kind? v.node = some .thisExpression ∧ blocks = t.outside v := by
  have hstep : .this ∈ t.stepsAt v :=
    (exists_mem_marks_iff fun _ => by simp).1 ⟨_, h, rfl⟩
  have hkind := (belongsTo_of_mem_visits hv).this hstep
  refine ⟨hkind, ?_⟩
  have hstill : ∀ step ∈ (t.layout v.role v.node).own, step.IsStill := by
    intro step hstep
    rw [own_of_thisExpression hkind step hstep]
    trivial
  rcases List.mem_append.1 h with h | h
  · rw [layout_of_kind? hkind, first_layoutOfKind] at h
    split at h
    · cases List.mem_singleton.1 h
    · cases h
  · rw [Step.trace_of_isStill hstill] at h
    obtain ⟨step, -, heq⟩ := List.mem_map.1 h
    exact (Located.mk.inj heq).1.symm

/-- Where the tree is of the right shape, the walk takes every `this` expression for a `this`. -/
theorem this_mem_marks (hcast : t.IsCast v.node v.role)
    (hkind : t.kind? v.node = some .thisExpression) : ⟨t.outside v, .this⟩ ∈ t.marks v := by
  obtain ⟨kind, hkind', hsuits⟩ := hcast
  obtain rfl := Option.some.inj (hkind.symm.trans hkind')
  have hown : (t.layout v.role v.node).own = [.this] := by
    rw [layout_of_kind? hkind]
    cases hrole : v.role with
    | visited | fieldValue | functionBody => rfl
    | _ =>
      rw [hrole] at hsuits
      simp [Suits, NodeKind.isProgram, NodeKind.isName, NodeKind.isImportSpecifier,
        NodeKind.isExportSpecifier, NodeKind.isIdentifier, NodeKind.isTarget,
        NodeKind.isDeclarator] at hsuits
  rw [marks, hown]
  exact List.mem_append_right _ (List.mem_singleton_self _)

end Tree

/-- The marked scopes are the variable scopes of those that the query finds for the `this`
expressions of the tree; they hold `var` declarations. -/
structure ScopeGraph.MarksThis (g : ScopeGraph ν) (t : Tree) : Prop where
  id_eq : ∀ s scope, g.getScope? s = some scope → scope.id = s
  holdsVars : ∀ s, g.hasThis s → g.holdsVars s
  exists_scope : ∀ n, t.Below n t.root → t.kind? n = some .thisExpression →
    ∃ scope, g.getScope? (g.scopeAt t n) = some scope
  hasThis_iff : ∀ s, g.hasThis s ↔ ∃ n, t.Below n t.root ∧ t.kind? n = some .thisExpression ∧
    g.variableScope (g.scopeAt t n) = s

/-- A renaming leaves the marks. -/
theorem ScopeGraph.MarksThis.mapNames {μ : Type} [DecidableEq ν] [DecidableEq μ]
    {g : ScopeGraph ν} {t : Tree} (h : g.MarksThis t) (f : ν → μ) : (g.mapNames f).MarksThis t := by
  have hthis (s : ScopeId) : (g.mapNames f).hasThis s = g.hasThis s := by
    rw [hasThis, getScope?_mapNames, hasThis, Option.any_map]
    rfl
  refine ⟨fun s scope hscope => ?_, fun s hs => ?_, fun n hn hkind => ?_, fun s => ?_⟩
  · rw [getScope?_mapNames] at hscope
    obtain ⟨scope', hscope', rfl⟩ := Option.map_eq_some_iff.1 hscope
    exact h.id_eq s scope' hscope'
  · rw [hthis] at hs
    rw [ScopeGraph.holdsVars, getScope?_mapNames, Option.any_map]
    exact h.holdsVars s hs
  · obtain ⟨scope, hscope⟩ := h.exists_scope n hn hkind
    exact ⟨scope.mapNames f, by
      rw [g.scopeAt_mapNames f, getScope?_mapNames, hscope, Option.map_some]⟩
  · simp only [hthis, g.scopeAt_mapNames f, variableScope_mapNames]
    exact h.hasThis_iff s

section Analyze

variable {names names' : NameTable} {t : Tree} {o : LanguageOptions} {envs : Environments}
  {g : ScopeGraph Name}

omit g in
/-- The walk takes a `this` where a visited node does. -/
theorem this_mem_trace_iff {outline : Outline} (houtline : t.outline? o = some outline)
    {blocks : List NodeId} :
    (⟨blocks, .this⟩ : Located Name) ∈ (Step.trace [] outline).map (.mapName names.handle) ↔
      ∃ v ∈ t.visits (t.rootVisit o), ⟨blocks, .this⟩ ∈ t.marks v := by
  rw [← List.mem_flatMap]
  refine Iff.trans ?_ (perm_trace_outline houtline).mem_iff
  constructor
  · intro hmem
    obtain ⟨⟨blocks', step⟩, hstep, heq⟩ := List.mem_map.1 hmem
    cases step with
    | this =>
      obtain ⟨rfl, -⟩ := Located.mk.inj heq
      exact hstep
    | _ => simp [Located.mapName, Step.mapName] at heq
  · intro hmem
    exact List.mem_map.2 ⟨_, hmem, rfl⟩

/-- The query for a `this` leads to a scope whose variable scope is marked, and no other scope is.
-/
theorem marksThis_of_analyze (h : analyze names t o envs = (names', .ok g)) (hlinked : t.Linked)
    (hplaces : t.UniquePlaces) (hshape : t.ESTreeShaped) : g.MarksThis t := by
  have hg := charted_of_analyze h hplaces
  have hroot := isProgram_of_analyze h
  obtain ⟨outline, source, houtline, -, -, hsource, hfinal⟩ :=
    (ScopeGraph.walkInvariant_markedBy (ν := Name) t).of_analyze
      (fun strict => .root t.root strict) h
  have hmarked := hsource.congr ((ScopeGraph.SameMarks.stable source).conclude t
    ((GlobalSettings.ofFile o envs t.comments).mapNames names'.handle) (.refl source))
  rw [← hfinal] at hmarked
  have hvisit (n : NodeId) (hn : t.Below n t.root) (hkind : t.kind? n = some .thisExpression) :
      ∃ v ∈ t.visits (t.rootVisit o), v.node = n ∧ ∃ x, x.index < g.scopes.size ∧
        g.blocksOf x = t.outside v ∧ g.hasThis (g.variableScope x) := by
    obtain ⟨v, hv, rfl⟩ := Tree.exists_mem_visits (v := t.rootVisit o) hn
    have hmark := Tree.this_mem_marks (Tree.isCast_of_mem_visits hshape hroot hv) hkind
    obtain ⟨_, ⟨x, hx, hblocks, rfl⟩, hs⟩ :=
      hmarked.found _ ((this_mem_trace_iff houtline).2 ⟨v, hv, hmark⟩)
    exact ⟨v, hv, rfl, x, hx, hblocks, hs⟩
  refine ⟨fun s scope hscope => hg.nested.id_eq hscope, fun s hs => ?_, fun n hn hkind => ?_,
    fun s => ⟨fun hs => ?_, ?_⟩⟩
  · obtain ⟨blocks, -, x, hx, -, rfl⟩ := hmarked.stems s hs
    exact List.find?_some (hg.nested.variableScope_eq hx)
  · obtain ⟨v, hv, rfl, x, hx, hblocks, -⟩ := hvisit n hn hkind
    exact hg.exists_scopeAt hplaces hv hkind rfl hx hblocks hlinked hroot
  · obtain ⟨blocks, hmem, x, hx, hblocks, rfl⟩ := hmarked.stems s hs
    obtain ⟨v, hv, hmark⟩ := (this_mem_trace_iff houtline).1 hmem
    obtain ⟨hkind, rfl⟩ := Tree.this_of_mem_marks hv hmark
    exact ⟨v.node, Tree.below_of_mem_visits hv, hkind,
      hg.variableScope_scopeAt hplaces hv hkind rfl hx hblocks hlinked hroot⟩
  · rintro ⟨n, hn, hkind, rfl⟩
    obtain ⟨v, hv, rfl, x, hx, hblocks, hs⟩ := hvisit n hn hkind
    rwa [hg.variableScope_scopeAt hplaces hv hkind rfl hx hblocks hlinked hroot]

end Analyze

/-- In a tree of the right shape with one place for each node, a session finds a scope for every
`this` expression, and the variable scope of that one has a `this`. No other scope has one, so only
scopes that hold `var` declarations do. -/
theorem thisFound_run {s : Session} (hs : s.active = none) {actions : List Session.Action}
    (htables : ∀ l, .load l ∈ actions → l.file.table.index < s.names.tables.size)
    {l : Session.Load} (hl : Session.lastLoad actions = some l) {g : ScopeGraph String}
    (hreport : l.report = .ok g) (hlinked : l.file.tree.Linked)
    (hplaces : l.file.tree.UniquePlaces) (hshape : l.file.tree.ESTreeShaped) :
    (∀ n, l.file.tree.Below n l.file.tree.root → l.file.tree.kind? n = some .thisExpression →
      ∃ found, ((s.run actions).ask (.scopeAt n)).1 = .ok (some found)) ∧
    ∀ id scope, g.getScope? id = some scope →
      (scope.thisFound ↔ ∃ n found, l.file.tree.Below n l.file.tree.root ∧
        l.file.tree.kind? n = some .thisExpression ∧
        ((s.run actions).ask (.scopeAt n)).1 = .ok (some found) ∧
        found.variableScope = scope.id) ∧
      (scope.thisFound → scope.kind.holdsVars) := by
  have hg : g.MarksThis l.file.tree := by
    obtain ⟨names, names', g', hanalyze, rfl⟩ := Session.Load.exists_analysis_of_report hreport
    exact (marksThis_of_analyze hanalyze hlinked hplaces hshape).mapNames _
  have hanswer (n : NodeId) (hn : l.file.tree.Below n l.file.tree.root)
      (hkind : l.file.tree.kind? n = some .thisExpression) :
      ∃ found, ((s.run actions).ask (.scopeAt n)).1 = .ok (some found) ∧
        found.variableScope = g.variableScope (g.scopeAt l.file.tree n) := by
    obtain ⟨found, hfound⟩ := hg.exists_scope n hn hkind
    have hcontains : l.file.tree.contains n :=
      decide_eq_true (Tree.kind?_eq_some_iff.1 hkind).1
    refine ⟨found, ?_, by rw [ScopeGraph.variableScope, hfound, Option.elim_some]⟩
    rw [(Session.reflects_run hs htables).ask_fst hl (.scopeAt n), Session.Load.answer, hreport]
    show Session.Request.answerAt l.file.tree n _ = _
    rw [Session.Request.answerAt, if_pos hcontains, hfound]
  refine ⟨fun n hn hkind => ?_, fun id scope hscope => ?_⟩
  · obtain ⟨found, hfound, -⟩ := hanswer n hn hkind
    exact ⟨found, hfound⟩
  have hthis : g.hasThis id = scope.thisFound := by rw [ScopeGraph.hasThis, hscope]; rfl
  have hvars : g.holdsVars id = scope.kind.holdsVars := by
    rw [ScopeGraph.holdsVars, hscope]
    rfl
  rw [hg.id_eq id scope hscope, ← hthis, ← hvars]
  refine ⟨(hg.hasThis_iff id).trans ⟨?_, ?_⟩, hg.holdsVars id⟩
  · rintro ⟨n, hn, hkind, rfl⟩
    obtain ⟨found, hfound, hvariable⟩ := hanswer n hn hkind
    exact ⟨n, found, hn, hkind, hfound, hvariable⟩
  · rintro ⟨n, found, hn, hkind, hfound, rfl⟩
    obtain ⟨found', hfound', hvariable⟩ := hanswer n hn hkind
    obtain rfl : found = found' :=
      Option.some.inj (Except.ok.inj (hfound.symm.trans hfound'))
    exact ⟨n, hn, hkind, hvariable.symm⟩

/-- `function f() { with (this) {} }` -/
def thisInHead : Build NodeId := do
  let object ← .alloc .thisExpression
  let statement ← .alloc (.withStatement object (← .block []))
  let function ← .functionDeclaration (some "f") [] [statement]
  .alloc (.program [function] .script)

/-- The scope of the function has a `this`, and a session finds this scope through the query for a
`this` expression. -/
theorem thisFound_thisInHead : ∃ t, ∃ l : Session.Load, ∃ g n found scope,
    Build.tree thisInHead = .ok t ∧ l = ⟨⟨t, ⟨0⟩⟩, {}, {}⟩ ∧ l.report = .ok g ∧
    g.getScope? ⟨1⟩ = some scope ∧ scope.kind = .function ∧ scope.thisFound ∧
    t.kind? n = some .thisExpression ∧
    ((({ names := ⟨#[{}]⟩ } : Session).run [.load l]).ask (.scopeAt n)).1 = .ok (some found) ∧
    found.variableScope = scope.id := by
  obtain ⟨t, g, ht, hreport, hplaces, hshape, hmarked⟩ := Session.Load.exists_report
    thisInHead {} {} (fun t g => t.UniquePlaces ∧ (t.nodes.all fun node => t.shaped node.kind) ∧
      (g.getScope? ⟨1⟩).map (fun s => (s.kind, s.thisFound)) = some (.function, true))
    (by decide +kernel)
  let l : Session.Load := ⟨⟨t, ⟨0⟩⟩, {}, {}⟩
  obtain ⟨scope, hscope, heq⟩ := Option.map_eq_some_iff.1 hmarked
  obtain ⟨hkind, hthis⟩ := Prod.mk.inj heq
  have htables := Session.table_lt_of_mem_load (l := l) Nat.zero_lt_one
  have hlast : Session.lastLoad [.load l] = some l := rfl
  have hrun := thisFound_run (s := { names := ⟨#[{}]⟩ }) rfl htables hlast hreport
    (Tree.linked_of_tree ht) hplaces (Tree.estreeShaped_of_all hshape)
  obtain ⟨n, found, -, hn, hfound, hvariable⟩ := (hrun.2 ⟨1⟩ scope hscope).1.1 hthis
  exact ⟨t, l, g, n, found, scope, ht, rfl, hreport, hscope, hkind, hthis, hn, hfound, hvariable⟩

end LexicalScope
