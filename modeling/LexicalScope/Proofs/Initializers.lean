import LexicalScope.Proofs.Hoisting
import LexicalScope.Proofs.ReferenceLists
import LexicalScope.Proofs.Standing
import LexicalScope.Proofs.VariableTables

/-!
Initializing writes. What the walk declares stays in the table of the scope that receives it, and
an initializing write stands where its identifier is declared. So on its way up the write comes to
a scope that has a variable for it: to its own scope, or to the variable scope at the latest if it
initializes a `var`.
-/
namespace LexicalScope

variable {ν : Type}

/-- What a pattern binds: a parameter, the parameter of a `catch` clause or a declared variable. -/
def Definition.BindsTarget (d : Definition) : Prop :=
  d.kind = .parameter ∨ d.kind = .catchClause ∨ d.kind = .variableName

def Definition.place (d : Definition) : Place :=
  if d.variableKind = some .varDecl then .variableScope else .current

namespace ScopeGraph

variable [DecidableEq ν]

def Defines (g : ScopeGraph ν) (s : ScopeId) (name : ν) (d : Definition) : Prop :=
  ∃ v variable', g.inTable? s name = some v ∧ g.getVariable? v = some variable' ∧
    d ∈ variable'.definitions

namespace Defines

variable {g g' : ScopeGraph ν} {s : ScopeId} {name : ν} {d : Definition}

/-- Entries stay where they are, and variables keep their definitions. -/
theorem mono (h : g.Defines s name d)
    (htable : ∀ v, g.inTable? s name = some v → g'.inTable? s name = some v)
    (hvariable : ∀ v x, g.getVariable? v = some x →
      ∃ x', g'.getVariable? v = some x' ∧ ∀ d ∈ x.definitions, d ∈ x'.definitions) :
    g'.Defines s name d := by
  obtain ⟨v, x, hv, hx, hd⟩ := h
  obtain ⟨x', hx', hsub⟩ := hvariable v x hx
  exact ⟨v, x', htable v hv, hx', hsub d hd⟩

/-- Definitions are added and never taken away. -/
theorem define (h : g.Defines s name d) (w : VariableId) (e : Definition) :
    (g.define w e).Defines s name d := by
  refine h.mono (fun _ hv => hv) fun v x hx => ?_
  rw [getVariable?_define]
  split
  · exact ⟨x.define e, by rw [hx, Option.map_some], fun d hd => Array.mem_push_of_mem _ hd⟩
  · exact ⟨x, hx, fun _ hd => hd⟩

theorem bind (h : g.Defines s name d) (s' : ScopeId) (name' : ν) :
    (g.bind s' name').1.Defines s name d :=
  h.mono (fun _ hv => inTable?_bind_of_some hv s' name')
    fun _ x hx => ⟨x, getVariable?_bind_of_some hx s' name', fun _ hd => hd⟩

/-- A declaration leaves the definitions that are there. -/
theorem declare (h : g.Defines s name d) (s' : ScopeId) (name' : ν) (e : Option Definition) :
    (g.declare s' name' e).Defines s name d := by
  cases e with
  | none => exact h.bind s' name'
  | some e => exact (h.bind s' name').define _ e

/-- A declaration enters its definition. -/
theorem of_declare (hg : g.WellFormed) (hs : s.index < g.scopes.size) (name : ν)
    (d : Definition) : (g.declare s name (some d)).Defines s name d := by
  obtain ⟨x, hx, -⟩ := hg.owns_bind s name
  refine ⟨(g.bind s name).2, x.define d, ?_, ?_, Array.mem_push_self⟩
  · rw [(revises_declare g s name (some d)).inTable?_eq hs, if_pos ⟨rfl, rfl⟩]
  · rw [getVariable?_declare, if_pos rfl, hx, Option.map_some]
    rfl

theorem declareImplicit (h : g.Defines s name d) (name' : ν) (e : Definition) :
    (g.declareImplicit name' e).Defines s name d := by
  have hbound : (g.bindImplicit name').1.Defines s name d := by
    refine h.mono (fun v hv => ?_) fun v x hx => ⟨x, ?_, fun _ hd => hd⟩
    · rw [← inTable?_declareImplicit name' e] at hv
      exact hv
    · rw [getVariable?_bindImplicit, if_neg, hx]
      rintro ⟨rfl, -⟩
      rw [getVariable?_nextVariable] at hx
      cases hx
  exact hbound.define _ e

theorem modifyScope (h : g.Defines s name d) {f : Scope ν → Scope ν}
    (hf : ∀ x, (f x).table = x.table) (x : ScopeId) : (g.modifyScope x f).Defines s name d := by
  refine h.mono (fun v hv => ?_) fun _ x hx => ⟨x, hx, fun _ hd => hd⟩
  rw [inTable?_modifyScope g hf, hv]

/-- The closing of scopes and the settings leave the definitions that are there. -/
theorem stable (s : ScopeId) (name : ν) (d : Definition) :
    Stable fun g : ScopeGraph ν => g.Defines s name d where
  modifyScope _ htable _ h := h.modifyScope htable _
  modifyReference _ h := h
  modifyVariable {g w f} hf h := by
    refine h.mono (fun _ hv => hv) fun v x hx => ?_
    rw [getVariable?_modifyVariable]
    split
    · have hdefinitions : (f x).definitions = x.definitions := congrArg (·.2.2.2.2) (hf x)
      exact ⟨f x, by rw [hx, Option.map_some], fun d hd => hdefinitions ▸ hd⟩
    · exact ⟨x, hx, fun _ hd => hd⟩
  bindGlobal h := h.bind .global _
  declareImplicit _ _ _ _ h := h.declareImplicit _ _
  setImplicit _ _ h := h

end Defines

/-- Every declaration of the trace stands in the table of the scope that it reaches. -/
def Upholds (g : ScopeGraph ν) (trace : List (Located ν)) : Prop :=
  ∀ blocks place name d, ⟨blocks, .declare place name (some d)⟩ ∈ trace →
    ∃ s, g.Reaches blocks place s ∧ g.Defines s name d

namespace Upholds

variable {g g' : ScopeGraph ν} {trace : List (Located ν)}

theorem mono (h : g.Upholds trace) (hsame : g.SamePositions g')
    (hdefines : ∀ s name d, g.Defines s name d → g'.Defines s name d) : g'.Upholds trace := by
  intro blocks place name d hmem
  obtain ⟨s, hreaches, hd⟩ := h blocks place name d hmem
  exact ⟨s, hsame.reaches hreaches, hdefines s name d hd⟩

/-- Steps that declare no definition add nothing. -/
theorem concat (h : g.Upholds trace) {blocks : List NodeId} {step : Step ν}
    (hstep : ∀ place name d, step ≠ .declare place name (some d)) :
    g.Upholds (trace ++ [⟨blocks, step⟩]) := by
  intro blocks' place name d hmem
  rcases List.mem_append.1 hmem with hmem | hmem
  · exact h blocks' place name d hmem
  · exact absurd (congrArg Located.step (List.mem_singleton.1 hmem)).symm (hstep place name d)

end Upholds

/-- The tables of a walk hold what its steps declare. -/
theorem walkInvariant_upholds (t : Tree) :
    WalkInvariant t fun (trace : List (Located ν)) c => c.graph.Upholds trace where
  enter {trace c blocks kind} h hc _ block strict := by
    rw [Cursor.enter, h.head?_opened]
    refine Upholds.concat (fun blocks' place name d hmem => ?_) (by rintro _ _ _ ⟨⟩)
    obtain ⟨s, hreaches, hd⟩ := hc blocks' place name d hmem
    refine ⟨s, hreaches.openScope h.walked.toRooted h.lt_size kind block strict,
      hd.mono (fun v hv => ?_) fun v x hx => ⟨x, ?_, fun _ hd => hd⟩⟩
    · rwa [inTable?_openScope]
    · rwa [getVariable?_openScope]
  close {trace g s outer b blocks} _ hc _ :=
    hc.mono (SameTree.closeScope t g s).samePositions
      fun x name d hd => (Defines.stable x name d).closeScope t s hd
  declare {trace c blocks} h hc place name d := by
    have hsame := (SameTree.declare c.graph (c.place place) name d).samePositions
    intro blocks' place' name' d' hmem
    rcases List.mem_append.1 hmem with hmem | hmem
    · exact hc.mono hsame (fun s m e he => he.declare _ name d) blocks' place' name' d' hmem
    · simp only [List.mem_singleton, Located.mk.injEq, Step.declare.injEq] at hmem
      obtain ⟨rfl, rfl, rfl, rfl⟩ := hmem
      exact ⟨c.place place', hsame.reaches (Walking.reaches h place'),
        .of_declare h.walked.toWellFormed (h.size_of_mem_opened (h.place_mem_opened place')) _ _⟩
  refer {trace c blocks} _ hc o := by
    refine (hc.mono (SameTree.addReference c.graph (c.reference o)).samePositions
      fun s name d hd => hd.mono (fun v hv => ?_) fun v x hx => ⟨x, hx, fun _ hd => hd⟩).concat
      (by rintro _ _ _ ⟨⟩)
    rwa [inTable?_addReference]
  this {trace c blocks} _ hc := by
    have hsame : c.graph.SameTree (c.graph.modifyScope (c.graph.variableScope c.current)
        fun s => { s with thisFound := true }) := .modifyScope (by exact fun _ => rfl) _
    exact (hc.mono hsame.samePositions fun _ _ _ hd =>
      hd.modifyScope (by exact fun _ => rfl) _).concat (by rintro _ _ _ ⟨⟩)
  misplacedImport _ hc _ := hc.concat (by rintro _ _ _ ⟨⟩)

end ScopeGraph

namespace PatternUse

variable {use : PatternUse} {x : PatternTarget}

/-- Writes of a declaring pattern initialize what it declares. -/
theorem exists_declare_of_init {occurrence : Occurrence String}
    (h : .refer occurrence ∈ use.steps x) (hinit : occurrence.init = true) :
    ∃ place d, .declare place x.name (some d) ∈ use.steps x := by
  cases use with
  | parameter | catchParameter => exact ⟨_, _, List.mem_cons_self ..⟩
  | declarator =>
    exact ⟨_, _, List.mem_append_left _ (List.mem_append_left _ (List.mem_cons_self ..))⟩
  | assignment node right whole =>
    rcases List.mem_append.1 h with h | h
    · obtain ⟨e, -, heq⟩ := List.mem_map.1 h
      obtain rfl := Step.refer.inj heq
      cases hinit
    · obtain rfl := Step.refer.inj (List.mem_singleton.1 h)
      cases hinit

variable {place : Place} {d : Definition} (h : use.declaration? x = some (place, d))
include h

/-- A definition is named by its target. -/
theorem name_of_declaration? : d.name = x.identifier := by
  cases use with
  | parameter | catchParameter | declarator =>
    obtain ⟨-, rfl⟩ := Prod.mk.inj (Option.some.inj h)
    rfl
  | assignment => cases h

theorem bindsTarget_of_declaration? : d.BindsTarget := by
  cases use with
  | parameter =>
    obtain ⟨-, rfl⟩ := Prod.mk.inj (Option.some.inj h)
    exact .inl rfl
  | catchParameter =>
    obtain ⟨-, rfl⟩ := Prod.mk.inj (Option.some.inj h)
    exact .inr (.inl rfl)
  | declarator =>
    obtain ⟨-, rfl⟩ := Prod.mk.inj (Option.some.inj h)
    exact .inr (.inr rfl)
  | assignment => cases h

/-- Only the kind of a definition decides on its place. -/
theorem place_of_declaration? : place = d.place := by
  cases use with
  | parameter | catchParameter =>
    obtain ⟨rfl, rfl⟩ := Prod.mk.inj (Option.some.inj h)
    rfl
  | declarator declaration node kind =>
    obtain ⟨rfl, rfl⟩ := Prod.mk.inj (Option.some.inj h)
    simp [Definition.place, Definition.ofDeclarator]
  | assignment => cases h

end PatternUse

namespace Tree

variable {t : Tree} {o : LanguageOptions} {v : Visit}

/-- The identifier of an initializing write is a target that the pattern declares. -/
theorem exists_target_of_init {name : String} (hkind : t.kind? v.node = some (.identifier name))
    {occurrence : Occurrence String} (h : .refer occurrence ∈ (t.layout v.role v.node).own)
    (hinit : occurrence.init = true) : ∃ use : PatternUse, ∃ x : PatternTarget,
      (t.layout v.role v.node).own = use.steps x ∧ x.identifier = v.node ∧
      ∃ place d, .declare place name (some d) ∈ use.steps x := by
  have hvisited (c : Context)
      (h : .refer occurrence ∈ (t.visitedLayout c v.node (.identifier name)).own) : False := by
    obtain rfl := Step.refer.inj (List.mem_singleton.1 h)
    cases hinit
  rw [layout_of_kind? hkind] at h ⊢
  cases hrole : v.role with
  | program | skipped | declarator =>
    rw [hrole] at h
    cases h
  | visited c | fieldValue c | functionBody c | loopHead c =>
    rw [hrole] at h
    exact (hvisited c h).elim
  | updated writeExpr =>
    rw [hrole] at h
    simp only [layoutOfKind, updateAt, identifierName?, hkind] at h
    obtain rfl := Step.refer.inj (List.mem_singleton.1 h)
    cases hinit
  | target c use root s =>
    rw [hrole] at h
    exact ⟨use, _, rfl, rfl, PatternUse.exists_declare_of_init h hinit⟩

/-- What a pattern binds has its name from the target. -/
theorem target_of_mem_marks (hv : v ∈ t.visits (t.rootVisit o)) {blocks : List NodeId}
    {place : Place} {name : String} {d : Definition}
    (h : ⟨blocks, .declare place name (some d)⟩ ∈ t.marks v) (hd : d.BindsTarget) :
    d.name = v.node ∧ .declare place name (some d) ∈ (t.layout v.role v.node).own := by
  cases declares_of_mem_marks hv h with
  | function | functionExpression | classAround | classInside =>
    rcases hd with hd | hd | hd <;> cases hd
  | «import» _ _ hkind =>
    rcases hd with hd | hd | hd <;> rw [hkind] at hd <;> cases hd
  | target hrole _ =>
    obtain ⟨kind, hkind⟩ := exists_kind?_of_mem_visits hv
    rcases List.mem_append.1 h with h | h
    · rw [layout_of_kind? hkind, first_layoutOfKind, hrole] at h
      cases h
    · rw [layout_of_kind? hkind, hrole] at h ⊢
      cases kind with
      | identifier name =>
        have hstep := Step.mem_of_mem_trace h
        exact ⟨PatternUse.name_of_declaration? (PatternUse.declaration?_of_mem_steps hstep), hstep⟩
      | _ => cases h

end Tree

namespace ScopeGraph

variable [DecidableEq ν] {g : ScopeGraph ν} {t : Tree} {id : ReferenceId} {r : Reference ν}
  {s : ScopeId} {w : VariableId}

/-- A scope does not hide a variable from the identifier that declares it. -/
theorem admits_of_definition {variable' : Variable ν} (hw : g.inTable? s r.name = some w)
    (hvar : g.getVariable? w = some variable')
    (hkind : ∀ scope, g.getScope? s = some scope → scope.kind ≠ .withBody) {d : Definition}
    (hd : d ∈ variable'.definitions) (hname : d.name = r.identifier) : g.Admits t r s w := by
  obtain ⟨scope, hs, hentry⟩ := Option.bind_eq_some_iff.1 hw
  refine ⟨scope, variable', hs, hvar, hkind scope hs, hentry, ?_⟩
  rintro ⟨-, kind, body, -, -, houtside, hall⟩
  have hinside := hall d hd
  rw [hname, houtside] at hinside
  cases hinside

/-- A reference goes no further up than to a scope that admits it. -/
theorem Analyzed.exists_resolved_within {arguments : ν} (hg : g.Analyzed t arguments)
    (hr : g.getReference? id = some r) (hs : s ∈ g.chain r.origin) (hw : g.Admits t r s w) :
    ∃ v variable', r.resolved = some v ∧ g.getVariable? v = some variable' ∧
      variable'.scope ∈ g.chain r.origin ∧ s ∈ g.chain variable'.scope := by
  obtain ⟨below, above, hchain⟩ := List.append_of_mem hs
  have hoffer := (offer?_eq_some_iff hg.toWellFormed hr).2 hw
  have hsome : (below ++ [s]).findSome? (g.offer? t id) ≠ none := by
    intro hnone
    rw [List.findSome?_eq_none_iff.1 hnone s (by simp)] at hoffer
    cases hoffer
  rw [ne_eq, hg.findSome?_eq_none_iff hr hchain] at hsome
  push Not at hsome
  obtain ⟨v, variable', hv, hvar, hscope⟩ := hsome
  have hmem : variable'.scope ∈ g.chain r.origin := by
    rw [hchain, List.append_cons]
    exact List.mem_append_left _ hscope
  exact ⟨v, variable', hv, hvar, hmem,
    (hg.mem_chain_iff_of_split (hg.origin_lt hr) hchain hmem).2 hscope⟩

end ScopeGraph

section Analyze

variable {names names' : NameTable} {t : Tree} {o : LanguageOptions} {envs : Environments}
  {g : ScopeGraph Name}

/-- What a visited node declares stands in the table of the scope that it reaches. -/
theorem exists_entry_of_mark (h : analyze names t o envs = (names', .ok g)) {w : Visit}
    (hw : w ∈ t.visits (t.rootVisit o)) {blocks : List NodeId} {place : Place} {name : String}
    {d : Definition} (hmark : ⟨blocks, .declare place name (some d)⟩ ∈ t.marks w) :
    ∃ s, g.Reaches blocks place s ∧ g.Defines s (names'.handle name) d := by
  obtain ⟨outline, source, houtline, -, -, hsource, rfl⟩ :=
    (ScopeGraph.walkInvariant_upholds (ν := Name) t).of_analyze
      (fun _ _ _ _ _ hmem => by simp at hmem) h
  have hfinal := hsource.mono (ScopeGraph.SameTree.conclude t source
    ((GlobalSettings.ofFile o envs t.comments).mapNames names'.handle)).samePositions
    fun s name d hd => (ScopeGraph.Defines.stable s name d).conclude t _ hd
  have hlocated := (perm_trace_outline houtline).mem_iff.2 (List.mem_flatMap.2 ⟨w, hw, hmark⟩)
  exact hfinal blocks place _ d (List.mem_map_of_mem hlocated)

/-- An initializing write stands at the identifier of exactly one binding, which is in the table of
the scope that receives it. -/
theorem exists_definition_of_init (h : analyze names t o envs = (names', .ok g))
    (hplaces : t.UniquePlaces) {id : ReferenceId} {r : Reference Name}
    (hr : g.getReference? id = some r) (hinit : r.init = true) :
    ∃ d : Definition, d.BindsTarget ∧ d.name = r.identifier ∧
      g.Defines (g.target r.origin d.place) r.name d ∧
      ∀ w x d', g.getVariable? w = some x → d' ∈ x.definitions → d'.BindsTarget →
        d'.name = r.identifier → d' = d := by
  obtain ⟨u, hu, occurrence, hstems⟩ := exists_visit_of_reference h hr
  obtain ⟨use, x, hown, hx, place, d, hdeclare⟩ :=
    Tree.exists_target_of_init hstems.kind hstems.step (hstems.init.trans hinit)
  have hdeclaration := PatternUse.declaration?_of_mem_steps hdeclare
  have hdname : d.name = r.identifier :=
    (PatternUse.name_of_declaration? hdeclaration).trans (hx.trans hstems.identifier.symm)
  refine ⟨d, PatternUse.bindsTarget_of_declaration? hdeclaration, hdname, ?_,
    fun w' x' d' hx' hd' hbinds hname' => ?_⟩
  · have hmark : ⟨t.outside u, .declare place occurrence.name (some d)⟩ ∈ t.marks u := by
      refine List.mem_append_right _ ?_
      rw [Step.trace_of_isStill (Tree.isStill_own_of_identifier hstems.kind), hown]
      exact List.mem_map.2 ⟨_, hdeclare, rfl⟩
    obtain ⟨s, ⟨y, hy, hblocks, hs⟩, hdefines⟩ := exists_entry_of_mark h hu hmark
    obtain rfl : y = r.origin := (charted_of_analyze h hplaces).eq_of_blocksOf hy
      ((analyzed_of_analyze h).origin_lt hr) (hblocks.trans hstems.blocks.symm)
    rw [← PatternUse.place_of_declaration? hdeclaration, hs, ← hstems.name]
    exact hdefines
  · rcases exists_declaration h hx' hd' with ⟨u', hu', blocks, place', name, hmark, -⟩ | ⟨hkind, -⟩
    · obtain ⟨hnode, hdeclare'⟩ := Tree.target_of_mem_marks hu' hmark hbinds
      obtain rfl : u' = u := Tree.eq_of_mem_visits hplaces hu' hu
        (hnode.symm.trans (hname'.trans hstems.identifier))
      rw [hown] at hdeclare'
      have heq := (PatternUse.declaration?_of_mem_steps hdeclare').symm.trans hdeclaration
      exact (Prod.mk.inj (Option.some.inj heq)).2
    · rcases hbinds with hbinds | hbinds | hbinds <;> rw [hkind] at hbinds <;> cases hbinds

/-- No initializing write is left unresolved, if no `with` scope declares anything. It stands at the
identifier of exactly one binding. The write to a parameter, to a `catch` parameter or to a variable
other than a `var` is bound in its own scope, to the variable that this binding defines. The write
to a `var` is bound in its own scope or further out, up to the variable scope. -/
theorem resolved_of_init (h : analyze names t o envs = (names', .ok g)) (hplaces : t.UniquePlaces)
    (hwith : ∀ s scope, g.getScope? s = some scope → scope.kind = .withBody → scope.table.isEmpty)
    {id : ReferenceId} {r : Reference Name} (hr : g.getReference? id = some r)
    (hinit : r.init = true) :
    ∃ d v variable', d.BindsTarget ∧ d.name = r.identifier ∧
      (∃ w x, g.getVariable? w = some x ∧ d ∈ x.definitions) ∧
      (∀ w x d', g.getVariable? w = some x → d' ∈ x.definitions → d'.BindsTarget →
        d'.name = r.identifier → d' = d) ∧
      r.resolved = some v ∧ g.getVariable? v = some variable' ∧
      (d.variableKind ≠ some .varDecl → variable'.scope = r.origin ∧ d ∈ variable'.definitions) ∧
      (d.variableKind = some .varDecl → variable'.scope ∈ g.chain r.origin ∧
        g.variableScope r.origin ∈ g.chain variable'.scope) := by
  have hg := analyzed_of_analyze h
  have horigin := hg.origin_lt hr
  obtain ⟨d, hbinds, hname, ⟨w, binder, hw, hbinder, hd⟩, hunique⟩ :=
    exists_definition_of_init h hplaces hr hinit
  have hkind (scope : Scope Name) (hs : g.getScope? (g.target r.origin d.place) = some scope) :
      scope.kind ≠ .withBody := by
    intro hbody
    have hentry : r.name ∈ scope.table.order := by
      rw [ScopeGraph.inTable?, hs, Option.bind_some] at hw
      rw [← OrderedMap.contains_iff_mem_order, OrderedMap.contains, hw]
      rfl
    rw [Array.isEmpty_iff.1 (hwith _ scope hs hbody)] at hentry
    exact Array.not_mem_empty _ hentry
  have hchain : g.target r.origin d.place ∈ g.chain r.origin := by
    cases d.place with
    | current => exact hg.mem_chain_self horigin
    | variableScope =>
      have hnested := (charted_of_analyze h hplaces).nested
      exact List.mem_of_find?_eq_some (hnested.variableScope_eq horigin)
  have hadmits : g.Admits t r _ w := ScopeGraph.admits_of_definition hw hbinder hkind hd hname
  obtain ⟨v, variable', hv, hvar, hscope, hwithin⟩ := hg.exists_resolved_within hr hchain hadmits
  refine ⟨d, v, variable', hbinds, hname, ⟨w, binder, hbinder, hd⟩, hunique, hv, hvar,
    fun hkept => ?_, fun hhoisted => ⟨hscope, ?_⟩⟩
  · have hplace : d.place = .current := if_neg hkept
    rw [hplace] at hw hwithin
    have hle := hg.index_le_of_mem_chain (hg.size_of_mem_chain horigin hscope) hwithin
    have hge := hg.index_le_of_mem_chain horigin hscope
    have heq : variable'.scope = r.origin := congrArg ScopeId.mk (Nat.le_antisymm hge hle)
    have htable := (hg.inTable?_of_resolved hr hv hvar).2
    rw [heq] at htable
    obtain rfl := Option.some.inj (hw.symm.trans htable)
    obtain rfl := Option.some.inj (hbinder.symm.trans hvar)
    exact ⟨heq, hd⟩
  · have hplace : d.place = .variableScope := if_pos hhoisted
    rwa [hplace] at hwithin

/-- `with (o) { var x = this }` -/
def varInWith : Build NodeId := do
  let object ← .identifier "o"
  let value ← .alloc .thisExpression
  let declaration ← .declare .varDecl "x" (some value)
  let statement ← .alloc (.withStatement object (← .block [declaration]))
  .alloc (.program [statement] .script)

/-- The write made in the block goes through the `with` body to the global scope. -/
theorem resolved_varInWith : ∃ t names g r v variable', Build.tree varInWith = .ok t ∧
    analyze {} t {} {} = (names, .ok g) ∧ t.UniquePlaces ∧ g.getReference? ⟨1⟩ = some r ∧
    r.init = true ∧ r.origin = ⟨2⟩ ∧ r.resolved = some v ∧ g.getVariable? v = some variable' ∧
    variable'.scope ∈ g.chain r.origin ∧ g.variableScope r.origin ∈ g.chain variable'.scope := by
  obtain ⟨t, names, g, ht, h, hplaces, hempty, hreference, hvariable⟩ :=
    exists_analysis varInWith {} {} (fun t _ g => t.UniquePlaces ∧
      (∀ scope ∈ g.scopes.toList, scope.kind = .withBody → scope.table.isEmpty) ∧
      (g.getReference? ⟨1⟩).map (fun r => (r.init, r.origin, r.identifier)) =
        some (true, ⟨2⟩, ⟨2⟩) ∧
      (g.getVariable? ⟨0⟩).map (·.definitions) = some #[.ofDeclarator ⟨2⟩ ⟨3⟩ ⟨4⟩ 0 .varDecl])
    (by decide +kernel)
  obtain ⟨r, hr, hfields⟩ := Option.map_eq_some_iff.1 hreference
  obtain ⟨binder, hbinder, hdefinitions⟩ := Option.map_eq_some_iff.1 hvariable
  simp only [Prod.mk.injEq] at hfields
  obtain ⟨hinit, horigin, hidentifier⟩ := hfields
  have hwith (s : ScopeId) (scope : Scope Name) (hs : g.getScope? s = some scope) :=
    hempty scope (Array.mem_toList_iff.2 (Array.mem_of_getElem? hs))
  obtain ⟨d, v, variable', -, -, -, hunique, hv, hvar, -, hhoisted⟩ :=
    resolved_of_init h hplaces hwith hr hinit
  obtain rfl := hunique ⟨0⟩ binder _ hbinder (hdefinitions ▸ Array.mem_singleton_self _)
    (.inr (.inr rfl)) hidentifier.symm
  exact ⟨t, names, g, r, v, variable', ht, h, hplaces, hr, hinit, horigin, hv, hvar, hhoisted rfl⟩

end Analyze

end LexicalScope
