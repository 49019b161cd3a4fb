import LexicalScope.Proofs.Entered
import LexicalScope.Proofs.GlobalClosing

/-!
Where definitions come from. Every definition of a variable stems from one step of the walk, save
those of the implicit globals, which come in when the global scope closes. The scope of the
variable is the one where the step stands, or its variable scope.
-/
namespace LexicalScope

variable {ν : Type}

namespace ScopeGraph

def target (g : ScopeGraph ν) (x : ScopeId) : Place → ScopeId
  | .current => x
  | .variableScope => g.variableScope x

/-- A declaration that has `blocks` around it goes to the scope `s`. -/
def Reaches (g : ScopeGraph ν) (blocks : List NodeId) (place : Place) (s : ScopeId) : Prop :=
  ∃ x, x.index < g.scopes.size ∧ g.blocksOf x = blocks ∧ g.target x place = s

theorem SamePositions.reaches {g g' : ScopeGraph ν} (hsame : g.SamePositions g')
    {blocks : List NodeId} {place : Place} {s : ScopeId} (h : g.Reaches blocks place s) :
    g'.Reaches blocks place s := by
  obtain ⟨x, hx, hblocks, hs⟩ := h
  refine ⟨x, (hsame.lt_size_iff x).2 hx, (hsame.blocksOf x).trans hblocks, ?_⟩
  cases place with
  | current => exact hs
  | variableScope => exact (hsame.variableScope x).trans hs

/-- A scope opened later does not divert declarations made before. -/
theorem Reaches.openScope {g : ScopeGraph ν} (hg : g.Rooted) {u : ScopeId}
    (hu : u.index < g.scopes.size) {blocks : List NodeId} {place : Place} {s : ScopeId}
    (h : g.Reaches blocks place s) (kind : ScopeKind) (block : NodeId) (strict : Bool) :
    (g.openScope kind block strict (some u)).Reaches blocks place s := by
  obtain ⟨x, hx, hblocks, hs⟩ := h
  refine ⟨x, ?_, ?_, ?_⟩
  · rw [size_scopes_openScope]
    exact Nat.lt_succ_of_lt hx
  · rw [blocksOf, hg.chain_openScope _ _ _ hu hx,
      filterMap_blockOf_openScope kind block strict hg _ hx, hblocks]
  · cases place with
    | current => exact hs
    | variableScope =>
      rw [target, variableScope_openScope, if_neg (ne_nextScope_of_lt hx)]
      exact hs

variable [DecidableEq ν]

/-- Every definition is one that `p` allows in the scope of its variable, or that of an implicit
global. -/
structure DefinedBy (p : Definition → ScopeId → Prop) (g : ScopeGraph ν) : Prop where
  definition : ∀ {id v d}, g.getVariable? id = some v → d ∈ v.definitions →
    p d v.scope ∨ d.kind = .implicitGlobal ∧ v.scope = .global
  implicit : ∀ {name id v}, g.implicit.table.get? name = some id → g.getVariable? id = some v →
    v.scope = .global

namespace DefinedBy

variable {p p' : Definition → ScopeId → Prop} {g g' : ScopeGraph ν}

theorem mono (h : g.DefinedBy p) (hp : ∀ d s, p d s → p' d s) : g.DefinedBy p' :=
  ⟨fun hv hd => (h.definition hv hd).imp_left (hp _ _), h.implicit⟩

/-- Changes to variables that touch neither scopes nor definitions. -/
theorem congr (h : g.DefinedBy p)
    (hvariables : ∀ {id v'}, g'.getVariable? id = some v' → ∃ v, g.getVariable? id = some v ∧
      v.scope = v'.scope ∧ v.definitions = v'.definitions)
    (himplicit : ∀ name id, g'.implicit.table.get? name = some id →
      g.implicit.table.get? name = some id) : g'.DefinedBy p where
  definition hv' hd := by
    obtain ⟨v, hv, hscope, hdefinitions⟩ := hvariables hv'
    rw [← hscope]
    exact h.definition hv (hdefinitions ▸ hd)
  implicit hname hv' := by
    obtain ⟨v, hv, hscope, -⟩ := hvariables hv'
    rw [← hscope]
    exact h.implicit (himplicit _ _ hname) hv

/-- A new variable has no definition, and none of the implicit globals is one outside the global
scope. -/
theorem bind (h : g.DefinedBy p) (s : ScopeId) (name : ν)
    (hs : s = .global ∨ g.implicit = {}) : (g.bind s name).1.DefinedBy p where
  definition {id v d} hv hd := by
    rw [getVariable?_bind] at hv
    split at hv
    · obtain rfl := Option.some.inj hv
      exact absurd hd (Array.not_mem_empty d)
    · exact h.definition hv hd
  implicit {m id v} hm hv := by
    rw [implicit_bind] at hm
    rw [getVariable?_bind] at hv
    split at hv
    · obtain rfl := Option.some.inj hv
      rcases hs with rfl | hempty
      · rfl
      · rw [hempty] at hm
        cases hm
    · exact h.implicit hm hv

theorem bindImplicit (h : g.DefinedBy p) (name : ν) : (g.bindImplicit name).1.DefinedBy p where
  definition {id v d} hv hd := by
    rw [getVariable?_bindImplicit] at hv
    split at hv
    · obtain rfl := Option.some.inj hv
      exact absurd hd (Array.not_mem_empty d)
    · exact h.definition hv hd
  implicit {m id v} hm hv := by
    rw [getVariable?_bindImplicit] at hv
    split at hv
    · obtain rfl := Option.some.inj hv
      rfl
    · next hold =>
      rw [get?_bindImplicit] at hm
      split at hm
      · cases hname : g.implicit.table.get? name with
        | some w =>
          rw [bindImplicit_snd, hname] at hm
          exact h.implicit (hname.trans hm) hv
        | none =>
          rw [bindImplicit_snd, hname, Option.getD_none] at hm
          exact absurd ⟨(Option.some.inj hm).symm, hname⟩ hold
      · exact h.implicit hm hv

/-- One more definition with the property leaves all definitions with it. -/
theorem define (h : g.DefinedBy p) (w : VariableId) {d : Definition}
    (hd : ∀ v, g.getVariable? w = some v → p d v.scope ∨ d.kind = .implicitGlobal ∧
      v.scope = .global) : (g.define w d).DefinedBy p where
  definition {id v e} hv he := by
    rw [getVariable?_define] at hv
    split at hv
    · next heq =>
      subst heq
      obtain ⟨v', hv', rfl⟩ := Option.map_eq_some_iff.1 hv
      rcases Array.mem_push.1 he with he | rfl
      · exact h.definition (v := v') hv' he
      · exact hd v' hv'
    · exact h.definition hv he
  implicit {m id v} hm hv := by
    rw [getVariable?_define] at hv
    split at hv
    · obtain ⟨v', hv', rfl⟩ := Option.map_eq_some_iff.1 hv
      exact h.implicit (v := v') hm hv'
    · exact h.implicit hm hv

/-- A declaration adds its definition to a variable of its own scope, be it new or old. -/
theorem declare (h : g.DefinedBy p) (hg : g.WellFormed) (hempty : g.implicit = {}) (s : ScopeId)
    (name : ν) (d : Option Definition) (hd : ∀ e ∈ d, p e s) :
    (g.declare s name d).DefinedBy p := by
  have hbind := h.bind s name (.inr hempty)
  cases d with
  | none => exact hbind
  | some d =>
    refine hbind.define _ fun v hv => .inl ?_
    obtain ⟨v', hv', hscope, -⟩ := hg.owns_bind s name
    obtain rfl := Option.some.inj (hv'.symm.trans hv)
    rw [hscope]
    exact hd d rfl

theorem declareImplicit (h : g.DefinedBy p) (name : ν) {d : Definition}
    (hd : d.kind = .implicitGlobal) : (g.declareImplicit name d).DefinedBy p := by
  have hbind := h.bindImplicit name
  have hname : (g.bindImplicit name).1.implicit.table.get? name = some (g.bindImplicit name).2 := by
    rw [get?_bindImplicit, if_pos rfl]
  exact hbind.define _ fun v hv => .inr ⟨hd, hbind.implicit hname hv⟩

/-- The closing of scopes and the settings define nothing but implicit globals. -/
theorem stable (p : Definition → ScopeId → Prop) :
    Stable (DefinedBy p : ScopeGraph ν → Prop) where
  modifyScope _ _ _ h := h.congr (fun hv => ⟨_, hv, rfl, rfl⟩) fun _ _ hm => hm
  modifyReference _ h := h.congr (fun hv => ⟨_, hv, rfl, rfl⟩) fun _ _ hm => hm
  modifyVariable {g w f} hf h := by
    refine h.congr (fun {id v'} hv' => ?_) fun _ _ hm => hm
    rw [getVariable?_modifyVariable] at hv'
    split at hv'
    · obtain ⟨v, hv, rfl⟩ := Option.map_eq_some_iff.1 hv'
      have hdeclaration := hf v
      simp only [Variable.declaration, Prod.mk.injEq] at hdeclaration
      exact ⟨v, hv, hdeclaration.2.2.1.symm, hdeclaration.2.2.2.2.symm⟩
    · exact ⟨v', hv', rfl, rfl⟩
  bindGlobal h := h.bind .global _ (.inl rfl)
  declareImplicit _ _ hd _ h := h.declareImplicit _ hd
  setImplicit hsub _ h := h.congr (fun hv => ⟨_, hv, rfl, rfl⟩) hsub

end DefinedBy

/-- The definitions of a graph record the declaring steps of a trace. -/
def DefinedIn (g : ScopeGraph ν) (trace : List (Located ν)) : Prop :=
  g.DefinedBy fun d s => ∃ blocks place name,
    ⟨blocks, .declare place name (some d)⟩ ∈ trace ∧ g.Reaches blocks place s

namespace DefinedIn

variable {g g' : ScopeGraph ν} {trace trace' : List (Located ν)}

theorem mono (h : g.DefinedIn trace) (hsub : ∀ l ∈ trace, l ∈ trace') : g.DefinedIn trace' := by
  refine DefinedBy.mono h fun d s hd => ?_
  obtain ⟨blocks, place, name, hmem, hreaches⟩ := hd
  exact ⟨blocks, place, name, hsub _ hmem, hreaches⟩

/-- Changes that leave all scopes in place. -/
theorem of_stable (h : g.DefinedIn trace) (hsame : g.SamePositions g')
    (hstable : ∀ p, g.DefinedBy p → g'.DefinedBy p) : g'.DefinedIn trace := by
  refine DefinedBy.mono (hstable _ h) fun d s hd => ?_
  obtain ⟨blocks, place, name, hmem, hreaches⟩ := hd
  exact ⟨blocks, place, name, hmem, hsame.reaches hreaches⟩

/-- A new scope has no definitions. -/
theorem openScope (h : g.DefinedIn trace) (hg : g.Rooted) {u : ScopeId}
    (hu : u.index < g.scopes.size) (kind : ScopeKind) (block : NodeId) (strict : Bool) :
    (g.openScope kind block strict (some u)).DefinedIn trace := by
  have hsame : (g.openScope kind block strict (some u)).DefinedBy _ := DefinedBy.congr h
    (fun {id v} hv => ⟨v, by rwa [getVariable?_openScope] at hv, rfl, rfl⟩) fun _ _ hm => hm
  refine hsame.mono fun d s hd => ?_
  obtain ⟨blocks, place, name, hmem, hreaches⟩ := hd
  exact ⟨blocks, place, name, hmem, hreaches.openScope hg hu kind block strict⟩

end DefinedIn

theorem Walking.reaches {t : Tree} {c : Cursor ν} {blocks : List NodeId} (h : Walking t c blocks)
    (place : Place) : c.graph.Reaches blocks place (c.place place) :=
  ⟨c.current, h.lt_size, Walking.blocksOf_current h, by cases place <;> rfl⟩

/-- Every step of a walk keeps its definitions in the trace. -/
theorem walkInvariant_definedIn (t : Tree) :
    WalkInvariant t fun (trace : List (Located ν)) c => c.graph.DefinedIn trace where
  enter {trace c blocks kind} h hc _ block strict := by
    rw [Cursor.enter, h.head?_opened]
    exact (hc.openScope h.walked.toRooted h.lt_size kind block strict).mono
      fun _ hl => List.mem_append_left _ hl
  close {trace g s outer b blocks} _ hc _ :=
    hc.of_stable (SameTree.closeScope t g s).samePositions
      fun p hp => (DefinedBy.stable p).closeScope t s hp
  declare {trace c blocks} h hc place name d := by
    have hsame := (SameTree.declare c.graph (c.place place) name d).samePositions
    have hnext : c.graph.DefinedIn (trace ++ [⟨blocks, .declare place name d⟩]) :=
      hc.mono fun _ hl => List.mem_append_left _ hl
    have hdeclared := DefinedBy.declare hnext h.walked.toWellFormed h.walked.implicit
      (c.place place) name d (by
        intro e he
        obtain rfl : d = some e := he
        exact ⟨blocks, place, name, List.mem_append_right _ (List.mem_singleton_self _),
          Walking.reaches h place⟩)
    refine hdeclared.mono fun e s he => ?_
    obtain ⟨blocks, place, name, hmem, hreaches⟩ := he
    exact ⟨blocks, place, name, hmem, hsame.reaches hreaches⟩
  refer {trace c blocks} _ hc o :=
    (hc.of_stable (SameTree.addReference c.graph (c.reference o)).samePositions
      fun p hp => hp.congr (fun hv => ⟨_, hv, rfl, rfl⟩) fun _ _ hm => hm).mono
        fun _ hl => List.mem_append_left _ hl
  this {trace c blocks} _ hc := by
    have hsame : c.graph.SameTree (c.graph.modifyScope (c.graph.variableScope c.current)
        fun s => { s with thisFound := true }) := .modifyScope (by exact fun _ => rfl) _
    exact (hc.of_stable hsame.samePositions
      fun p hp => hp.congr (fun hv => ⟨_, hv, rfl, rfl⟩) fun _ _ hm => hm).mono
        fun _ hl => List.mem_append_left _ hl
  misplacedImport _ hc _ := hc.mono fun _ hl => List.mem_append_left _ hl

end ScopeGraph

section Analyze

variable {names names' : NameTable} {t : Tree} {o : LanguageOptions} {envs : Environments}
  {g : ScopeGraph Name}

/-- Every definition stems from a visited node, or it is that of an implicit global. -/
theorem exists_declaration (h : analyze names t o envs = (names', .ok g)) {id : VariableId}
    {v : Variable Name} (hv : g.getVariable? id = some v) {d : Definition}
    (hd : d ∈ v.definitions) :
    (∃ w ∈ t.visits (t.rootVisit o), ∃ blocks place name,
      ⟨blocks, .declare place name (some d)⟩ ∈ t.marks w ∧ g.Reaches blocks place v.scope) ∨
    d.kind = .implicitGlobal ∧ v.scope = .global := by
  obtain ⟨outline, source, houtline, -, -, hsource, rfl⟩ :=
    (ScopeGraph.walkInvariant_definedIn (ν := Name) t).of_analyze
      (fun _ => ⟨fun hv => (nomatch hv), fun hm => (nomatch hm)⟩) h
  have hfinal := hsource.of_stable (ScopeGraph.SameTree.conclude t source _).samePositions
    fun p hp => (ScopeGraph.DefinedBy.stable p).conclude t
      ((GlobalSettings.ofFile o envs t.comments).mapNames names'.handle) hp
  refine (hfinal.definition hv hd).imp_left fun hdeclared => ?_
  obtain ⟨blocks, place, name, hmem, hreaches⟩ := hdeclared
  obtain ⟨⟨blocks', step⟩, hlocated, heq⟩ := List.mem_map.1 hmem
  have hmarks := (perm_trace_outline houtline).mem_iff.1 hlocated
  obtain ⟨w, hw, hmark⟩ := List.mem_flatMap.1 hmarks
  cases step with
  | declare place' name' d' =>
    simp only [Located.mapName, Step.mapName, Located.mk.injEq, Step.declare.injEq] at heq
    obtain ⟨rfl, rfl, -, rfl⟩ := heq
    exact ⟨w, hw, blocks', place', name', hmark, hreaches⟩
  | _ => simp [Located.mapName, Step.mapName] at heq

end Analyze

end LexicalScope
