import LexicalScope.Proofs.VariableTables

/-!
The index of declared variables. A definition is kept with its variable and is listed under its
node and under its parent. Both happen in one place, so the index can be read off the variables,
whatever table holds a variable in the end and whether one holds it at all.
-/
namespace LexicalScope

variable {ν : Type}

/-- The definition declares its variable at `n`. -/
def Definition.IsAt (d : Definition) (n : NodeId) : Prop :=
  d.node = n ∨ d.parent = some n

namespace ScopeGraph

def definitionsOf (g : ScopeGraph ν) (v : VariableId) : Array Definition :=
  (g.getVariable? v).elim #[] (·.definitions)

/-- The index lists a variable once under each node that one of its definitions is at. -/
structure Indexed (g : ScopeGraph ν) : Prop where
  nodup : ∀ n, (g.declaredVariables n).Nodup
  mem_iff : ∀ n v, v ∈ g.declaredVariables n ↔ ∃ d ∈ g.definitionsOf v, d.IsAt n

section Define

variable {g : ScopeGraph ν} {w : VariableId} (d : Definition)

/-- A definition is added to its own variable only. -/
theorem definitionsOf_define (hw : (g.getVariable? w).isSome) (v : VariableId) :
    (g.define w d).definitionsOf v =
      if v = w then (g.definitionsOf v).push d else g.definitionsOf v := by
  rw [definitionsOf, getVariable?_define, definitionsOf]
  split
  · next heq =>
    obtain ⟨x, hx⟩ := Option.isSome_iff_exists.1 hw
    rw [heq, hx]
    rfl
  · rfl

theorem declared_define : (g.define w d).declared =
    d.parent.elim (g.declared.insert d.node w) ((g.declared.insert d.node w).insert · w) :=
  rfl

/-- One more definition is listed under its node and its parent. -/
theorem mem_declaredVariables_define (n : NodeId) (v : VariableId) :
    v ∈ (g.define w d).declaredVariables n ↔ v ∈ g.declaredVariables n ∨ v = w ∧ d.IsAt n := by
  rw [declaredVariables, declared_define, declaredVariables, Definition.IsAt]
  cases d.parent with
  | none =>
    rw [Option.elim_none, MultiMap.mem_valuesAt_insert]
    simp [eq_comm, and_comm]
  | some p =>
    rw [Option.elim_some, MultiMap.mem_valuesAt_insert, MultiMap.mem_valuesAt_insert]
    simp [eq_comm, and_comm, or_assoc, and_or_left]

/-- A variable is listed at a node once, however often the node defines it. -/
theorem nodup_declaredVariables_define (h : ∀ n, (g.declaredVariables n).Nodup) (n : NodeId) :
    ((g.define w d).declaredVariables n).Nodup := by
  have hnode := MultiMap.nodup_valuesAt_insert h d.node w
  rw [declaredVariables, declared_define]
  cases d.parent with
  | none => exact hnode n
  | some p => exact MultiMap.nodup_valuesAt_insert hnode p w n

end Define

namespace Indexed

variable {g g' : ScopeGraph ν}

/-- Changes that neither add a definition nor list a variable. -/
theorem congr (h : g.Indexed) (hdeclared : g'.declared = g.declared)
    (hdefinitions : ∀ v, g'.definitionsOf v = g.definitionsOf v) : g'.Indexed where
  nodup n := by
    rw [declaredVariables, hdeclared]
    exact h.nodup n
  mem_iff n v := by
    rw [declaredVariables, hdeclared, hdefinitions]
    exact h.mem_iff n v

/-- A new variable has no definition yet. -/
theorem addVariable (h : g.Indexed) (hdeclared : g'.declared = g.declared)
    (hvariable : ∀ v, g'.getVariable? v = g.getVariable? v ∨ v = g.nextVariable ∧
      ∃ x, g'.getVariable? v = some x ∧ x.definitions = #[]) : g'.Indexed := by
  refine h.congr hdeclared fun v => ?_
  rw [definitionsOf, definitionsOf]
  rcases hvariable v with heq | ⟨rfl, x, hx, hdefinitions⟩
  · rw [heq]
  · rw [hx, getVariable?_nextVariable]
    exact hdefinitions

/-- A definition lists its variable under its nodes. -/
theorem define (h : g.Indexed) {w : VariableId} (hw : (g.getVariable? w).isSome)
    (d : Definition) : (g.define w d).Indexed where
  nodup := nodup_declaredVariables_define d h.nodup
  mem_iff n v := by
    rw [mem_declaredVariables_define, h.mem_iff, definitionsOf_define d hw]
    by_cases heq : v = w
    · simp [heq, or_and_right, exists_or]
    · simp [heq]

theorem modifyVariable (h : g.Indexed) {f : Variable ν → Variable ν}
    (hf : ∀ x, (f x).declaration = x.declaration) (w : VariableId) :
    (g.modifyVariable w f).Indexed := by
  refine h.congr rfl fun v => ?_
  rw [definitionsOf, getVariable?_modifyVariable, definitionsOf]
  split
  · cases g.getVariable? v with
    | none => rfl
    | some x => exact (Variable.congr_declaration (hf x)).2.2.2
  · rfl

theorem openScope (h : g.Indexed) (kind : ScopeKind) (block : NodeId) (strict : Bool)
    (upper : Option ScopeId) : (g.openScope kind block strict upper).Indexed := by
  refine h.congr ?_ fun v => ?_
  · cases upper <;> rfl
  · rw [definitionsOf, getVariable?_openScope, definitionsOf]

variable [DecidableEq ν]

theorem bind (h : g.Indexed) (s : ScopeId) (name : ν) : (g.bind s name).1.Indexed := by
  refine h.addVariable ?_ fun v => ?_
  · unfold ScopeGraph.bind
    split <;> rfl
  · rw [getVariable?_bind]
    split
    · next hnew => exact .inr ⟨hnew.1, _, rfl, rfl⟩
    · exact .inl rfl

theorem bindImplicit (h : g.Indexed) (name : ν) : (g.bindImplicit name).1.Indexed := by
  refine h.addVariable ?_ fun v => ?_
  · unfold ScopeGraph.bindImplicit
    split <;> rfl
  · rw [getVariable?_bindImplicit]
    split
    · next hnew => exact .inr ⟨hnew.1, _, rfl, rfl⟩
    · exact .inl rfl

theorem declare (h : g.Indexed) (hg : g.WellFormed) (s : ScopeId) (name : ν)
    (d : Option Definition) : (g.declare s name d).Indexed := by
  obtain ⟨x, hx, -⟩ := hg.owns_bind s name
  cases d with
  | none => exact h.bind s name
  | some d => exact (h.bind s name).define (Option.isSome_of_eq_some hx) d

/-- An implicit global is there before it gets its definition. -/
theorem declareImplicit {spells : NodeId → ν → Prop} (h : g.Indexed) (hg : g.Catalogued spells)
    (name : ν) (d : Definition) : (g.declareImplicit name d).Indexed := by
  obtain ⟨x, hx, -⟩ := hg.exists_bindImplicit name
  exact (h.bindImplicit name).define (Option.isSome_of_eq_some hx) d

/-- The closing of scopes and the settings leave the index right. -/
theorem stable (spells : NodeId → ν → Prop) :
    Stable fun g : ScopeGraph ν => g.Catalogued spells ∧ g.Indexed where
  modifyScope hnode htable hentries h :=
    ⟨(Catalogued.stable spells).modifyScope hnode htable hentries h.1,
      h.2.congr rfl fun _ => rfl⟩
  modifyReference hf h :=
    ⟨(Catalogued.stable spells).modifyReference hf h.1, h.2.congr rfl fun _ => rfl⟩
  modifyVariable hf h :=
    ⟨(Catalogued.stable spells).modifyVariable hf h.1, h.2.modifyVariable hf _⟩
  bindGlobal h := ⟨(Catalogued.stable spells).bindGlobal h.1, h.2.bind _ _⟩
  declareImplicit href hsite hkind hname h :=
    ⟨(Catalogued.stable spells).declareImplicit href hsite hkind hname h.1,
      h.2.declareImplicit h.1 _ _⟩
  setImplicit hsub hdropped h :=
    ⟨(Catalogued.stable spells).setImplicit hsub hdropped h.1, h.2.congr rfl fun _ => rfl⟩

end Indexed

variable [DecidableEq ν]

/-- Declarations come one by one, and every step that adds one lists it. -/
theorem walkInvariant_indexed (t : Tree) (spells : NodeId → ν → Prop) :
    WalkInvariant t fun (trace : List (Located ν)) c =>
      (∀ l ∈ trace, l.step.IsSpelled spells) → c.graph.Catalogued spells ∧ c.graph.Indexed := by
  have hcatalogued := walkInvariant_catalogued t spells
  exact {
    enter := fun {_ c _ kind} h hc hkind block strict htrace =>
      have hc' := hc (List.forall_mem_append.1 htrace).1
      ⟨hcatalogued.enter h (fun _ => hc'.1) hkind block strict htrace,
        hc'.2.openScope kind block strict c.opened.head?⟩
    close := fun {_ _ s _ _ _} _ hc _ htrace => (Indexed.stable spells).closeScope t s (hc htrace)
    declare := fun {_ c _} h hc place name d htrace =>
      have hc' := hc (List.forall_mem_append.1 htrace).1
      ⟨hcatalogued.declare h (fun _ => hc'.1) place name d htrace,
        hc'.2.declare h.walked.toWellFormed (c.place place) name d⟩
    refer := fun h hc o htrace =>
      have hc' := hc (List.forall_mem_append.1 htrace).1
      ⟨hcatalogued.refer h (fun _ => hc'.1) o htrace, hc'.2.congr rfl fun _ => rfl⟩
    this := fun h hc htrace =>
      have hc' := hc (List.forall_mem_append.1 htrace).1
      ⟨hcatalogued.this h (fun _ => hc'.1) htrace, hc'.2.congr rfl fun _ => rfl⟩
    misplacedImport := fun _ hc _ htrace => hc (List.forall_mem_append.1 htrace).1 }

omit [DecidableEq ν] in
theorem indexed_root (block : NodeId) (strict : Bool) :
    (({} : Cursor ν).enter .global block strict).graph.Indexed := by
  have hempty : ({} : ScopeGraph ν).Indexed :=
    ⟨fun _ => List.nodup_nil, fun _ _ => iff_of_false List.not_mem_nil
      fun ⟨_, hd, _⟩ => Array.not_mem_empty _ hd⟩
  exact hempty.openScope .global block strict none

end ScopeGraph

/-- In an analysed file a node declares each variable once that has a definition with this node or
this parent, and no other variable. -/
theorem declaredVariables_of_analyze {names names' : NameTable} {t : Tree} {o : LanguageOptions}
    {envs : Environments} {g : ScopeGraph Name} (h : analyze names t o envs = (names', .ok g))
    (n : NodeId) :
    (g.declaredVariables n).Nodup ∧
    ∀ v, v ∈ g.declaredVariables n ↔ ∃ x, g.getVariable? v = some x ∧
      ∃ d ∈ x.definitions, d.node = n ∨ d.parent = some n := by
  obtain ⟨outline, source, houtline, -, -, hsource, rfl⟩ :=
    (ScopeGraph.walkInvariant_indexed t fun n name => t.Spells n (names'.resolve name)).of_analyze
      (fun strict _ => ⟨ScopeGraph.catalogued_root t.root strict _,
        ScopeGraph.indexed_root t.root strict⟩) h
  have hwalked := hsource fun l hl => spelled_of_analyze h houtline hl
  have hindexed := ((ScopeGraph.Indexed.stable _).conclude t
    ((GlobalSettings.ofFile o envs t.comments).mapNames names'.handle) hwalked).2
  refine ⟨hindexed.nodup n, fun v => (hindexed.mem_iff n v).trans ?_⟩
  rw [ScopeGraph.definitionsOf]
  cases ScopeGraph.getVariable? _ v with
  | none => simp
  | some x => simp [Definition.IsAt]

/-- With `b` configured, no table holds the variable that the assignment to it defines. The
assignment still declares it. -/
theorem declaredVariables_assignedTwice : ∃ t names g, Build.tree assignedTwice = .ok t ∧
    analyze {} t (({} : LanguageOptions).withGlobal "b" .writable) {} = (names, .ok g) ∧
    g.getVariable? ⟨1⟩ = some (.ofSites ⟨1⟩ (names.handle "b") [⟨⟨5⟩, ⟨6⟩⟩]) ∧
    ⟨1⟩ ∉ g.implicit.table.values ∧ (∀ s ∈ g.scopes.toList, ⟨1⟩ ∉ s.table.values) ∧
    (g.declaredVariables ⟨6⟩).Nodup ∧ ⟨1⟩ ∈ g.declaredVariables ⟨6⟩ := by
  obtain ⟨t, names, g, ht, h, hvar, himplicit, htables⟩ := exists_analysis assignedTwice
    (({} : LanguageOptions).withGlobal "b" .writable) {}
    (fun _ names g => g.getVariable? ⟨1⟩ =
        some (.ofSites ⟨1⟩ (names.handle "b") [⟨⟨5⟩, ⟨6⟩⟩]) ∧
      ⟨1⟩ ∉ g.implicit.table.values ∧ ∀ s ∈ g.scopes.toList, ⟨1⟩ ∉ s.table.values)
    (by decide +kernel)
  obtain ⟨hnodup, hmem⟩ := declaredVariables_of_analyze h ⟨6⟩
  refine ⟨t, names, g, ht, h, hvar, himplicit, htables, hnodup, (hmem _).2 ?_⟩
  exact ⟨_, hvar, .ofSite ⟨⟨5⟩, ⟨6⟩⟩, List.mem_toArray.2 (List.mem_singleton_self _), .inl rfl⟩

end LexicalScope
