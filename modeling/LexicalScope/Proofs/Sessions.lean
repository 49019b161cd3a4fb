import LexicalScope.Proofs.ImplicitGlobals
import LexicalScope.Proofs.NameIndependence
import LexicalScope.Session
import Mathlib.Data.List.Induction

/-!
Sessions over time. Whatever a session has been through, its answers are those of a new session
that loads the last file: the kept outcome is that of the file itself, and the name table, which
other files may share, only grows.
-/
namespace LexicalScope

section Queries

variable {ν μ : Type} [DecidableEq ν] [DecidableEq μ] (g : ScopeGraph ν)

namespace ScopeGraph

/-- The scope at a node does not depend on names. -/
theorem acquire_mapNames (f : ν → μ) (n : NodeId) (inner : Bool) :
    (g.mapNames f).acquire n inner = g.acquire n inner := by
  have hscope (found : ScopeId) (p : Scope μ → Option ScopeId) :
      ((g.mapNames f).getScope? found).bind p =
        (g.getScope? found).bind fun s => p (s.mapNames f) := by
    rw [getScope?_mapNames, Option.bind_map]
    rfl
  unfold acquire
  dsimp only [Option.bind_eq_bind]
  simp only [hscope]
  rfl

theorem scopeAt_mapNames (f : ν → μ) (t : Tree) (n : NodeId) :
    (g.mapNames f).scopeAt t n = g.scopeAt t n := by
  unfold scopeAt
  simp only [acquire_mapNames]

theorem isGlobalReference_mapNames {f : ν → μ} (hf : Function.Injective f) (name : ν)
    (n : NodeId) : (g.mapNames f).isGlobalReference (f name) n = g.isGlobalReference name n := by
  have hidentifier (r : ReferenceId) :
      ((g.mapNames f).getReference? r).any (·.identifier = n) =
        (g.getReference? r).any (·.identifier = n) := by
    rw [getReference?_mapNames, Option.any_map]
    rfl
  unfold isGlobalReference
  rw [globalVariable?_mapNames hf]
  cases g.globalVariable? name with
  | none => rfl
  | some v =>
    rw [Option.bind_some, Option.bind_some, getVariable?_mapNames, Option.any_map]
    simp only [hidentifier]
    rfl

/-- A renamed graph has no other names. -/
theorem exists_of_inTable?_mapNames {f : ν → μ} (hf : Function.Injective f) {s : ScopeId} {name : μ}
    (h : ((g.mapNames f).inTable? s name).isSome) : ∃ k, f k = name := by
  rw [inTable?, getScope?_mapNames] at h
  cases hscope : g.getScope? s with
  | none =>
    rw [hscope] at h
    cases h
  | some scope =>
    rw [hscope] at h
    have hmem : name ∈ (scope.table.mapKeys f).keys := (OrderedMap.mem_keys_iff ..).2 h
    rw [OrderedMap.keys_mapKeys (injOn_keys hf _)] at hmem
    obtain ⟨k, -, hk⟩ := List.mem_map.1 hmem
    exact ⟨k, hk⟩

end ScopeGraph

end Queries

namespace NameTable

variable {names : NameTable}

theorem mem_texts_of_tag {n : Name} {text : String} (h : names.tag n = .inl text) :
    text ∈ names.texts := by
  unfold tag at h
  cases hn : names.resolve? n with
  | none =>
    rw [hn] at h
    cases h
  | some text' =>
    rw [hn] at h
    obtain rfl : text' = text := Sum.inl.inj h
    exact Array.mem_of_getElem? hn

/-- A table that grows keeps the texts of its handles. -/
theorem resolve?_add {n : Name} {text : String} (h : names.resolve? n = some text)
    (added : String) : (names.add added).resolve? n = some text := by
  unfold add
  split
  · exact h
  · have hlt : n.index < names.texts.size := (Array.getElem?_eq_some_iff.1 h).1
    exact (Array.getElem?_push_lt hlt).trans ((Array.getElem?_eq_getElem hlt).symm.trans h)

theorem resolve?_addAll {n : Name} {text : String} (h : names.resolve? n = some text)
    (added : List String) : (names.addAll added).resolve? n = some text := by
  induction added generalizing names with
  | nil => exact h
  | cons x added ih => exact ih (resolve?_add h x)

/-- Graphs whose handles are all in a table look the same after it has grown. -/
theorem mapNames_tag_addAll {g : ScopeGraph Name} {g' : ScopeGraph String}
    (h : g.mapNames names.tag = g'.mapNames .inl) (added : List String) :
    g.mapNames (names.addAll added).tag = g'.mapNames .inl := by
  have htag : Sum.elim .inl (names.addAll added).tag ∘ names.tag = (names.addAll added).tag := by
    funext n
    rw [Function.comp_apply, tag]
    cases hn : names.resolve? n with
    | none => rfl
    | some text =>
      rw [tag, resolve?_addAll hn]
      rfl
  rw [← htag, ← ScopeGraph.mapNames_mapNames names.tag_injective, h,
    ScopeGraph.mapNames_mapNames Sum.inl_injective]
  rfl

end NameTable

namespace NamePool

theorem size_set (p : NamePool) (id : TableId) (names : NameTable) :
    (p.set id names).tables.size = p.tables.size := by
  simp [set]

theorem table_set (p : NamePool) (id x : TableId) (names : NameTable) :
    (p.set id names).table x =
      if x = id ∧ id.index < p.tables.size then names else p.table x := by
  obtain ⟨id⟩ := id
  obtain ⟨x⟩ := x
  simp only [table, set, Array.getElem?_setIfInBounds, TableId.mk.injEq]
  by_cases hx : id = x
  · subst hx
    by_cases hlt : id < p.tables.size <;> simp [hlt]
  · simp [hx, Ne.symm hx]

end NamePool

namespace Session

/-- What a file is loaded with. -/
structure Load where
  file : SourceFile
  options : LanguageOptions
  environments : Environments

namespace Load

def active (l : Load) (built : Option (Except ScopeError Analysis)) : ActiveFile where
  file := l.file
  options := l.options
  environments := l.environments
  built

def report (l : Load) : Except ScopeError (ScopeGraph String) :=
  l.file.tree.report l.options l.environments ⟨#[], List.nodup_nil⟩

def outcome (l : Load) : Except ScopeError (ScopeGraph String) :=
  l.file.tree.outcome l.options l.environments

theorem report_eq (l : Load) : l.report = l.outcome.map (·.mapNames id) :=
  Tree.report_eq ..

/-- The graph that a load reports, over the handles of a table. -/
theorem exists_analysis_of_report {l : Load} {g : ScopeGraph String} (h : l.report = .ok g) :
    ∃ names names' g', analyze names l.file.tree l.options l.environments = (names', .ok g') ∧
      g = g'.mapNames names'.resolve := by
  unfold report Tree.report at h
  generalize hanalyze : analyze _ l.file.tree l.options l.environments = result at h
  obtain ⟨names', outcome⟩ := result
  cases outcome with
  | error e => cases h
  | ok g' => exact ⟨_, names', g', hanalyze, (Except.ok.inj h).symm⟩

/-- Any analysis of the file has the graph that the load reports, but for the names. -/
theorem report_of_analyze {l : Load} {names names' : NameTable} {g : ScopeGraph Name}
    (h : analyze names l.file.tree l.options l.environments = (names', .ok g)) :
    ∃ texts : ScopeGraph String, l.report = .ok (texts.mapNames id) ∧
      g.mapNames names'.tag = texts.mapNames .inl := by
  have htag : _ = l.outcome.map _ :=
    l.file.tree.mapNames_tag_analyze l.options l.environments names
  rw [h] at htag
  rw [l.report_eq]
  cases houtcome : l.outcome with
  | error e =>
    rw [houtcome] at htag
    cases htag
  | ok texts =>
    rw [houtcome] at htag
    exact ⟨texts, rfl, Except.ok.inj htag⟩

/-- The load of a given program, if its graph has a property that can be computed. -/
theorem exists_report (b : Build NodeId) (o : LanguageOptions) (envs : Environments)
    (p : Tree → ScopeGraph String → Prop) [∀ t g, Decidable (p t g)]
    (h : ((Build.tree b).toOption.any fun t => (report ⟨⟨t, ⟨0⟩⟩, o, envs⟩).toOption.any fun g =>
      decide (p t g)) = true) :
    ∃ t g, Build.tree b = .ok t ∧ report ⟨⟨t, ⟨0⟩⟩, o, envs⟩ = .ok g ∧ p t g := by
  cases ht : Build.tree b with
  | error e =>
    rw [ht] at h
    cases h
  | ok t =>
    rw [ht] at h
    change (report ⟨⟨t, ⟨0⟩⟩, o, envs⟩).toOption.any _ = true at h
    cases hg : report ⟨⟨t, ⟨0⟩⟩, o, envs⟩ with
    | error e =>
      rw [hg] at h
      cases h
    | ok g =>
      rw [hg] at h
      exact ⟨t, g, rfl, hg, of_decide_eq_true h⟩

/-- An outcome of the analysis of the file, with handles of the pool. -/
inductive Outcome (l : Load) (names : NamePool) : Except ScopeError Analysis → Prop
  | failed {e : ScopeError} (h : l.outcome = .error e) : Outcome l names (.error e)
  | analysed {g : ScopeGraph Name} {g' : ScopeGraph String} (h : l.outcome = .ok g')
      (hgraph : g.mapNames (names.table l.file.table).tag = g'.mapNames .inl) :
      Outcome l names (.ok ⟨g, l.file.table⟩)

end Load

/-- The queries about the graph of the loaded file. -/
inductive Request : Type → Type 1 where
  | scopes : Request (List (Scope String))
  | globalScope : Request (Option (Scope String))
  | manager : Request (ScopeGraph String)
  | declaredVariables (n : NodeId) : Request (List VariableId)
  | acquire (n : NodeId) (inner : Bool) : Request (Option (Scope String))
  | scopeAt (n : NodeId) : Request (Option (Scope String))
  | isGlobalReference (n : NodeId) : Request Bool

def Query.graph : Query (ScopeGraph String) := do
  let a ← Query.analysis
  return a.graph.mapNames ((← get).names.table a.table).resolve

namespace Request

def query : {α : Type} → Request α → Query α
  | _, scopes => do return (← Query.graph).scopes.toList
  | _, globalScope => do return (← Query.graph).globalScope?
  | _, manager => Query.graph
  | _, declaredVariables n => Query.declaredVariables n
  | _, acquire n inner => do
    let found ← Query.acquire n inner
    return found.bind (← Query.graph).getScope?
  | _, scopeAt n => do
    let found ← Query.scopeAt n
    return (← Query.graph).getScope? found
  | _, isGlobalReference n => Query.isGlobalReference n

def answerAt {α : Type} (t : Tree) (n : NodeId) (answer : α) : Except ScopeError α :=
  if t.contains n then .ok answer else .error (.unknownNode n t.size)

/-- The answer that a tree and its graph give. -/
def reply (t : Tree) (g : ScopeGraph String) : {α : Type} → Request α → Except ScopeError α
  | _, scopes => .ok g.scopes.toList
  | _, globalScope => .ok g.globalScope?
  | _, manager => .ok g
  | _, declaredVariables n => answerAt t n (g.declaredVariables n)
  | _, acquire n inner => answerAt t n ((g.acquire n inner).bind g.getScope?)
  | _, scopeAt n => answerAt t n (g.getScope? (g.scopeAt t n))
  | _, isGlobalReference n => answerAt t n ((t.identifierName? n).any (g.isGlobalReference · n))

end Request

/-- The answer that a load alone decides. -/
def Load.answer {α : Type} (l : Load) (q : Request α) : Except ScopeError α :=
  l.report.bind fun g => q.reply l.file.tree g

def ask {α : Type} (s : Session) (q : Request α) : Except ScopeError α × Session :=
  q.query.run.run s

/-- What can happen to a session. Others may enter names into the tables of its pool. -/
inductive Action where
  | load (l : Load)
  | reset
  | ask {α : Type} (q : Request α)
  | markUsed (name : String) (n : NodeId)
  | share (table : TableId) (texts : List String)

namespace Action

def perform (s : Session) : Action → Session
  | load l => s.init l.file l.options l.environments
  | reset => s.reset
  | ask q => (s.ask q).2
  | markUsed name n => ((Query.markVariableUsed name n).run.run s).2
  | share table texts => { s with names := s.names.set table ((s.names.table table).addAll texts) }

/-- The file that is loaded after the action, if the action decides that. -/
def change? : Action → Option (Option Load)
  | load l => some (some l)
  | reset => some none
  | _ => none

def asks : Action → Bool
  | ask _ => true
  | _ => false

end Action

def run (s : Session) (actions : List Action) : Session :=
  actions.foldl Action.perform s

/-- What the last loading since the last reset loaded. -/
def lastLoad (actions : List Action) : Option Load :=
  (actions.filterMap Action.change?).getLast?.join

/-- Whether a query came after the last loading or reset. -/
def askedSince (actions : List Action) : Bool :=
  (actions.reverse.takeWhile (·.change?.isNone)).any Action.asks

/-- A single load takes its names from the table of its file. -/
theorem table_lt_of_mem_load {l : Load} {size : Nat} (hlt : l.file.table.index < size) :
    ∀ x, .load x ∈ [Action.load l] → x.file.table.index < size := by
  intro x hx
  obtain rfl := Action.load.inj (List.mem_singleton.1 hx)
  exact hlt

theorem lastLoad_concat (actions : List Action) (a : Action) :
    lastLoad (actions ++ [a]) = a.change?.getD (lastLoad actions) := by
  unfold lastLoad
  rw [List.filterMap_append]
  cases hchange : a.change? <;> simp [hchange]

theorem askedSince_concat (actions : List Action) (a : Action) :
    askedSince (actions ++ [a]) = (a.change?.isNone && (a.asks || askedSince actions)) := by
  unfold askedSince
  cases hchange : a.change? <;> simp [hchange]

section Build

variable {s : Session} {l : Load}

/-- The outcome stays one of the file when names come into the pool. -/
theorem Load.Outcome.share {names : NamePool} {result : Except ScopeError Analysis}
    (h : l.Outcome names result) (table : TableId) (texts : List String) :
    l.Outcome (names.set table ((names.table table).addAll texts)) result := by
  cases h with
  | failed h => exact .failed h
  | analysed h hgraph =>
    refine .analysed h ?_
    rw [NamePool.table_set]
    split
    · next heq =>
      rw [← heq.1]
      exact NameTable.mapNames_tag_addAll hgraph texts
    · exact hgraph

/-- The analysis of a file leaves its outcome with the names that it needs. -/
theorem outcome_analyze (l : Load) {names : NamePool}
    (hsize : l.file.table.index < names.tables.size) :
    l.Outcome (l.file.analyze names l.options l.environments).1
      (l.file.analyze names l.options l.environments).2 := by
  have htag : _ = l.outcome.map _ := l.file.tree.mapNames_tag_analyze l.options l.environments
    (names.table l.file.table)
  unfold SourceFile.analyze
  generalize LexicalScope.analyze (names.table l.file.table) l.file.tree l.options
    l.environments = analysis at htag ⊢
  obtain ⟨names', result⟩ := analysis
  have htable : (names.set l.file.table names').table l.file.table = names' := by
    rw [NamePool.table_set, if_pos ⟨rfl, hsize⟩]
  cases houtcome : l.outcome with
  | error e =>
    rw [houtcome] at htag
    cases result with
    | error e' =>
      obtain rfl : e' = e := Except.error.inj htag
      exact .failed houtcome
    | ok g => cases htag
  | ok g' =>
    rw [houtcome] at htag
    cases result with
    | error e' => cases htag
    | ok g =>
      have hgraph : g.mapNames names'.tag = g'.mapNames .inl := Except.ok.inj htag
      refine .analysed houtcome ?_
      rw [htable]
      exact hgraph

/-- The session has loaded this last, and analysed it if it was asked since. -/
structure Holds (s : Session) (l : Load) (asked : Bool) : Prop where
  table_lt : l.file.table.index < s.names.tables.size
  active : ∃ built, s.active = some (l.active built) ∧ built.isSome = asked ∧
    ∀ result, built = some result → l.Outcome s.names result

/-- A query leaves the loaded file analysed. -/
theorem Holds.build {asked : Bool} (h : s.Holds l asked) :
    ∃ result, s.build.2 = result.map (l.file, ·) ∧ l.Outcome s.build.1.names result ∧
      s.build.1.names.tables.size = s.names.tables.size ∧
      s.build.1.active = some (l.active (some result)) := by
  obtain ⟨built, hactive, -, hbuilt⟩ := h.active
  unfold Session.build
  rw [hactive]
  cases built with
  | some result => exact ⟨result, rfl, hbuilt result rfl, rfl, hactive⟩
  | none => exact ⟨_, rfl, outcome_analyze l h.table_lt, NamePool.size_set .., rfl⟩

theorem Holds.built {asked : Bool} (h : s.Holds l asked) : s.build.1.Holds l true := by
  obtain ⟨result, -, houtcome, hsize, hactive⟩ := h.build
  refine ⟨hsize ▸ h.table_lt, some result, hactive, rfl, fun result' hresult => ?_⟩
  obtain rfl := Option.some.inj hresult
  exact houtcome

end Build

namespace Query

variable {α β : Type} {s s' : Session}

theorem run_bind_ok {q : Query α} {f : α → Query β} {x : α}
    (h : q.run.run s = (.ok x, s')) : (q >>= f).run.run s = (f x).run.run s' := by
  simp only [ExceptT.run_bind, StateT.run_bind, h]
  rfl

theorem run_bind_error {q : Query α} {f : α → Query β} {e : ScopeError}
    (h : q.run.run s = (.error e, s')) : (q >>= f).run.run s = (.error e, s') := by
  simp only [ExceptT.run_bind, StateT.run_bind, h]
  rfl

/-- A query about a node goes on where the one before it ended. -/
theorem run_bind_at {t : Tree} {n : NodeId} {q : Query α} {f : α → Query β} {x : α} {y : β}
    (hq : q.run.run s = (Request.answerAt t n x, s')) (hf : (f x).run.run s' = (.ok y, s')) :
    (q >>= f).run.run s = (Request.answerAt t n y, s') := by
  unfold Request.answerAt at hq ⊢
  by_cases hn : t.contains n
  · rw [if_pos hn] at hq ⊢
    exact (run_bind_ok hq).trans hf
  · rw [if_neg hn] at hq ⊢
    exact run_bind_error hq

end Query

/-- Every query loads the file first. -/
theorem ask_error {α : Type} {s s' : Session} {e : ScopeError}
    (hload : Query.loaded.run.run s = (.error e, s')) (q : Request α) :
    s.ask q = (.error e, s') := by
  have hgraph : Query.graph.run.run s = (.error e, s') :=
    Query.run_bind_error (Query.run_bind_error hload)
  have hat (n : NodeId) : (Query.loadedAt n).run.run s = (.error e, s') :=
    Query.run_bind_error hload
  cases q with
  | scopes => exact Query.run_bind_error hgraph
  | globalScope => exact Query.run_bind_error hgraph
  | manager => exact hgraph
  | declaredVariables n => exact Query.run_bind_error (hat n)
  | acquire n inner => exact Query.run_bind_error (Query.run_bind_error (hat n))
  | scopeAt n => exact Query.run_bind_error (Query.run_bind_error (hat n))
  | isGlobalReference n => exact Query.run_bind_error (hat n)

theorem ask_idle {α : Type} {s : Session} (hs : s.active = none) (q : Request α) :
    s.ask q = (.error .noActiveFile, s) := by
  apply ask_error
  show (s.build.2, s.build.1) = _
  unfold Session.build
  rw [hs]

namespace Holds

variable {s : Session} {l : Load} {asked : Bool} (h : s.Holds l asked)
include h

/-- A file without an analysis gives its error to every query. -/
theorem run_loaded_error {e : ScopeError} (he : l.outcome = .error e) :
    Query.loaded.run.run s = (.error e, s.build.1) := by
  obtain ⟨result, hresult, houtcome, -, -⟩ := h.build
  show (s.build.2, s.build.1) = _
  rw [hresult]
  cases houtcome with
  | failed he' =>
    obtain rfl := Except.error.inj (he'.symm.trans he)
    rfl
  | analysed hok _ =>
    rw [hok] at he
    cases he

/-- A query about a file that can be analysed gets the graph of the file, under the names of its
table. -/
theorem run_loaded_ok {g' : ScopeGraph String} (hok : l.outcome = .ok g') :
    ∃ g, Query.loaded.run.run s = (.ok (l.file, ⟨g, l.file.table⟩), s.build.1) ∧
      g.mapNames (s.build.1.names.table l.file.table).tag = g'.mapNames .inl := by
  obtain ⟨result, hresult, houtcome, -, -⟩ := h.build
  show ∃ g, (s.build.2, s.build.1) = _ ∧ _
  rw [hresult]
  cases houtcome with
  | failed he =>
    rw [hok] at he
    cases he
  | analysed hok' hgraph =>
    obtain rfl := Except.ok.inj (hok'.symm.trans hok)
    exact ⟨_, rfl, hgraph⟩

/-- By text, this graph is the one reported of the file. -/
theorem run_graph {g' : ScopeGraph String} (hok : l.outcome = .ok g') :
    Query.graph.run.run s = (.ok (g'.mapNames id), s.build.1) := by
  obtain ⟨g, hload, hgraph⟩ := h.run_loaded_ok hok
  have htext : g.mapNames (s.build.1.names.table l.file.table).resolve = g'.mapNames id := by
    have hresolve := funext (s.build.1.names.table l.file.table).untag_tag
    rw [← hresolve]
    refine (ScopeGraph.mapNames_mapNames (NameTable.tag_injective _)
      NameTable.untag g).symm.trans ?_
    rw [hgraph, ScopeGraph.mapNames_mapNames Sum.inl_injective]
    rfl
  have hanalysis : Query.analysis.run.run s = (.ok ⟨g, l.file.table⟩, s.build.1) :=
    (Query.run_bind_ok hload).trans rfl
  refine (Query.run_bind_ok hanalysis).trans ?_
  rw [← htext]
  rfl

/-- A query about a node of the tree. -/
theorem run_loadedAt {g' : ScopeGraph String} (hok : l.outcome = .ok g') (n : NodeId) :
    ∃ g, g.mapNames (s.build.1.names.table l.file.table).tag = g'.mapNames .inl ∧
      (Query.loadedAt n).run.run s =
        (Request.answerAt l.file.tree n (l.file, g), s.build.1) := by
  obtain ⟨g, hload, hgraph⟩ := h.run_loaded_ok hok
  refine ⟨g, hgraph, (Query.run_bind_ok hload).trans ?_⟩
  unfold Request.answerAt
  dsimp only
  split <;> rfl

/-- A file that has been asked about is not analysed again. -/
theorem build_built (hasked : asked) : s.build.1 = s := by
  obtain ⟨built, hactive, hbuilt, -⟩ := h.active
  unfold Session.build
  rw [hactive]
  cases built with
  | some result => rfl
  | none =>
    rw [hasked] at hbuilt
    cases hbuilt

/-- The graph is at hand after a query has loaded the file. -/
theorem run_graph_built {g' : ScopeGraph String} (hok : l.outcome = .ok g') :
    Query.graph.run.run s.build.1 = (.ok (g'.mapNames id), s.build.1) := by
  rw [h.built.run_graph hok, h.built.build_built rfl]

theorem run_acquire {g' : ScopeGraph String} (hok : l.outcome = .ok g') (n : NodeId)
    (inner : Bool) : (Query.acquire n inner).run.run s =
      (Request.answerAt l.file.tree n ((g'.mapNames id).acquire n inner), s.build.1) := by
  obtain ⟨g, hgraph, hload⟩ := h.run_loadedAt hok n
  refine Query.run_bind_at hload ?_
  rw [ScopeGraph.acquire_mapNames, ← g'.acquire_mapNames (.inl : String → String ⊕ Name), ← hgraph,
    ScopeGraph.acquire_mapNames]
  rfl

theorem run_scopeAt {g' : ScopeGraph String} (hok : l.outcome = .ok g') (n : NodeId) :
    (Query.scopeAt n).run.run s =
      (Request.answerAt l.file.tree n ((g'.mapNames id).scopeAt l.file.tree n), s.build.1) := by
  obtain ⟨g, hgraph, hload⟩ := h.run_loadedAt hok n
  refine Query.run_bind_at hload ?_
  rw [ScopeGraph.scopeAt_mapNames, ← g'.scopeAt_mapNames (.inl : String → String ⊕ Name), ← hgraph,
    ScopeGraph.scopeAt_mapNames]
  rfl

theorem run_declaredVariables {g' : ScopeGraph String} (hok : l.outcome = .ok g') (n : NodeId) :
    (Query.declaredVariables n).run.run s =
      (Request.answerAt l.file.tree n ((g'.mapNames id).declaredVariables n), s.build.1) := by
  obtain ⟨g, hgraph, hload⟩ := h.run_loadedAt hok n
  refine Query.run_bind_at hload ?_
  have hdeclared : g.declared = g'.declared := congrArg ScopeGraph.declared hgraph
  show (_, _) = (Except.ok (g'.declared.valuesAt n), _)
  rw [← hdeclared]
  rfl

omit h in
/-- A name is looked up by its handle as it is by its text. -/
theorem isGlobalReference_handle {names : NameTable} {g : ScopeGraph Name}
    {g' : ScopeGraph String} (hgraph : g.mapNames names.tag = g'.mapNames .inl) (name : String)
    (n : NodeId) :
    (names.get? name).any (g.isGlobalReference · n) =
      (g'.mapNames id).isGlobalReference name n := by
  have htext : (g'.mapNames id).isGlobalReference name n =
      (g.mapNames names.tag).isGlobalReference (.inl name) n := by
    rw [hgraph, ScopeGraph.isGlobalReference_mapNames g' Sum.inl_injective]
    exact g'.isGlobalReference_mapNames Function.injective_id name n
  rw [htext, NameTable.get?]
  by_cases hname : name ∈ names.texts
  · have hcontains : names.contains name := Array.contains_iff_mem.2 hname
    rw [if_pos hcontains, Option.any_some, ← names.tag_handle hname,
      ScopeGraph.isGlobalReference_mapNames g names.tag_injective]
  · have hcontains : ¬names.contains name := fun hc => hname (Array.contains_iff_mem.1 hc)
    rw [if_neg hcontains, Option.any_none]
    have hnone : (g.mapNames names.tag).globalVariable? (.inl name) = none := by
      by_contra hsome
      obtain ⟨k, hk⟩ := g.exists_of_inTable?_mapNames names.tag_injective
        (Option.isSome_iff_ne_none.2 hsome)
      exact hname (NameTable.mem_texts_of_tag hk)
    rw [ScopeGraph.isGlobalReference, hnone]
    rfl

theorem run_isGlobalReference {g' : ScopeGraph String} (hok : l.outcome = .ok g') (n : NodeId) :
    (Query.isGlobalReference n).run.run s =
      (Request.answerAt l.file.tree n ((l.file.tree.identifierName? n).any
        ((g'.mapNames id).isGlobalReference · n)), s.build.1) := by
  obtain ⟨g, hgraph, hload⟩ := h.run_loadedAt hok n
  refine Query.run_bind_at hload ?_
  show (Except.ok (((l.file.tree.identifierName? n).bind
    (s.build.1.names.table l.file.table).get?).any (g.isGlobalReference · n)), _) = _
  cases l.file.tree.identifierName? n with
  | none => rfl
  | some name =>
    rw [Option.bind_some, Option.any_some]
    exact congrArg (Except.ok ·, _) (isGlobalReference_handle hgraph name n)

/-- The session answers every query as the loaded file alone decides. -/
theorem ask_eq {α : Type} (q : Request α) : s.ask q = (l.answer q, s.build.1) := by
  unfold Load.answer
  rw [l.report_eq]
  cases hout : l.outcome with
  | error e => exact ask_error (h.run_loaded_error hout) q
  | ok g' =>
    have hgraph := h.run_graph hout
    have hagain := h.run_graph_built hout
    cases q with
    | scopes => exact Query.run_bind_ok hgraph
    | globalScope => exact Query.run_bind_ok hgraph
    | manager => exact hgraph
    | declaredVariables n => exact h.run_declaredVariables hout n
    | acquire n inner =>
      exact Query.run_bind_at (h.run_acquire hout n inner) (Query.run_bind_ok hagain)
    | scopeAt n => exact Query.run_bind_at (h.run_scopeAt hout n) (Query.run_bind_ok hagain)
    | isGlobalReference n => exact h.run_isGlobalReference hout n

end Holds

/-- The state of a session reflects what has happened to it. -/
structure Reflects (s : Session) (size : Nat) (actions : List Action) : Prop where
  size_eq : s.names.tables.size = size
  idle : lastLoad actions = none → s.active = none
  holds : ∀ l, lastLoad actions = some l → s.Holds l (askedSince actions)

/-- A query changes a session by what it analyses only. -/
theorem Reflects.ask {s : Session} {size : Nat} {actions : List Action}
    (h : s.Reflects size actions) {α : Type} (q : Request α) :
    (s.ask q).2.Reflects size (actions ++ [.ask q]) := by
  have hlast : lastLoad (actions ++ [.ask q]) = lastLoad actions := lastLoad_concat actions _
  have hasked : askedSince (actions ++ [.ask q]) = true := askedSince_concat actions _
  cases hload : lastLoad actions with
  | none =>
    have hidle := h.idle hload
    rw [ask_idle hidle]
    refine ⟨h.size_eq, fun _ => hidle, fun l hl => ?_⟩
    rw [hlast, hload] at hl
    cases hl
  | some l =>
    have hholds := h.holds l hload
    obtain ⟨-, -, -, hsize, -⟩ := hholds.build
    rw [hholds.ask_eq]
    refine ⟨hsize.trans h.size_eq, fun hnone => ?_, fun l' hl => ?_⟩
    · rw [hlast, hload] at hnone
      cases hnone
    · rw [hlast, hload] at hl
      obtain rfl := Option.some.inj hl
      rw [hasked]
      exact hholds.built

/-- Each action keeps the session and its history in step. -/
theorem Reflects.perform {s : Session} {size : Nat} {actions : List Action}
    (h : s.Reflects size actions) {a : Action}
    (htable : ∀ l, a = .load l → l.file.table.index < size) :
    (a.perform s).Reflects size (actions ++ [a]) := by
  have hlast := lastLoad_concat actions a
  have hasked := askedSince_concat actions a
  cases a with
  | load l =>
    refine ⟨h.size_eq, fun hnone => ?_, fun l' hl => ?_⟩
    · rw [hlast] at hnone
      cases hnone
    · rw [hlast] at hl
      obtain rfl : l = l' := Option.some.inj hl
      rw [hasked]
      exact ⟨h.size_eq ▸ htable l rfl, none, rfl, rfl, nofun⟩
  | reset =>
    refine ⟨h.size_eq, fun _ => rfl, fun l hl => ?_⟩
    rw [hlast] at hl
    cases hl
  | ask q => exact h.ask q
  | markUsed name n =>
    refine ⟨h.size_eq, fun hnone => h.idle (hlast.symm.trans hnone), fun l hl => ?_⟩
    rw [hasked]
    exact h.holds l (hlast.symm.trans hl)
  | share table texts =>
    refine ⟨(NamePool.size_set ..).trans h.size_eq, fun hnone => h.idle (hlast.symm.trans hnone),
      fun l hl => ?_⟩
    rw [hasked]
    obtain ⟨hlt, built, hactive, hbuilt, houtcome⟩ := h.holds l (hlast.symm.trans hl)
    exact ⟨(NamePool.size_set ..).symm ▸ hlt, built, hactive, hbuilt,
      fun result hresult => (houtcome result hresult).share table texts⟩

/-- After any actions, a session reflects the last file loaded and whether it was asked about. -/
theorem reflects_run {s : Session} (hs : s.active = none) {actions : List Action}
    (htables : ∀ l, .load l ∈ actions → l.file.table.index < s.names.tables.size) :
    (s.run actions).Reflects s.names.tables.size actions := by
  induction actions using List.reverseRecOn with
  | nil => exact ⟨rfl, fun _ => hs, nofun⟩
  | append_singleton actions a ih =>
    have hbefore := ih fun l hl => htables l (List.mem_append_left _ hl)
    rw [run, List.foldl_append]
    refine hbefore.perform fun l hl => htables l ?_
    rw [hl]
    exact List.mem_append_right _ (List.mem_singleton_self _)

/-- What a session shows is decided by the last loading and by whether a query came after it. -/
structure IsMemo (s : Session) (actions : List Action) : Prop where
  isActive_iff : s.isActive ↔ ∃ l, lastLoad actions = some l
  isBuilt_iff : s.isBuilt ↔ s.isActive ∧ askedSince actions
  idle : lastLoad actions = none → ∀ {α : Type} (q : Request α),
    (s.ask q).1 = .error .noActiveFile
  answer : ∀ l, lastLoad actions = some l → ∀ {α : Type} (q : Request α),
    (s.ask q).1 = l.answer q
  /-- A new session over any pool answers the same. -/
  fresh : ∀ l, lastLoad actions = some l → ∀ names : NamePool,
    l.file.table.index < names.tables.size → ∀ {α : Type} (q : Request α),
    (s.ask q).1 = ((({ names } : Session).run [.load l]).ask q).1
  /-- Nodes are checked only if the analysis has succeeded. -/
  unknownNode : ∀ {α : Type} {q : Request α} {n : NodeId} {size : Nat},
    (s.ask q).1 = .error (.unknownNode n size) →
      ∃ l g, lastLoad actions = some l ∧ l.report = .ok g ∧ l.file.tree.contains n = false
  markUsed : ∀ name n, (Query.markVariableUsed name n).run.run s =
    (.error (.notImplemented "mark_variable_used"), s)

theorem Load.report_ne_unknownNode (l : Load) (n : NodeId) (size : Nat) :
    l.report ≠ .error (.unknownNode n size) := by
  rw [l.report_eq, Load.outcome, Tree.outcome]
  cases l.file.tree.outline? l.options with
  | none => exact nofun
  | some outline =>
    dsimp only
    cases outline.findSome? Step.misplacedImport? <;> exact nofun

/-- The graph of a tree has an answer to everything but questions about other nodes. -/
theorem Request.contains_of_reply {α : Type} {q : Request α} {t : Tree} {g : ScopeGraph String}
    {n : NodeId} {size : Nat} (h : q.reply t g = .error (.unknownNode n size)) :
    t.contains n = false := by
  have hat {β : Type} {m : NodeId} {answer : β}
      (h : answerAt t m answer = .error (.unknownNode n size)) : t.contains n = false := by
    unfold answerAt at h
    split at h
    · cases h
    · next hm =>
      obtain ⟨rfl, -⟩ := ScopeError.unknownNode.inj (Except.error.inj h)
      exact Bool.eq_false_iff.2 hm
  cases q with
  | scopes => cases h
  | globalScope => cases h
  | manager => cases h
  | declaredVariables m => exact hat h
  | acquire m inner => exact hat h
  | scopeAt m => exact hat h
  | isGlobalReference m => exact hat h

section Reflects

variable {s : Session} {size : Nat} {actions : List Action} (h : s.Reflects size actions)
include h

theorem Reflects.ask_fst {l : Load} (hl : lastLoad actions = some l) {α : Type} (q : Request α) :
    (s.ask q).1 = l.answer q :=
  congrArg Prod.fst ((h.holds l hl).ask_eq q)

theorem Reflects.isActive_iff : s.isActive ↔ ∃ l, lastLoad actions = some l := by
  unfold Session.isActive
  cases hload : lastLoad actions with
  | none => simp [h.idle hload]
  | some l =>
    obtain ⟨built, hactive, -⟩ := (h.holds l hload).active
    simp [hactive]

theorem Reflects.isBuilt_iff : s.isBuilt ↔ s.isActive ∧ askedSince actions := by
  unfold Session.isBuilt Session.isActive
  cases hload : lastLoad actions with
  | none => simp [h.idle hload]
  | some l =>
    obtain ⟨built, hactive, hbuilt, -⟩ := (h.holds l hload).active
    simp [hactive, Load.active, hbuilt]

/-- A node is unknown only if the loaded file does not have it. -/
theorem Reflects.unknownNode {α : Type} {q : Request α} {n : NodeId} {k : Nat}
    (hq : (s.ask q).1 = .error (.unknownNode n k)) :
    ∃ l g, lastLoad actions = some l ∧ l.report = .ok g ∧ l.file.tree.contains n = false := by
  cases hload : lastLoad actions with
  | none =>
    rw [ask_idle (h.idle hload)] at hq
    cases hq
  | some l =>
    rw [h.ask_fst hload, Load.answer] at hq
    cases hreport : l.report with
    | error e =>
      rw [hreport] at hq
      obtain rfl : e = _ := Except.error.inj hq
      exact absurd hreport (l.report_ne_unknownNode n k)
    | ok g =>
      rw [hreport] at hq
      exact ⟨l, g, rfl, hreport, Request.contains_of_reply hq⟩

end Reflects

end Session

/-- A session is a view of the analysis of its file, kept until the next file. -/
theorem isMemo_run {s : Session} (hs : s.active = none) {actions : List Session.Action}
    (htables : ∀ l, .load l ∈ actions → l.file.table.index < s.names.tables.size) :
    (s.run actions).IsMemo actions := by
  have h := Session.reflects_run hs htables
  exact {
    isActive_iff := h.isActive_iff
    isBuilt_iff := h.isBuilt_iff
    idle := fun hnone _ q => congrArg Prod.fst (Session.ask_idle (h.idle hnone) q)
    answer := fun l hl _ q => h.ask_fst hl q
    fresh := fun l hl names hlt _ q => by
      have hfresh : (({ names } : Session).run [.load l]).Reflects names.tables.size [.load l] :=
        Session.reflects_run rfl fun l' hl' => by
          obtain rfl := Session.Action.load.inj (List.mem_singleton.1 hl')
          exact hlt
      rw [h.ask_fst hl, hfresh.ask_fst rfl]
    unknownNode := h.unknownNode
    markUsed := fun _ _ => rfl }

/-- Neither an earlier loading nor new names in the table change the answer. -/
theorem fresh_assignedTwice : ∃ t, ∃ l : Session.Load, Build.tree assignedTwice = .ok t ∧
    l = ⟨⟨t, ⟨0⟩⟩, {}, {}⟩ ∧
    ((({ names := ⟨#[{}]⟩ } : Session).run
        [.ask .manager, .load l, .ask .scopes, .reset, .share ⟨0⟩ ["c"], .load l]).ask .manager).1 =
      ((({ names := ⟨#[{}, {}]⟩ } : Session).run [.load l]).ask .manager).1 := by
  have hsome : (Build.tree assignedTwice).toOption.isSome := by decide +kernel
  cases ht : Build.tree assignedTwice with
  | error e =>
    rw [ht] at hsome
    cases hsome
  | ok t =>
    refine ⟨t, ⟨⟨t, ⟨0⟩⟩, {}, {}⟩, rfl, rfl, ?_⟩
    refine (isMemo_run rfl fun l hl => ?_).fresh _ rfl ⟨#[{}, {}]⟩ Nat.zero_lt_two .manager
    obtain rfl : l = ⟨⟨t, ⟨0⟩⟩, {}, {}⟩ := by simpa using hl
    exact Nat.zero_lt_one

end LexicalScope
